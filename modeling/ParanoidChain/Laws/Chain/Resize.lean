import ParanoidChain.Laws.Chain.SegmentedState

/-!
# Changes of depth

Growing the slot domain adds empty slots and shrinking it drops slots that are checked to be empty,
so both keep the slot vector. Below the segment size they work on the columns of the only segment,
above it on whole segments.
-/

namespace ParanoidChain

open Lib

namespace SegmentedFriState

/-! ## Growing -/

section Growing

variable {hasher : StateHasher} {state : SegmentedFriState} {slots : Nat → SlotValue}

/-- Below the segment size there is one segment, and it is the whole vector. -/
theorem Represents.sole (rep : Represents hasher state slots)
    (shallow : state.logSlots ≤ logSegmentSize) :
    state.effectiveLogSeg = state.logSlots ∧ state.numSegments = 1 := by
  have log := rep.segmentLog_eq
  rw [Nat.min_eq_left shallow] at log
  exact ⟨log, by rw [rep.numSegments_eq, log, Nat.sub_self, Nat.pow_zero]⟩

theorem Represents.deep (rep : Represents hasher state slots)
    (deep : logSegmentSize ≤ state.logSlots) : state.effectiveLogSeg = logSegmentSize := by
  rw [rep.segmentLog_eq, Nat.min_eq_right deep]

theorem segmentSlots_zero (slots : Nat → SlotValue) (log index : Nat) :
    segmentSlots slots log 0 index = slots index := by
  rw [segmentSlots, Nat.zero_mul, Nat.zero_add]

theorem Represents.soleHolds (rep : Represents hasher state slots)
    (shallow : state.logSlots ≤ logSegmentSize) :
    SegmentHolds (state.tryGetSegmentColumns 0) (state.segmentLiveCount 0) (0 ∈ state.evicted)
      (2 ^ state.logSlots) slots := by
  obtain ⟨log, count⟩ := rep.sole shallow
  have holds := rep.segment 0 (by omega)
  rw [log] at holds
  exact holds.congr fun index _ => (segmentSlots_zero ..).symm

/-- Doubling the number of segments keeps the vector. -/
theorem Represents.double (rep : Represents hasher state slots)
    (deep : logSegmentSize ≤ state.logSlots) :
    Represents hasher
      { state with
        logSlots := state.logSlots + 1
        numSegments := state.numSegments * 2
        segments := state.segments ++ List.replicate state.numSegments none
        liveCounts := state.liveCounts ++ List.replicate state.numSegments 0 } slots := by
  have log := rep.deep deep
  have whole := rep.size_eq
  refine ⟨by simp, ?_, ?_, ?_, ?_, fun id member => ?_, fun id below => ?_, fun index outside => ?_,
    rep.cached.mono fun id tree held => ⟨?_, held.2⟩⟩
  · rw [log, Nat.min_eq_right (by simp only; omega)]
  · simp only [rep.numSegments_eq, ← Nat.pow_succ]
    congr 1
    omega
  · simp only [List.length_append, List.length_replicate, rep.segments_length]
    omega
  · simp only [List.length_append, List.length_replicate, rep.liveCounts_length]
    omega
  · have := rep.evicted_lt id member
    simp only
    omega
  · simp only [tryGetSegmentColumns, segmentLiveCount] at below ⊢
    rcases Nat.lt_or_ge id state.numSegments with old | new
    · rw [List.getD_append _ _ _ _ (rep.segments_length ▸ old),
        List.getD_append _ _ _ _ (rep.liveCounts_length ▸ old)]
      exact rep.segment id old
    · have unused : ∀ index, segmentSlots slots state.effectiveLogSeg id index = .empty := by
        intro index
        refine rep.beyond _ ?_
        rw [← whole]
        exact (Nat.mul_le_mul_right _ new).trans (Nat.le_add_right _ _)
      rw [List.getD_append_right _ _ _ _ (rep.segments_length ▸ new),
        List.getD_append_right _ _ _ _ (rep.liveCounts_length ▸ new),
        List.getD_eq_getElem?_getD, List.getD_eq_getElem?_getD,
        List.getElem?_getD_replicate_default_eq, List.getElem?_getD_replicate_default_eq]
      exact ⟨fun _ found => (by cases found), fun _ _ index _ => unused index,
        (by simp [total, unused])⟩
  · simp only at outside
    exact rep.beyond index ((Nat.pow_le_pow_right (by omega) (by omega)).trans outside)
  · simp only
    omega

variable {grown : SegmentedFriState}

/-- `expand` keeps the vector. Below the segment size it marks the only segment, above it nothing. -/
theorem Represents.expand (rep : Represents hasher state slots)
    (expanded : state.expand = some grown) :
    Represents hasher grown slots ∧ grown.logSlots = state.logSlots + 1 ∧
      grown.evicted = state.evicted ∧
      (state.logSlots < logSegmentSize → grown.exactDirty = state.exactDirty.insert 0) ∧
      (logSegmentSize ≤ state.logSlots → grown.exactDirty = state.exactDirty ∧
        grown.effectiveLogSeg = state.effectiveLogSeg ∧
        grown.numSegments = state.numSegments * 2) := by
  unfold SegmentedFriState.expand at expanded
  simp only at expanded
  split at expanded
  case isFalse deep =>
    obtain rfl := Option.some.inj expanded
    exact ⟨rep.double (by omega), rfl, rfl, fun _ => by omega, fun _ => ⟨rfl, rfl, rfl⟩⟩
  case isTrue shallow =>
    unfold flushAllDirty at expanded
    split at expanded
    case isTrue => cases expanded
    case isFalse flushed =>
      obtain rfl := Option.some.inj expanded
      obtain ⟨log, count⟩ := rep.sole (by omega)
      have half : (2 : Nat) ^ (state.logSlots + 1) = 2 ^ state.logSlots + 2 ^ state.logSlots := by
        rw [Nat.pow_succ, Nat.mul_two]
      have grown := (rep.soleHolds (by omega)).extend rep.beyond (2 ^ state.logSlots)
      rw [← half] at grown
      refine ⟨⟨by simp, ?_, ?_, ?_, rep.liveCounts_length, rep.evicted_lt, fun id below => ?_,
        fun index outside => ?_, ?_⟩, rfl, rfl, fun _ => rfl, fun _ => by omega⟩
      · simp only [Nat.min_eq_left shallow]
      · simp [count]
      · simp [rep.segments_length]
      · obtain rfl : id = 0 := by simp only [count] at below; omega
        simp only [Nat.add_sub_cancel]
        rw [tryGetSegmentColumns, getD_set_apply (rep.segments_length ▸ count ▸ Nat.zero_lt_one),
          if_pos rfl]
        exact grown.congr fun index _ => segmentSlots_zero ..
      · have : 2 ^ (state.logSlots + 1) ≤ index := outside
        exact rep.beyond index (by omega)
      · refine (rep.cached.remove 0).mono fun id tree held => ?_
        have := held.2.1
        exact absurd held.1 (by omega)

end Growing

/-! ## Shrinking -/

section Shrinking

variable {hasher : StateHasher} {state shrunk : SegmentedFriState} {slots : Nat → SlotValue}

/-- What a smaller domain keeps of the bookkeeping: no segment becomes evicted, and one that is not
marked for an exact refresh was there before, unmarked and of the same size. -/
structure Resized (state shrunk : SegmentedFriState) : Prop where
  le : shrunk.logSlots ≤ state.logSlots
  evicted_sub : ∀ id ∈ shrunk.evicted, id ∈ state.evicted
  fresh : ∀ id < shrunk.numSegments, id ∉ shrunk.exactDirty →
    id < state.numSegments ∧ id ∉ state.exactDirty ∧
      shrunk.effectiveLogSeg = state.effectiveLogSeg
  dirty_lt : (∀ id ∈ state.exactDirty, id < state.numSegments) →
    ∀ id ∈ shrunk.exactDirty, id < shrunk.numSegments

theorem Resized.refl (state : SegmentedFriState) : Resized state state :=
  ⟨le_rfl, fun _ member => member, fun _ inside fresh => ⟨inside, fresh, rfl⟩, fun marked => marked⟩

/-- Shrinking evicts nothing. -/
theorem Resized.evicted_eq_nil {state shrunk : SegmentedFriState} (resized : Resized state shrunk)
    (none : state.evicted = []) : shrunk.evicted = [] :=
  List.eq_nil_iff_forall_not_mem.mpr fun id member => by
    simpa [none] using resized.evicted_sub id member

theorem Resized.trans {first second third : SegmentedFriState} (one : Resized first second)
    (two : Resized second third) : Resized first third where
  le := two.le.trans one.le
  evicted_sub id member := one.evicted_sub id (two.evicted_sub id member)
  fresh id inside fresh := by
    obtain ⟨earlier, unmarked, log⟩ := two.fresh id inside fresh
    obtain ⟨first, former, log'⟩ := one.fresh id earlier unmarked
    exact ⟨first, former, log.trans log'⟩
  dirty_lt marked := two.dirty_lt (one.dirty_lt marked)

/-- A flush only forgets which raw commitments are stale. -/
theorem flushAllDirty_eq {flushed : SegmentedFriState} (done : state.flushAllDirty = some flushed) :
    flushed = { state with dirty := [] } := by
  unfold flushAllDirty at done
  split at done
  · cases done
  · exact (Option.some.inj done).symm

/-- Columns cut to a prefix stand for a vector that is empty from there on. -/
theorem SegmentHolds.truncate {columns : SegmentColumns} {live size keep : Nat} {evicted : Prop}
    (holds : SegmentHolds (some columns) live evicted size slots) (fits : keep ≤ size) :
    SegmentHolds
      (if (columns.truncate keep).countLive = 0 then none else some (columns.truncate keep))
      (columns.truncate keep).countLive evicted keep slots := by
  obtain ⟨sized, reads, present⟩ := holds.resident columns rfl
  have cut := sized.truncate fits
  have prefix_eq : ∀ index < keep, (columns.truncate keep).get index = slots index :=
    fun index inside => by
      rw [SegmentColumns.get_truncate _ inside, reads index (inside.trans_le fits)]
  exact .of_columns cut prefix_eq (cut.countLive_eq.trans (total_congr prefix_eq)) present

/-- Halving the only segment, whatever is put in its place for the lower half. -/
theorem Represents.halveSole (rep : Represents hasher state slots)
    (shallow : state.logSlots ≤ logSegmentSize) (two : 2 ≤ state.logSlots)
    {segments : List (Option SegmentColumns)} {liveCounts : List Nat}
    (segments_length : segments.length = 1) (liveCounts_length : liveCounts.length = 1)
    (holds : SegmentHolds (segments.getD 0 none) (liveCounts.getD 0 0) (0 ∈ state.evicted)
      (2 ^ (state.logSlots - 1)) slots)
    (upper : ∀ index, 2 ^ (state.logSlots - 1) ≤ index → slots index = .empty)
    (done : { state with segments, liveCounts }.halveSole = (shrunk, .ok ())) :
    Represents hasher shrunk slots ∧ shrunk.logSlots + 1 = state.logSlots ∧
      Resized state shrunk := by
  unfold SegmentedFriState.halveSole at done
  simp only at done
  split at done
  case h_1 => cases done
  case h_2 flushed flush =>
    obtain rfl := (Prod.mk.inj done).1
    obtain rfl := flushAllDirty_eq flush
    obtain ⟨log, count⟩ := rep.sole shallow
    have sole {id : Nat} (inside : id < state.numSegments) : id = 0 := by omega
    refine ⟨⟨by simp only; omega, ?_, ?_, ?_, ?_, rep.evicted_lt, fun id below => ?_, upper, ?_⟩,
      by simp only; omega, by simp, fun _ member => member, ?_, ?_⟩
    · simp only
      omega
    · simp [count]
    · simp [count, segments_length]
    · simp [count, liveCounts_length]
    · obtain rfl := sole below
      exact holds.congr fun index _ => segmentSlots_zero ..
    · exact (rep.cached.remove 0).mono fun id tree held => absurd (sole held.2.1) held.1
    · intro id inside fresh
      obtain rfl := sole inside
      exact absurd List.mem_insert_self fresh
    · intro marked id member
      rcases List.mem_insert_iff.mp member with rfl | earlier
      · simp [count]
      · exact marked id earlier

theorem Represents.shrinkSole (rep : Represents hasher state slots)
    (shallow : state.logSlots ≤ logSegmentSize) (two : 2 ≤ state.logSlots)
    (done : state.shrinkSole = (shrunk, .ok ())) :
    Represents hasher shrunk slots ∧ shrunk.logSlots + 1 = state.logSlots ∧
      Resized state shrunk := by
  obtain ⟨-, count⟩ := rep.sole shallow
  have holds := rep.soleHolds shallow
  have segments_length := rep.segments_length.trans count
  have liveCounts_length := rep.liveCounts_length.trans count
  have half : 2 ^ (state.logSlots - 1) ≤ 2 ^ state.logSlots :=
    Nat.pow_le_pow_right (by omega) (by omega)
  unfold SegmentedFriState.shrinkSole at done
  simp only at done
  split at done
  case isTrue => simp at done
  case isFalse present =>
    have present : 0 ∉ state.evicted := by simpa [isEvicted] using present
    split at done
    case h_1 missing =>
      have empty (index : Nat) : slots index = .empty := by
        rcases Nat.lt_or_ge index (2 ^ state.logSlots) with low | high
        · exact holds.absent missing present index low
        · exact rep.beyond index high
      refine rep.halveSole shallow two segments_length liveCounts_length ?_ (fun _ _ => empty _) done
      have live : state.segmentLiveCount 0 = 0 := by
        rw [holds.live_eq]
        simp [total, empty]
      exact ⟨fun held found => absurd (missing.symm.trans found) (by simp), fun _ _ _ _ => empty _,
        live.trans (by simp [total, empty])⟩
    case h_2 columns found =>
      split at done
      case isFalse => simp at done
      case isTrue upper =>
        rw [found] at holds
        obtain ⟨sized, reads, -⟩ := holds.resident columns rfl
        refine rep.halveSole shallow two (by simpa using segments_length)
          (by simpa using liveCounts_length) ?_ (fun index high => ?_) done
        · rw [getD_set_apply (by omega), if_pos rfl, getD_set_apply (by omega), if_pos rfl]
          exact holds.truncate half
        · rcases Nat.lt_or_ge index (2 ^ state.logSlots) with low | beyond
          · rw [← reads index low]
            exact SegmentColumns.upperIsEmpty_iff.mp upper index high
          · exact rep.beyond index beyond

variable {target : Nat}

/-- Dropping whole segments keeps a vector that is empty there. -/
theorem Represents.truncateSegments (rep : Represents hasher state slots)
    (deep : logSegmentSize ≤ target) (le : target ≤ state.logSlots)
    (unused : ∀ id, 2 ^ (target - logSegmentSize) ≤ id → id < state.numSegments →
      id ∉ state.evicted ∧ state.segmentLiveCount id = 0) :
    Represents hasher
        { state.truncateSegments (2 ^ (target - logSegmentSize)) with logSlots := target } slots ∧
      Resized state
        { state.truncateSegments (2 ^ (target - logSegmentSize)) with logSlots := target } := by
  have log := rep.deep (deep.trans le)
  have fewer : 2 ^ (target - logSegmentSize) ≤ state.numSegments := by
    rw [rep.numSegments_eq, log]
    exact Nat.pow_le_pow_right (by omega) (by omega)
  have upper (index : Nat) (high : 2 ^ target ≤ index) : slots index = .empty := by
    rcases Nat.lt_or_ge index (2 ^ state.logSlots) with low | beyond
    · have from_target : 2 ^ (target - logSegmentSize) ≤ state.segIdOf index := by
        rw [segIdOf, log, Nat.le_div_iff_mul_le (Nat.two_pow_pos _), ← Nat.pow_add,
          Nat.sub_add_cancel deep]
        exact high
      have none := (unused _ from_target (rep.segIdOf_lt low)).2
      have empty := eq_empty_of_total
        ((rep.segment _ (rep.segIdOf_lt low)).live_eq.symm.trans none) (localIdxOf_lt state index)
      rwa [localIdxOf, segIdOf, segmentSlots_div_mod] at empty
    · exact rep.beyond index beyond
  refine ⟨⟨?_, ?_, ?_, ?_, ?_, fun id member => ?_, fun id below => ?_, upper, ?_⟩,
    le, fun id member => ?_, fun id below fresh => ?_, fun _ id member => ?_⟩
  · exact Nat.le_trans (by decide) deep
  · exact log.trans (Nat.min_eq_right deep).symm
  · show 2 ^ (target - logSegmentSize) = 2 ^ (target - state.effectiveLogSeg)
    rw [log]
  · simp [SegmentedFriState.truncateSegments, rep.segments_length, fewer]
  · simp [SegmentedFriState.truncateSegments, rep.liveCounts_length, fewer]
  · exact of_decide_eq_true (List.mem_filter.mp member).2
  · have below : id < 2 ^ (target - logSegmentSize) := below
    have columns : (state.segments.take (2 ^ (target - logSegmentSize))).getD id none =
        state.tryGetSegmentColumns id := by
      simp [tryGetSegmentColumns, List.getD_eq_getElem?_getD, below]
    have live : (state.liveCounts.take (2 ^ (target - logSegmentSize))).getD id 0 =
        state.segmentLiveCount id := by
      simp [segmentLiveCount, List.getD_eq_getElem?_getD, below]
    have residency : id ∈ state.evicted.filter (· < 2 ^ (target - logSegmentSize)) ↔
        id ∈ state.evicted := by simp [below]
    simp only [SegmentedFriState.truncateSegments, tryGetSegmentColumns, segmentLiveCount] at *
    rw [columns, live, residency]
    exact rep.segment id (below.trans_le fewer)
  · exact (rep.cached.truncateSegments _).mono fun id tree held => ⟨held.1, held.2.2⟩
  · exact List.mem_of_mem_filter member
  · have below : id < 2 ^ (target - logSegmentSize) := below
    refine ⟨below.trans_le fewer, fun marked => fresh ?_, rfl⟩
    exact List.mem_filter.mpr ⟨marked, by simpa using below⟩
  · exact of_decide_eq_true (List.mem_filter.mp member).2

theorem upperSegmentError_eq_none {segId : Nat} :
    state.upperSegmentError segId = none ↔
      segId ∉ state.evicted ∧ state.segmentLiveCount segId = 0 := by
  unfold upperSegmentError isEvicted
  by_cases gone : segId ∈ state.evicted <;> by_cases live : state.segmentLiveCount segId = 0 <;>
    simp [gone, live]

/-- Half of the segments is what a domain one level shallower has. -/
theorem Represents.half_count (rep : Represents hasher state slots)
    (deep : logSegmentSize < state.logSlots) :
    state.numSegments / 2 = 2 ^ (state.logSlots - 1 - logSegmentSize) := by
  rw [rep.numSegments_eq, rep.deep deep.le]
  have split : 2 ^ (state.logSlots - logSegmentSize) =
      2 ^ (state.logSlots - 1 - logSegmentSize) * 2 := by
    rw [← Nat.pow_succ]
    congr 1
    omega
  omega

theorem Represents.shrinkHalf (rep : Represents hasher state slots)
    (deep : logSegmentSize < state.logSlots) (done : state.shrinkHalf = (shrunk, .ok ())) :
    Represents hasher shrunk slots ∧ shrunk.logSlots + 1 = state.logSlots ∧
      Resized state shrunk := by
  unfold SegmentedFriState.shrinkHalf at done
  simp only [rep.half_count deep] at done
  split at done
  case h_1 => simp at done
  case h_2 clear =>
    obtain rfl := (Prod.mk.inj done).1
    have unused : ∀ id, 2 ^ (state.logSlots - 1 - logSegmentSize) ≤ id → id < state.numSegments →
        id ∉ state.evicted ∧ state.segmentLiveCount id = 0 := fun id low high =>
      upperSegmentError_eq_none.mp (List.findSome?_eq_none_iff.mp clear id
        (List.mem_range'_1.mpr ⟨low, by omega⟩))
    obtain ⟨held, resized⟩ := rep.truncateSegments (Nat.le_sub_one_of_lt deep) (by omega) unused
    exact ⟨held, by simp only; omega, resized⟩

variable {error : StateResizeError}

/-- Halving the only segment succeeds or aborts. -/
theorem halveSole_ne_err :
    state.halveSole ≠ (shrunk, .error (.err error)) := by
  unfold SegmentedFriState.halveSole
  simp only
  split <;> simp

/-- A round that reports an error changes nothing. -/
theorem eq_of_shrinkSole_err (failed : state.shrinkSole = (shrunk, .error (.err error))) :
    shrunk = state := by
  unfold SegmentedFriState.shrinkSole at failed
  simp only at failed
  split at failed
  case isTrue => exact (Prod.mk.inj failed).1.symm
  case isFalse =>
    split at failed
    case h_1 => exact absurd failed halveSole_ne_err
    case h_2 =>
      split at failed
      case isTrue => exact absurd failed halveSole_ne_err
      case isFalse => exact (Prod.mk.inj failed).1.symm

theorem eq_of_shrinkHalf_err (failed : state.shrinkHalf = (shrunk, .error (.err error))) :
    shrunk = state := by
  unfold SegmentedFriState.shrinkHalf at failed
  simp only at failed
  split at failed
  case h_1 => exact (Prod.mk.inj failed).1.symm
  case h_2 => simp at failed

variable {result : Except (Fault StateResizeError) Unit}

section

variable (rep : Represents hasher state slots)
include rep

/-- One round keeps the vector, whether it succeeds or reports an error. -/
theorem Represents.shrinkOnce (two : 2 ≤ state.logSlots) (ran : state.shrinkOnce = (shrunk, result))
    (alive : result ≠ .error .panic) :
    Represents hasher shrunk slots ∧ Resized state shrunk ∧
      (result = .ok () → shrunk.logSlots + 1 = state.logSlots) := by
  unfold SegmentedFriState.shrinkOnce at ran
  split at ran
  case h_1 => exact absurd (Prod.mk.inj ran).2.symm alive
  case h_2 flushed flush =>
    obtain rfl := flushAllDirty_eq flush
    have kept : Represents hasher { state with dirty := [] } slots := rep.congr rfl rfl rfl rfl rfl rfl rfl
    have start : Resized state { state with dirty := [] } :=
      ⟨le_rfl, fun _ member => member, fun _ inside fresh => ⟨inside, fresh, rfl⟩,
        fun marked => marked⟩
    match result, ran, alive with
    | .error .panic, _, alive => exact absurd rfl alive
    | .error (.err error), ran, _ =>
      have same : shrunk = { state with dirty := [] } := by
        split at ran
        · exact eq_of_shrinkSole_err ran
        · exact eq_of_shrinkHalf_err ran
      exact same ▸ ⟨kept, start, fun ok => by cases ok⟩
    | .ok (), ran, _ =>
      split at ran
      case isTrue shallow =>
        obtain ⟨held, log, resized⟩ := kept.shrinkSole shallow two ran
        exact ⟨held, start.trans resized, fun _ => log⟩
      case isFalse deep =>
        obtain ⟨held, log, resized⟩ := kept.shrinkHalf (Nat.lt_of_not_le deep) ran
        exact ⟨held, start.trans resized, fun _ => log⟩

/-- The loop keeps the vector; when it succeeds the domain has the target depth. -/
theorem Represents.shrinkLoop {fuel : Nat} (pos : 1 ≤ target) (low : target ≤ state.logSlots)
    (enough : state.logSlots ≤ target + fuel)
    (ran : state.shrinkLoop target fuel = (shrunk, result)) (alive : result ≠ .error .panic) :
    Represents hasher shrunk slots ∧ Resized state shrunk ∧
      (result = .ok () → shrunk.logSlots = target) := by
  induction fuel generalizing state with
  | zero =>
    obtain ⟨rfl, rfl⟩ := Prod.mk.inj ran
    exact ⟨rep, .refl _, fun _ => by omega⟩
  | succ fuel ih =>
    rw [SegmentedFriState.shrinkLoop] at ran
    split at ran
    case isFalse reached =>
      obtain ⟨rfl, rfl⟩ := Prod.mk.inj ran
      exact ⟨rep, .refl _, fun _ => by omega⟩
    case isTrue deeper =>
      split at ran
      case h_1 next once =>
        obtain ⟨held, resized, log⟩ := rep.shrinkOnce (by omega) once (by simp)
        have := log rfl
        obtain ⟨held, more, reached⟩ := ih held (by omega) (by omega) ran
        exact ⟨held, resized.trans more, reached⟩
      case h_2 failed once =>
        obtain ⟨held, resized, -⟩ := rep.shrinkOnce (by omega) ran alive
        refine ⟨held, resized, fun ok => ?_⟩
        subst ok
        exact absurd ran (once shrunk)

theorem Represents.shrinkToLogSlots (ran : state.shrinkToLogSlots target = (shrunk, result))
    (alive : result ≠ .error .panic) :
    Represents hasher shrunk slots ∧ Resized state shrunk ∧
      (result = .ok () → shrunk.logSlots = target) := by
  unfold SegmentedFriState.shrinkToLogSlots at ran
  split at ran
  case isTrue =>
    obtain ⟨rfl, rfl⟩ := Prod.mk.inj ran
    exact ⟨rep, .refl _, fun ok => by cases ok⟩
  case isFalse valid => exact rep.shrinkLoop (by omega) (by omega) (by omega) ran alive

/-- With everything resident, a round fails only when the upper half holds a slot. -/
theorem Represents.shrinkOnce_ok (resident : state.evicted = [])
    (upper : ∀ index, 2 ^ (state.logSlots - 1) ≤ index → slots index = .empty) :
    state.shrinkOnce.2 = .ok () := by
  have flush (other : SegmentedFriState) (none : other.evicted = []) :
      other.flushAllDirty = some { other with dirty := [] } := by
    simp [flushAllDirty, isEvicted, none]
  have halved (other : SegmentedFriState) (none : other.evicted = []) :
      other.halveSole.2 = .ok () := by
    simp [SegmentedFriState.halveSole, flushAllDirty, isEvicted, none]
  simp only [SegmentedFriState.shrinkOnce, flush state resident]
  split
  case isTrue shallow =>
    have holds := rep.soleHolds shallow
    simp only [SegmentedFriState.shrinkSole, isEvicted, resident, List.not_mem_nil, decide_false,
      Bool.false_eq_true, if_false]
    split
    case h_1 => exact halved _ rfl
    case h_2 columns found =>
      obtain ⟨sized, reads, -⟩ := holds.resident columns found
      have clear : columns.upperIsEmpty (2 ^ (state.logSlots - 1)) = true := by
        refine SegmentColumns.upperIsEmpty_iff.mpr fun index high => ?_
        rcases Nat.lt_or_ge index (2 ^ state.logSlots) with low | beyond
        · rw [reads index low, upper index high]
        · exact sized.get_of_le beyond
      rw [if_pos clear]
      exact halved _ rfl
  case isFalse deep =>
    have deep : logSegmentSize < state.logSlots := Nat.lt_of_not_le deep
    have clear : (List.range' (state.numSegments / 2)
        (state.numSegments - state.numSegments / 2)).findSome?
        ({ state with dirty := [] } : SegmentedFriState).upperSegmentError = none := by
      refine List.findSome?_eq_none_iff.mpr fun id member => upperSegmentError_eq_none.mpr ⟨?_, ?_⟩
      · simp [resident]
      · obtain ⟨low, high⟩ := List.mem_range'_1.mp member
        have inside : id < state.numSegments := by omega
        refine (rep.segment id inside).live_eq.trans ?_
        rw [rep.half_count deep] at low
        have start : 2 ^ (state.logSlots - 1) ≤ id * 2 ^ state.effectiveLogSeg := by
          rw [rep.deep deep.le]
          calc 2 ^ (state.logSlots - 1)
              = 2 ^ (state.logSlots - 1 - logSegmentSize) * 2 ^ logSegmentSize := by
                rw [← Nat.pow_add, Nat.sub_add_cancel (by omega)]
            _ ≤ id * 2 ^ logSegmentSize := Nat.mul_le_mul_right _ low
        refine Finset.sum_eq_zero fun index _ => ?_
        rw [segmentSlots, upper _ (start.trans (Nat.le_add_right _ _)), occupied_empty]
    simp only [SegmentedFriState.shrinkHalf, clear]

/-- With everything resident, a vector that is empty from the target on can be cut to it. -/
theorem Represents.shrinkToLogSlots_ok (pos : 1 ≤ target) (low : target ≤ state.logSlots)
    (resident : state.evicted = []) (upper : ∀ index, 2 ^ target ≤ index → slots index = .empty) :
    (state.shrinkToLogSlots target).2 = .ok () := by
  have loop (fuel : Nat) : ∀ {state : SegmentedFriState}, Represents hasher state slots →
      target ≤ state.logSlots → state.evicted = [] →
      (state.shrinkLoop target fuel).2 = .ok () := by
    induction fuel with
    | zero => intros; rfl
    | succ fuel ih =>
      intro state rep low resident
      rw [SegmentedFriState.shrinkLoop]
      split
      case isFalse => rfl
      case isTrue deeper =>
        have once := rep.shrinkOnce_ok resident fun index high =>
          upper index ((Nat.pow_le_pow_right (by omega) (by omega)).trans high)
        rcases ran : state.shrinkOnce with ⟨next, result⟩
        rw [ran] at once
        obtain rfl : result = .ok () := once
        obtain ⟨held, resized, log⟩ := rep.shrinkOnce (by omega) ran (by simp)
        have := log rfl
        exact ih held (by omega) (resized.evicted_eq_nil resident)
  rw [SegmentedFriState.shrinkToLogSlots, if_neg (by omega)]
  exact loop _ rep low resident

end

end Shrinking

end SegmentedFriState

end ParanoidChain
