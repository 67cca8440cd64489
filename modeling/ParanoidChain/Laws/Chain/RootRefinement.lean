import ParanoidChain.Laws.Chain.State

/-!
# The cached root refines the plain tree

`StoreRun` is a run of the store's maintenance operations from an empty state: writes, evictions and
restores, growing, shrinking and roots, in any order. It carries the slot vector that the writes
describe, in which an evicted segment keeps what it held when it left memory.

In a careful run no write goes to an evicted segment, and whenever the domain grows the cache holds
no stale root for the segments it gains (`UpperEmpty`). Careful runs are sound, so every root they
return is the plain root of the vector, and the second condition cannot be weakened
(`tryStateRoot_refines`). Without it a segment root of a discarded half comes back to life, and
without the first what an evicted segment held is lost (`careless_roots_stale`).
-/

namespace ParanoidChain

open Lib Lib.Merkle

namespace ChainState

/-- One maintenance operation on a state that holds a vector, with the state and the vector it leaves.
The flags say whether writes keep off the evicted segments and whether the domain grows under
`UpperEmpty` only. -/
inductive StoreStep (hasher : StateHasher) (writesResident growsEmpty : Bool) (chain : ChainState)
    (slots : Nat → SlotValue) : ChainState → (Nat → SlotValue) → Prop
  /-- A batch of slot writes. -/
  | delta {deltas : List (Nat × SlotValue)} {state : SegmentedFriState}
      (applied : chain.state.applyDeltaUnrooted hasher deltas = .ok state)
      (resident : writesResident = true →
        ∀ write ∈ deltas, chain.state.segIdOf write.1 ∉ chain.state.evicted) :
      StoreStep hasher writesResident growsEmpty chain slots { chain with state }
        (overlay slots deltas)
  /-- One segment leaves memory. -/
  | evict {segId : Nat} (inside : segId < chain.state.numSegments) :
      StoreStep hasher writesResident growsEmpty chain slots
        { chain with state := chain.state.evictSegment segId } slots
  /-- The contents of a segment are put back without a check. -/
  | restoreStore {segId : Nat} {columns : SegmentColumns}
      (inside : segId < chain.state.numSegments) (matching : chain.Matching slots segId columns) :
      StoreStep hasher writesResident growsEmpty chain slots
        { chain with state := chain.state.restoreEvictedSegment segId columns } slots
  /-- The contents of a segment are put back under the retained root. -/
  | restore {segId : Nat} {columns : SegmentColumns} {restored : ChainState}
      (inside : segId < chain.state.numSegments) (matching : chain.Matching slots segId columns)
      (done : chain.restoreEvictedSegment hasher segId columns = .ok restored) :
      StoreStep hasher writesResident growsEmpty chain slots restored slots
  /-- The domain grows by one level. -/
  | expand {grown : ChainState} (regrow : growsEmpty = true → UpperEmpty hasher chain)
      (expanded : chain.expandOne hasher = some grown) :
      StoreStep hasher writesResident growsEmpty chain slots grown slots
  /-- The domain shrinks, as far as the upper halves are empty. -/
  | shrink {target : Nat} {state : SegmentedFriState}
      {result : Except (Fault StateResizeError) Unit}
      (ran : chain.state.shrinkToLogSlots target = (state, result))
      (alive : result ≠ .error .panic) :
      StoreStep hasher writesResident growsEmpty chain slots { chain with state } slots
  /-- The root is asked for, with or without success. -/
  | root : StoreStep hasher writesResident growsEmpty chain slots (chain.tryStateRoot hasher).1 slots
  /-- A hash set is iterated in whatever order. -/
  | reorder {exactDirty : List Nat} (same : exactDirty.Perm chain.state.exactDirty) :
      StoreStep hasher writesResident growsEmpty chain slots
        { chain with state := { chain.state with exactDirty } } slots

/-- A run of maintenance operations from an empty state, with the vector its writes describe. -/
inductive StoreRun (hasher : StateHasher) (writesResident growsEmpty : Bool) (logSlots : Nat) :
    ChainState → (Nat → SlotValue) → Prop
  | start {chain : ChainState} (built : withLogSlots hasher logSlots = some chain) :
      StoreRun hasher writesResident growsEmpty logSlots chain fun _ => .empty
  | step {chain after : ChainState} {slots later : Nat → SlotValue}
      (run : StoreRun hasher writesResident growsEmpty logSlots chain slots)
      (step : StoreStep hasher writesResident growsEmpty chain slots after later) :
      StoreRun hasher writesResident growsEmpty logSlots after later

/-- A careful operation keeps the root hierarchy sound. -/
theorem StoreStep.sound {hasher : StateHasher} {chain after : ChainState}
    {slots later : Nat → SlotValue} (step : StoreStep hasher true true chain slots after later)
    (sound : Sound hasher chain slots) : Sound hasher after later := by
  cases step with
  | delta applied resident => exact (sound.applyDelta applied (resident rfl)).1
  | evict inside => exact sound.evictSegment inside
  | restoreStore inside matching => exact sound.restoreStore inside matching
  | restore inside matching done => exact sound.restoreEvictedSegment done inside matching
  | expand regrow expanded => exact sound.expandOne (regrow rfl) expanded
  | shrink ran alive =>
    obtain ⟨rep, resized, -⟩ := sound.rep.shrinkToLogSlots ran alive
    exact sound.of_resized rep resized
  | root => exact sound.tryStateRoot.sound
  | reorder same =>
    exact sound.of_residency (sound.rep.congr rfl rfl rfl rfl rfl rfl rfl) rfl fun _ => same.mem_iff

/-- So does a careful run. -/
theorem StoreRun.sound {hasher : StateHasher} {logSlots : Nat} {chain : ChainState}
    {slots : Nat → SlotValue} (run : StoreRun hasher true true logSlots chain slots) :
    Sound hasher chain slots := by
  induction run with
  | start built => exact (withLogSlots_sound built).1
  | step _ step ih => exact step.sound ih

/-- If a state grows and its root is the plain one, the roots it grew over were empty, or the two
trees collide. -/
theorem Sound.upperEmpty_of_root {hasher : StateHasher} {chain grown : ChainState}
    {slots : Nat → SlotValue} {root : Digest} (sound : Sound hasher chain slots)
    (expanded : chain.expandOne hasher = some grown)
    (ok : (grown.tryStateRoot hasher).2 = .ok root)
    (plain : root = plainRoot hasher slots grown.state.logSlots) :
    UpperEmpty hasher chain ∨ Collide hasher.stateNodeHash
      (grown.tryStateRoot hasher).1.exactRoots.leaf (subtreeRoot hasher slots logSegmentSize)
      (grown.state.logSlots - logSegmentSize) := by
  obtain ⟨rep, log, -, roots, -, deep, -⟩ := expandOne_spec sound.rep expanded
  refine or_iff_not_imp_right.mpr ?_
  intro free high id low new held
  have depth_le := sound.depth_le
  have stateLog : chain.state.effectiveLogSeg = logSegmentSize := by
    rw [sound.rep.segmentLog_eq]
    omega
  obtain ⟨wf, depth, -, added⟩ := sound.roots.expandOne
  obtain ⟨-, -, kept, -⟩ := added (high.trans depth_le)
  rw [← roots] at wf depth kept
  have grownLog : grown.state.effectiveLogSeg = logSegmentSize := by
    rw [rep.segmentLog_eq]
    omega
  have count : grown.state.numSegments = 2 ^ (grown.state.logSlots - logSegmentSize) := by
    rw [rep.numSegments_eq, grownLog]
  have double : grown.state.numSegments = 2 * chain.state.numSegments := by
    rw [count, sound.rep.numSegments_eq, stateLog, ← Nat.pow_succ']
    congr 1
    omega
  have within : ∀ id ∈ grown.state.exactDirty, id < chain.state.numSegments := by
    intro id member
    exact sound.dirty_lt id ((deep high id).mp member)
  obtain ⟨upper, same⟩ := (tryStateRoot_leaves rep wf (by omega)
    (fun id member => (within id member).trans_le (by omega)) (by omega)).2 root ok
  have folded : plainRoot hasher slots grown.state.logSlots = subRoot hasher.stateNodeHash
      (subtreeRoot hasher slots logSegmentSize) (grown.state.logSlots - logSegmentSize) 0 := by
    calc plainRoot hasher slots grown.state.logSlots
        = subtreeRoot hasher slots
            (grown.state.logSlots - logSegmentSize + logSegmentSize) 0 := by
          rw [Nat.sub_add_cancel (by omega), plainRoot]
      _ = subRoot hasher.stateNodeHash (subtreeRoot hasher slots logSegmentSize)
            (grown.state.logSlots - logSegmentSize) 0 :=
          (subRoot_split (leafVector hasher slots) logSegmentSize _ 0).symm
  have leaf := (leaf_eq_or_collide (upper.symm.trans (plain.trans folded)) id
    (Nat.div_eq_of_lt (by omega))).resolve_right free
  calc chain.exactRoots.leaf id
      = grown.exactRoots.leaf id := (kept id held).symm
    _ = (grown.tryStateRoot hasher).1.exactRoots.leaf id :=
        (same id (by omega) fun member => (within id member).not_ge new).symm
    _ = subtreeRoot hasher slots logSegmentSize id := leaf
    _ = hasher.zeroSlotRoot logSegmentSize := by
        apply subtreeRoot_upper sound.rep
        rw [← sound.rep.size_eq, stateLog]
        exact Nat.mul_le_mul_right _ new

/-- After any careful run, a root that is returned is the plain root of the slot vector, which every
resident slot reads from, and asking again returns the same root. If the domain then grows by a
level and the root is still the plain one, it grew under `UpperEmpty` or the trees collide. -/
theorem tryStateRoot_refines (hasher : StateHasher) (logSlots : Nat) (chain : ChainState)
    (slots : Nat → SlotValue) (run : StoreRun hasher true true logSlots chain slots) :
    (∀ root, (chain.tryStateRoot hasher).2 = .ok root →
      root = plainRoot hasher slots chain.state.logSlots ∧
        (∀ index < 2 ^ chain.state.logSlots, chain.state.segIdOf index ∉ chain.state.evicted →
          chain.state.slot index = slots index) ∧
        (∀ index, 2 ^ chain.state.logSlots ≤ index → slots index = .empty) ∧
        ((chain.tryStateRoot hasher).1.tryStateRoot hasher).2 = .ok root) ∧
    ∀ grown root, chain.expandOne hasher = some grown → (grown.tryStateRoot hasher).2 = .ok root →
      root = plainRoot hasher slots grown.state.logSlots →
      UpperEmpty hasher chain ∨ Collide hasher.stateNodeHash
        (grown.tryStateRoot hasher).1.exactRoots.leaf (subtreeRoot hasher slots logSegmentSize)
        (grown.state.logSlots - logSegmentSize) := by
  have sound := run.sound
  constructor
  · intro root ok
    have rooted := sound.tryStateRoot
    obtain ⟨plain, -, clean⟩ := rooted.ok root ok
    refine ⟨plain, fun index inside present => sound.rep.slot_eq inside present, sound.rep.beyond,
      ?_⟩
    -- nothing is dirty any more, so the second call cannot fail
    have again := rooted.sound.tryStateRoot
    obtain ⟨second, succeeded⟩ := again.succeeds fun id member => by simp [clean] at member
    rw [succeeded, (again.ok second succeeded).1, rooted.logSlots_eq, plain]
  · intro grown root expanded ok plain
    exact sound.upperEmpty_of_root expanded ok plain

/-- Two slots written to an empty state and sealed. -/
def twoSlots : Option ChainState := do
  let empty ← withLogSlots .sample 1
  let state ← (empty.state.applyDeltaUnrooted .sample [(0, ⟨5, 0, 1⟩), (1, ⟨6, 0, 2⟩)]).toOption
  return ({ empty with state }.tryStateRoot .sample).1

theorem twoSlots_run {chain : ChainState} (built : twoSlots = some chain)
    (writesResident growsEmpty : Bool) :
    StoreRun .sample writesResident growsEmpty 1 chain
      (overlay (fun _ => .empty) [(0, ⟨5, 0, 1⟩), (1, ⟨6, 0, 2⟩)]) := by
  simp only [twoSlots, bind_eq_some, toOption_eq_some, pure_eq_some] at built
  obtain ⟨empty, started, state, wrote, rfl⟩ := built
  obtain ⟨-, -, -, none, -⟩ := withLogSlots_sound started
  exact ((StoreRun.start started).step (.delta wrote (by simp [none]))).step .root

/-- A careful run: two slots are written, sealed, evicted and restored; the domain grows, a slot of
the new half is written and spent; the domain shrinks and grows again under the deeper cache. -/
theorem tryStateRoot_refines_regrown : ∃ chain slots root,
    StoreRun .sample true true 1 chain slots ∧
      chain.exactRoots.logSlots = 3 ∧ chain.state.logSlots = 2 ∧
      slots 1 = ⟨6, 0, 2⟩ ∧ slots 2 = .empty ∧ (chain.tryStateRoot .sample).2 = .ok root ∧
      root = plainRoot .sample slots chain.state.logSlots := by
  let columns : SegmentColumns := ⟨[5, 6], [0, 0], [1, 2]⟩
  have ran : (twoSlots.any fun rooted =>
      let gone := rooted.state.evictSegment 0
      let back := gone.restoreEvictedSegment 0 columns
      (({ rooted with state := back } : ChainState).expandOne .sample).any fun grown =>
      (grown.state.applyDeltaUnrooted .sample [(2, ⟨7, 0, 3⟩)]).toOption.any fun filled =>
      (filled.applyDeltaUnrooted .sample [(2, .empty)]).toOption.any fun spent =>
      (spent.shrinkToLogSlots 1).2.toOption.any fun _ =>
      let shrunk : ChainState := { grown with state := (spent.shrinkToLogSlots 1).1 }
      (shrunk.expandOne .sample).any fun again =>
      (again.tryStateRoot .sample).2.toOption.any fun _ =>
        decide (0 < rooted.state.numSegments ∧ 0 < gone.numSegments ∧
          gone.effectiveLogSeg = 1 ∧ back.logSlots < logSegmentSize ∧
          grown.state.evicted = [] ∧ filled.evicted = [] ∧
          shrunk.state.logSlots < logSegmentSize ∧
          again.exactRoots.logSlots = 3 ∧ again.state.logSlots = 2)) = true := by
    decide +kernel
  simp only [Option.any_eq_true, decide_eq_true_eq, toOption_eq_some] at ran
  obtain ⟨rooted, built, grown, expanded, filled, fill, spent, spend, _, shrunk, again, regrown, root,
    ok, inside, present, size, shallow, resident, resident', shallow', cache, depth⟩ := ran
  have restored := ((twoSlots_run built true true).step (.evict inside)).step
    (@StoreStep.restoreStore _ _ _ _ _ _ columns present ?_)
  · have deeper := restored.step (.expand (fun _ deep => absurd deep shallow.not_ge) expanded)
    have cleared := (deeper.step (.delta fill (by simp [resident]))).step
      (.delta spend (by simp [resident']))
    have halved : spent.shrinkToLogSlots 1 = ((spent.shrinkToLogSlots 1).1, .ok ()) :=
      Prod.ext rfl shrunk
    have cut := cleared.step (.shrink halved (by simp))
    have run := cut.step (.expand (fun _ deep => absurd deep shallow'.not_ge) regrown)
    exact ⟨again, _, root, run, cache, depth, by simp [overlay_cons], by simp [overlay_cons], ok,
      ((tryStateRoot_refines _ _ _ _ run).1 root ok).1⟩
  · -- the columns are what the writes left there
    simp only [Matching, size]
    refine ⟨⟨rfl, rfl, rfl⟩, ?_⟩
    decide

/-- A run that ends in a state whose root is not the plain one. -/
def Stale (hasher : StateHasher) (writesResident growsEmpty : Bool) (logSlots : Nat)
    (chain : ChainState) (slots : Nat → SlotValue) : Prop :=
  StoreRun hasher writesResident growsEmpty logSlots chain slots ∧
    ∃ root, (chain.tryStateRoot hasher).2 = .ok root ∧
      root ≠ plainRoot hasher slots chain.state.logSlots

/-- Hash functions under which the root of a tree is its last leaf. -/
def lastLeafHasher : StateHasher := ⟨fun slot => slot.value.setWidth 256, fun _ right => right⟩

theorem subtreeRoot_lastLeaf (slots : Nat → SlotValue) :
    ∀ level index, subtreeRoot lastLeafHasher slots level index =
      (slots ((index + 1) * 2 ^ level - 1)).value.setWidth 256
  | 0, index => by simp [subtreeRoot, leafVector, lastLeafHasher]
  | level + 1, index => by
    have last : (2 * index + 1 + 1) * 2 ^ level = (index + 1) * 2 ^ (level + 1) := by
      rw [Nat.pow_succ']
      ring
    exact (subtreeRoot_lastLeaf slots level (2 * index + 1)).trans (by rw [last])

/-- A slot in the last place of a domain of two segments, written and sealed. -/
theorem exists_sealed : ∃ chain, StoreRun lastLeafHasher true false 17 chain
      (overlay (fun _ => .empty) [(131071, ⟨1, 0, 0⟩)]) ∧
    Sound lastLeafHasher chain (overlay (fun _ => .empty) [(131071, ⟨1, 0, 0⟩)]) ∧
    chain.state.logSlots = 17 ∧ chain.exactRoots.logSlots = 17 ∧ chain.state.evicted = [] ∧
    chain.exactRoots.leaf 1 = 1 := by
  obtain ⟨first, built⟩ : ∃ chain, withLogSlots lastLeafHasher 17 = some chain := ⟨_, rfl⟩
  obtain ⟨sound, log, -, resident, -⟩ := withLogSlots_sound built
  obtain ⟨state, applied⟩ : ∃ state,
      first.state.applyDeltaUnrooted lastLeafHasher [(131071, ⟨1, 0, 0⟩)] = .ok state :=
    ⟨_, SegmentedFriState.applyDeltaUnrooted_eq_ok.mpr ⟨by simp [log], rfl⟩⟩
  obtain ⟨written, wrote⟩ := sound.applyDelta applied (by simp [resident])
  have rooted := written.tryStateRoot
  have none := wrote.evicted_eq_nil resident
  obtain ⟨root, ok⟩ := rooted.succeeds fun id _ => by simp [none]
  have stateLog : state.logSlots = 17 := wrote.logSlots_eq.trans log
  have chainLog := rooted.logSlots_eq.trans stateLog
  have segmentLog := rooted.sound.rep.segmentLog_eq
  rw [chainLog] at segmentLog
  have two : 1 < ((({ first with state } : ChainState).tryStateRoot
      lastLeafHasher).1).state.numSegments := by
    rw [rooted.sound.rep.numSegments_eq, segmentLog, chainLog]
    decide
  have leaf := (rooted.sound.fresh 1 two (by simp [(rooted.ok root ok).2.2])).2
  refine ⟨_, ((StoreRun.start built).step (.delta applied (by simp [resident]))).step .root,
    rooted.sound, chainLog, rooted.depth_eq.trans chainLog, rooted.evicted_eq.trans none, leaf.trans ?_⟩
  rw [subtreeRoot_lastLeaf, segmentLog]
  decide

/-- The sealed slot is spent; the domain is shrunk to one segment and grown again. Every slot is
empty, but the root is the one of the sealed slot: the cache was never cut, so the root of the spent
segment is back. -/
theorem regrown_root_stale : ∃ chain slots, Stale lastLeafHasher true false 17 chain slots ∧
    chain.state.logSlots = 17 ∧ (∀ index, slots index = .empty) ∧
      ∀ index < 2 ^ 17, chain.state.slot index = .empty := by
  obtain ⟨chain, run, sound, log, depth, resident, leaf⟩ := exists_sealed
  -- the slot is spent
  obtain ⟨state, applied⟩ : ∃ state,
      chain.state.applyDeltaUnrooted lastLeafHasher [(131071, .empty)] = .ok state :=
    ⟨_, SegmentedFriState.applyDeltaUnrooted_eq_ok.mpr ⟨by simp [log], rfl⟩⟩
  have run := run.step (.delta applied (by simp [resident]))
  obtain ⟨spent, wrote⟩ := sound.applyDelta applied (by simp [resident])
  have empty : overlay (overlay (fun _ => .empty) [(131071, ⟨1, 0, 0⟩)])
      [(131071, SlotValue.empty)] = fun _ => .empty := by
    funext index
    by_cases here : index = 131071 <;> simp [overlay_cons, here]
  rw [empty] at run spent
  have spentLog : state.logSlots = 17 := wrote.logSlots_eq.trans log
  -- the domain is cut to one segment
  rcases ran : state.shrinkToLogSlots 16 with ⟨shrunk, result⟩
  obtain rfl : result = .ok () := by
    have cut : (state.shrinkToLogSlots 16).2 = .ok () := spent.rep.shrinkToLogSlots_ok (by decide)
      (by simp [spentLog]) (wrote.evicted_eq_nil resident) fun _ _ => rfl
    rwa [ran] at cut
  obtain ⟨rep, resized, shrunkLog⟩ := spent.rep.shrinkToLogSlots ran (by simp)
  have run := run.step (.shrink ran (by simp))
  have cut := spent.of_resized rep resized
  have none := resized.evicted_eq_nil (wrote.evicted_eq_nil resident)
  -- and grown again
  have reached := shrunkLog rfl
  obtain ⟨state, stepped⟩ : ∃ grown, shrunk.expand = some grown := by
    simp [SegmentedFriState.expand, reached, logSegmentSize]
  obtain ⟨grown, expanded⟩ : ∃ grown,
      ({ chain with state := shrunk } : ChainState).expandOne lastLeafHasher = some grown := by
    simp [ChainState.expandOne, stepped]
  obtain ⟨rep, grownLog, evicted, roots, -, deep, -⟩ := expandOne_spec rep expanded
  simp only [reached] at grownLog deep
  have single : shrunk.numSegments = 1 := (cut.rep.sole (by rw [reached]; decide)).2
  have two : grown.state.numSegments = 2 := by
    rw [rep.numSegments_eq, rep.segmentLog_eq, grownLog]
    rfl
  have marked : ∀ id ∈ grown.state.exactDirty, id < 1 := by
    intro id member
    have := cut.dirty_lt id ((deep (by decide) id).mp member)
    simpa only [single] using this
  obtain ⟨wf, rootsLog, -, added⟩ := sound.roots.expandOne
  have stale : grown.exactRoots.leaf 1 = 1 := by
    rw [roots]
    refine ((added (by rw [depth]; decide)).2.2.1 1 ?_).trans leaf
    rw [sound.roots.length_eq, sound.roots.segmentLog_eq, depth]
    decide
  rw [depth] at rootsLog
  obtain ⟨succeeds, keeps⟩ := tryStateRoot_leaves rep (roots ▸ wf)
    (by rw [roots, rootsLog, grownLog]; decide)
    (fun id member => (marked id member).trans (by omega)) (by rw [grownLog]; decide)
  have empty : grown.state.evicted = [] := evicted.trans none
  obtain ⟨root, ok⟩ := succeeds (by simp [empty])
  obtain ⟨upper, kept⟩ := keeps root ok
  have last : root = 1 := by
    have := (kept 1 (by omega) fun member => absurd (marked 1 member) (by decide)).trans stale
    rw [upper, grownLog]
    exact this
  refine ⟨grown, _, ⟨run.step (.expand (by simp) expanded), root, ok, ?_⟩, grownLog, fun _ => rfl,
    fun index inside => rep.slot_eq (by rwa [grownLog]) (by simp [empty])⟩
  rw [last, plainRoot, subtreeRoot_lastLeaf]
  decide

/-- Two slots are written and sealed and their segment leaves memory. A write to one of them then
takes the segment for empty, so the root lacks the other. -/
theorem evicted_write_lost : ∃ chain slots, Stale .sample false true 1 chain slots ∧
    chain.state.evicted = [] ∧ slots 1 = ⟨6, 0, 2⟩ ∧ chain.state.slot 1 = SlotValue.empty := by
  have ran : (twoSlots.any fun rooted =>
      ((rooted.state.evictSegment 0).applyDeltaUnrooted .sample [(0, ⟨7, 0, 3⟩)]).toOption.any
        fun written =>
      ({ rooted with state := written }.tryStateRoot .sample).2.toOption.any fun root =>
        decide (0 < rooted.state.numSegments ∧ written.evicted = [] ∧ written.slot 1 = SlotValue.empty ∧
          root ≠ plainRoot .sample (overlay (overlay (fun _ => SlotValue.empty)
            [(0, ⟨5, 0, 1⟩), (1, ⟨6, 0, 2⟩)]) [(0, ⟨7, 0, 3⟩)]) written.logSlots)) = true := by
    decide +kernel
  simp only [Option.any_eq_true, decide_eq_true_eq, toOption_eq_some] at ran
  obtain ⟨rooted, built, written, overwrote, root, ok, inside, resident, lost, apart⟩ := ran
  have run := ((twoSlots_run built false true).step (.evict inside)).step
    (.delta overwrote (by simp))
  exact ⟨_, _, ⟨run, root, ok, apart⟩, resident, by simp [overlay_cons], lost⟩

/-- Runs that are careless in one way only, whose root is not that of the slot vector. -/
theorem careless_roots_stale :
    (∃ chain slots, Stale lastLeafHasher true false 17 chain slots ∧ chain.state.logSlots = 17 ∧
      (∀ index, slots index = .empty) ∧ ∀ index < 2 ^ 17, chain.state.slot index = .empty) ∧
    ∃ chain slots, Stale .sample false true 1 chain slots ∧ chain.state.evicted = [] ∧
      slots 1 = ⟨6, 0, 2⟩ ∧ chain.state.slot 1 = SlotValue.empty :=
  ⟨regrown_root_stale, evicted_write_lost⟩

end ChainState

end ParanoidChain
