import ParanoidChain.Chain.FrontierCapacity
import ParanoidChain.Laws.Chain.SparseMerkle
import ParanoidChain.Lib.Spread
import Mathlib.Data.Finset.Sort

/-!
# Frontier capacity is sound and tight

A pair of a level with one known child costs a sibling, so the siblings of a set of leaves are what
two children per known parent leave over: `siblingCount_add`. The size of a frontier is therefore a
sum of level counts, the bound of `Lib.Spread` is a bound on it, and the spread leaves reach it. The
closed forms of the code are those sums.
-/

namespace ParanoidChain

open Lib Lib.Multiproof Lib.Spread

/-! ## The size of a frontier -/

/-- The known children of an even base are among two. -/
theorem filter_pair_eq {known : Finset Nat} {base : Nat} (even : 2 * (base / 2) = base) :
    {pos ∈ known | pos / 2 * 2 = base} = {pos ∈ ({base, base + 1} : Finset Nat) | pos ∈ known} := by
  ext pos
  simp only [Finset.mem_filter, Finset.mem_insert, Finset.mem_singleton]
  constructor
  · rintro ⟨found, rfl⟩
    exact ⟨by omega, found⟩
  · rintro ⟨here, found⟩
    exact ⟨found, by omega⟩

/-- Known children and missing siblings are two for every pair. -/
theorem siblingLevel_add {known : List Nat} (nodup : known.Nodup) :
    (siblingLevel known).1 + known.length = 2 * (parents known).length := by
  have bases : (parentBases known).Nodup := List.nodup_dedup _
  have image : (parentBases known).toFinset = known.toFinset.image fun pos => pos / 2 * 2 := by
    ext base
    simp [mem_parentBases]
  have missing : (siblingLevel known).1 = ∑ base ∈ (parentBases known).toFinset,
      if decide (base ∈ known) != decide (base + 1 ∈ known) then 1 else 0 := by
    rw [← Finset.card_filter, ← List.toFinset_filter,
      List.toFinset_card_of_nodup (bases.filter _), ← List.countP_eq_length_filter]
    rfl
  have children : known.length = ∑ base ∈ (parentBases known).toFinset,
      ((if base ∈ known then 1 else 0) + if base + 1 ∈ known then 1 else 0) := by
    rw [← List.toFinset_card_of_nodup nodup,
      Finset.card_eq_sum_card_image (fun pos => pos / 2 * 2), ← image]
    refine Finset.sum_congr rfl fun base member => ?_
    rw [filter_pair_eq (parentBases_even (List.mem_toFinset.mp member)), Finset.card_filter,
      Finset.sum_pair (by omega)]
    simp only [List.mem_toFinset]
  rw [missing, children, ← Finset.sum_add_distrib, parents, List.length_map,
    ← List.toFinset_card_of_nodup bases, Nat.mul_comm]
  refine Finset.sum_const_nat fun base member => ?_
  rcases known_of_mem_parentBases (List.mem_toFinset.mp member) with left | right
  · by_cases right : base + 1 ∈ known <;> simp [left, right]
  · by_cases left : base ∈ known <;> simp [left, right]

/-- The positions of a level, counted. -/
theorem length_level_eq {touched known : List Nat} {level : Nat}
    (held : Lib.Multiproof.Level touched level known) :
    known.length = levelCount touched.toFinset level := by
  have nodup : known.Nodup := held.sorted.nodup
  rw [levelCount, ← List.toFinset_card_of_nodup nodup]
  congr 1
  ext pos
  simp [held.mem_iff, Above]

/-- Over the levels of a walk, siblings and leaves are counted by the positions passed. -/
theorem siblingCount_add {touched : List Nat} :
    ∀ (remaining level : Nat) {known : List Nat}, Lib.Multiproof.Level touched level known →
      siblingCount remaining known + 2 * known.length =
        ∑ j ∈ Finset.range (remaining + 1), levelCount touched.toFinset (level + j) +
          levelCount touched.toFinset (level + remaining)
  | 0, level, known, held => by
    rw [siblingCount, length_level_eq held]
    simp
    omega
  | remaining + 1, level, known, held => by
    have nodup : known.Nodup := held.sorted.nodup
    have here := siblingLevel_add nodup
    have above := siblingCount_add remaining (level + 1) held.next
    have next : (siblingLevel known).2 = parents known := rfl
    rw [siblingCount, next, Finset.sum_range_succ' _ (remaining + 1), Nat.add_zero level,
      ← length_level_eq held]
    simp only [Nat.add_assoc, Nat.add_comm 1] at above ⊢
    omega

variable {indices : List Nat}

/-- The size of the frontier of a set of leaves. -/
theorem expectedSiblingCount_add {depth count : Nat}
    (ok : expectedSiblingCount indices depth = .ok count) :
    count + 2 * indices.length = pathNodes indices.toFinset depth + 1 := by
  simp only [expectedSiblingCount, bind_eq_ok, validateIndices_eq_ok, pure_eq_ok] at ok
  obtain ⟨-, valid, rfl⟩ := ok
  have start := Lib.Multiproof.Level.start valid.sorted
  have counted := siblingCount_add depth 0 start
  have root : levelCount indices.toFinset depth = 1 := by
    refine Finset.card_eq_one.mpr ⟨0, Finset.eq_singleton_iff_nonempty_unique_mem.mpr ⟨?_, ?_⟩⟩
    · simpa using valid.nonempty
    · intro pos member
      obtain ⟨leaf, found, rfl⟩ := Finset.mem_image.mp member
      exact Nat.div_eq_of_lt (valid.inside leaf (List.mem_toFinset.mp found))
  rw [Nat.zero_add, root] at counted
  simpa [pathNodes] using counted

/-! ## The closed forms -/

/-- The loop finds the least covering power. -/
theorem coverLoop_eq {touched : Nat} (small : touched ≤ 2 ^ 32) :
    ∀ (fuel depth : Nat), depth ≤ Nat.clog 2 touched → Nat.clog 2 touched < depth + fuel →
      coverLoop touched fuel (2 ^ depth) depth =
        some (2 ^ Nat.clog 2 touched, Nat.clog 2 touched)
  | 0, depth, low, enough => by omega
  | fuel + 1, depth, low, enough => by
    have shallow := Nat.clog_le_of_le_pow small
    rw [coverLoop]
    split
    case isTrue uncovered =>
      have below := (Nat.lt_clog_iff_pow_lt one_lt_two).mpr uncovered
      have power : 2 ^ (depth + 1) ≤ 2 ^ 32 := Nat.pow_le_pow_right two_pos (by omega)
      rw [mulInType_eq (by rw [← Nat.pow_succ]; omega), Option.bind_eq_bind, Option.bind_some,
        addInType_eq (by omega), Option.bind_some, ← Nat.pow_succ]
      exact coverLoop_eq small fuel (depth + 1) below (by omega)
    case isFalse covered =>
      have same : depth = Nat.clog 2 touched :=
        le_antisymm low (Nat.clog_le_of_le_pow (not_lt.mp covered))
      rw [← same]

/-- `maximum_sibling_count` is the frontier of evenly spread leaves. -/
theorem maximumSiblingCount_eq {touched depth : Nat} (shallow : depth ≤ 32) (some : 1 ≤ touched)
    (fits : touched ≤ 2 ^ depth) :
    maximumSiblingCount touched depth = .some (evenNodes touched depth + 1 - 2 * touched) := by
  have domain : 2 ^ depth ≤ 2 ^ 32 := Nat.pow_le_pow_right two_pos shallow
  have low := Nat.clog_le_of_le_pow fits
  have power : 2 ^ Nat.clog 2 touched ≤ 2 ^ 32 := Nat.pow_le_pow_right two_pos (by omega)
  have cover := Nat.le_pow_clog one_lt_two touched
  have paths : (depth - Nat.clog 2 touched) * touched ≤ 32 * 2 ^ 32 :=
    Nat.mul_le_mul (by omega) (by omega)
  have closed := evenNodes_eq fits
  rw [Nat.succ_mul] at closed
  have loop := coverLoop_eq (fits.trans domain) 65 0 (Nat.zero_le _) (by omega)
  rw [Nat.pow_zero] at loop
  simp only [maximumSiblingCount, bind_eq_some, guard_eq_some]
  refine ⟨(), shallow, ?_⟩
  rw [if_neg (by omega)]
  simp only [bind_eq_some, guard_eq_some]
  refine ⟨(), fits, (2 ^ Nat.clog 2 touched, Nat.clog 2 touched), loop,
    depth - Nat.clog 2 touched, subInType_eq low, (depth - Nat.clog 2 touched) * touched,
    mulInType_eq (by omega), (depth - Nat.clog 2 touched) * touched + 2 ^ Nat.clog 2 touched,
    addInType_eq (by omega), ?_⟩
  rw [subInType_eq (by omega)]
  congr 1
  omega

theorem room_iff {touched used capacity : Nat} (pos : 0 < used) :
    (touched / used ≤ capacity ∧ (touched % used = 0 ∨ touched / used + 1 ≤ capacity)) ↔
      touched ≤ used * capacity := by
  have split := Nat.div_add_mod touched used
  have small := Nat.mod_lt touched pos
  constructor
  · rintro ⟨whole, none | next⟩
    · have := Nat.mul_le_mul_left used whole
      omega
    · have := Nat.mul_le_mul_left used next
      rw [Nat.mul_succ] at this
      omega
  · intro fits
    refine ⟨Nat.div_le_of_le_mul fits, ?_⟩
    by_contra neither
    rw [not_or, not_le] at neither
    have := Nat.mul_le_mul_left used (show capacity ≤ touched / used by omega)
    omega

theorem spreadNodes_le {count used lower upper : Nat} (enough : used ≤ count) :
    spreadNodes count used lower upper ≤ (lower + upper + 1) * count := by
  have inner : ∑ j ∈ Finset.range lower, min count (used * 2 ^ (j + 1)) ≤ lower * count :=
    (Finset.sum_le_card_nsmul _ _ _ fun j _ => Nat.min_le_left _ _).trans (by simp)
  have outer : ∑ j ∈ Finset.range (upper + 1), min used (2 ^ j) ≤ (upper + 1) * count :=
    (Finset.sum_le_card_nsmul _ _ _ fun j _ => (Nat.min_le_left _ _).trans enough).trans (by simp)
  rw [spreadNodes, Nat.add_assoc, Nat.add_mul]
  exact Nat.add_le_add inner outer

/-- Local frontiers of balanced shares and the frontier above them. -/
theorem balanced_total (lower upper : Nat) {used quotient remainder less more above : Nat}
    (small : remainder < used) (enough : used ≤ used * quotient + remainder)
    (lesser : less + 2 * quotient = evenNodes quotient lower + 1)
    (larger : remainder * (more + 2 * (quotient + 1)) =
      remainder * (evenNodes (quotient + 1) lower + 1))
    (top : above + 2 * used = evenNodes used upper + 1) :
    (used - remainder) * less + remainder * more + above + 2 * (used * quotient + remainder) =
      spreadNodes (used * quotient + remainder) used lower upper + 1 := by
  have shares := evenNodes_balanced small quotient lower
  have whole := spreadNodes_add enough lower upper
  obtain ⟨others, rfl⟩ := Nat.exists_eq_add_of_lt small
  have rest : remainder + others + 1 - remainder = others + 1 := by omega
  have first : (others + 1) * (less + 2 * quotient) =
      (others + 1) * (evenNodes quotient lower + 1) := congrArg _ lesser
  rw [rest] at shares ⊢
  rw [← shares] at whole
  linarith

theorem largerSegmentsCount_eq {remainder quotient lower : Nat} (shallow : lower ≤ 32)
    (fits : remainder = 0 ∨ quotient + 1 ≤ 2 ^ lower) :
    ∃ more, remainder * (more + 2 * (quotient + 1)) =
        remainder * (evenNodes (quotient + 1) lower + 1) ∧
      (remainder * more < 2 ^ 64 →
        largerSegmentsCount remainder (quotient + 1) lower = some (remainder * more)) := by
  by_cases none : remainder = 0
  · exact ⟨0, by simp [none], fun _ => by simp [largerSegmentsCount, none]⟩
  · have fit := fits.resolve_left none
    refine ⟨evenNodes (quotient + 1) lower + 1 - 2 * (quotient + 1), ?_, fun word => ?_⟩
    · rw [Nat.sub_add_cancel (two_mul_le_evenNodes fit)]
    · rw [largerSegmentsCount, if_neg none, maximumSiblingCount_eq shallow (by omega) fit]
      exact mulInType_eq word

/-- One round of the loop is the frontier of leaves spread over that many segments. -/
theorem balancedSiblingCount_eq {touched lower upper used : Nat} (shallow : lower + upper ≤ 32)
    (pos : 1 ≤ used) (enough : used ≤ touched) (domain : used ≤ 2 ^ upper)
    (fits : touched ≤ 2 ^ (lower + upper)) :
    balancedSiblingCount touched lower upper used =
      some (if touched ≤ used * 2 ^ lower then
        some (spreadNodes touched used lower upper + 1 - 2 * touched) else none) := by
  have word : touched ≤ 2 ^ 32 := fits.trans (Nat.pow_le_pow_right two_pos shallow)
  have whole := Nat.div_add_mod touched used
  have small := Nat.mod_lt touched pos
  have share : 1 ≤ touched / used := Nat.div_pos enough pos
  have below : touched / used ≤ touched := Nat.div_le_self _ _
  have next : touched / used + 1 < 2 ^ 64 := by omega
  simp only [balancedSiblingCount, addInType_eq next, Option.bind_eq_bind, Option.bind_some,
    room_iff pos]
  by_cases room : touched ≤ used * 2 ^ lower
  case neg => rw [if_neg room, if_neg room]; rfl
  case pos =>
    obtain ⟨quotientFits, nextFits⟩ := (room_iff pos).mpr room
    have lesser := maximumSiblingCount_eq (by omega : lower ≤ 32) share quotientFits
    have above := maximumSiblingCount_eq (by omega : upper ≤ 32) pos domain
    obtain ⟨more, larger, counted⟩ := largerSegmentsCount_eq (by omega : lower ≤ 32) nextFits
    have total := balanced_total lower upper small (by omega)
      (Nat.sub_add_cancel (two_mul_le_evenNodes quotientFits)) larger
      (Nat.sub_add_cancel (two_mul_le_evenNodes domain))
    -- every partial sum is below the total, and the total is far below a word
    have bound : spreadNodes touched used lower upper ≤ 33 * 2 ^ 32 :=
      (spreadNodes_le enough).trans (Nat.mul_le_mul (by omega) word)
    rw [whole] at total
    rw [if_pos room, if_pos room, subInType_eq small.le, Option.bind_some, lesser, Option.bind_some,
      mulInType_eq (by omega), Option.bind_some, counted (by omega), Option.bind_some,
      addInType_eq (by omega), Option.bind_some, above, Option.bind_some, addInType_eq (by omega),
      Option.bind_some, ← total, Nat.add_sub_cancel]
    rfl

/-! ## The cap -/

/-- A loop that keeps the greatest value. -/
theorem foldlM_max {step : Nat → Nat → Option Nat} {value : Nat → Nat} {list : List Nat}
    (runs : ∀ maximum, ∀ a ∈ list, step maximum a = some (max maximum (value a))) (start : Nat) :
    ∃ bound, list.foldlM step start = some bound ∧ start ≤ bound ∧ (∀ a ∈ list, value a ≤ bound) ∧
      (bound = start ∨ ∃ a ∈ list, bound = value a) := by
  induction list generalizing start with
  | nil => exact ⟨start, rfl, le_rfl, by simp, .inl rfl⟩
  | cons first list ih =>
    obtain ⟨bound, ran, low, all, reached⟩ :=
      ih (fun maximum a member => runs maximum a (List.mem_cons_of_mem _ member))
        (max start (value first))
    refine ⟨bound, ?_, (le_max_left _ _).trans low, ?_, ?_⟩
    · rw [List.foldlM_cons, runs start first List.mem_cons_self]
      exact ran
    · intro a member
      rcases List.mem_cons.mp member with rfl | later
      · exact (le_max_right _ _).trans low
      · exact all a later
    · rcases reached with rfl | ⟨a, member, rfl⟩
      · rcases max_choice start (value first) with kept | taken
        · exact .inl kept
        · exact .inr ⟨first, List.mem_cons_self, taken⟩
      · exact .inr ⟨a, List.mem_cons_of_mem _ member, rfl⟩

/-- The capacity: the best legal number of used segments, which there is. -/
theorem maximumSiblingCountWithSegmentCap_eq {touched lower upper cap : Nat}
    (shallow : lower + upper ≤ 32) (some : 1 ≤ touched) (capped : 1 ≤ cap)
    (fits : touched ≤ 2 ^ lower * min cap (2 ^ upper)) :
    ∃ bound, maximumSiblingCountWithSegmentCap touched (lower + upper) lower cap = .some bound ∧
      (∀ used, 1 ≤ used → used ≤ touched → used ≤ min cap (2 ^ upper) → touched ≤ used * 2 ^ lower →
        spreadNodes touched used lower upper + 1 - 2 * touched ≤ bound) ∧
      ∃ used, 1 ≤ used ∧ used ≤ touched ∧ used ≤ min cap (2 ^ upper) ∧ touched ≤ used * 2 ^ lower ∧
        bound = spreadNodes touched used lower upper + 1 - 2 * touched := by
  have width : 2 ^ (lower + upper) ≤ 2 ^ 32 := Nat.pow_le_pow_right two_pos shallow
  have pos := Nat.two_pow_pos upper
  have product : 2 ^ lower * min cap (2 ^ upper) ≤ 2 ^ (lower + upper) := by
    rw [Nat.pow_add]
    exact Nat.mul_le_mul_left _ (Nat.min_le_right _ _)
  have domain : min cap (2 ^ upper) ≤ 2 ^ 32 :=
    (Nat.min_le_right _ _).trans (Nat.pow_le_pow_right two_pos (by omega))
  have rounds : ∀ maximum, ∀ used ∈ List.range' 1 (min touched (min cap (2 ^ upper))),
      (do
        let total ← balancedSiblingCount touched lower upper used
        let _ ← addInType 64 used 1
        return max maximum (total.getD 0)) =
        .some (max maximum (if touched ≤ used * 2 ^ lower then
          spreadNodes touched used lower upper + 1 - 2 * touched else 0)) := by
    intro maximum used member
    have range := List.mem_range'_1.mp member
    rw [balancedSiblingCount_eq shallow range.1 (by omega) (by omega) (by omega),
      addInType_eq (by omega)]
    split <;> rfl
  obtain ⟨bound, ran, -, all, reached⟩ := foldlM_max rounds 0
  have legal : ∀ used, 1 ≤ used → used ≤ touched → used ≤ min cap (2 ^ upper) →
      touched ≤ used * 2 ^ lower →
      spreadNodes touched used lower upper + 1 - 2 * touched ≤ bound := by
    intro used low enough below room
    have kept := all used (List.mem_range'_1.mpr (by omega))
    rwa [if_pos room] at kept
  refine ⟨bound, ?_, legal, ?_⟩
  · simp only [maximumSiblingCountWithSegmentCap, bind_eq_some,
      guard_eq_some]
    refine ⟨(), shallow, (), Nat.le_add_right _ _, ?_⟩
    rw [if_neg (by omega), Nat.add_sub_cancel_left]
    simp only [bind_eq_some, guard_eq_some]
    exact ⟨(), by omega, _, mulInType_eq (by omega), (), fits, ran⟩
  · -- using as many segments as allowed always leaves room
    have most : touched ≤ min touched (min cap (2 ^ upper)) * 2 ^ lower := by
      rcases Nat.le_total touched (min cap (2 ^ upper)) with few | many
      · rw [Nat.min_eq_left few]
        exact Nat.le_mul_of_pos_right _ (Nat.two_pow_pos lower)
      · rw [Nat.min_eq_right many, Nat.mul_comm]
        exact fits
    have low : 1 ≤ min touched (min cap (2 ^ upper)) := le_min some (le_min capped pos)
    have best := legal _ low (Nat.min_le_left _ _) (Nat.min_le_right _ _) most
    by_cases none : bound = 0
    · exact ⟨_, low, Nat.min_le_left _ _, Nat.min_le_right _ _, most,
        none.trans (Nat.le_zero.mp (none ▸ best)).symm⟩
    · obtain ⟨used, member, best⟩ := reached.resolve_left none
      obtain ⟨least, below⟩ := List.mem_range'_1.mp member
      have room : touched ≤ used * 2 ^ lower :=
        by_contra fun short => none (best.trans (if_neg short))
      rw [if_pos room] at best
      exact ⟨used, least, by omega, by omega, room, best⟩

/-! ## Soundness and tightness -/

theorem ValidIndices.nodup {depth : Nat} (valid : ValidIndices indices depth) :
    indices.Nodup := valid.sorted.nodup

/-- A frontier is at most that of leaves spread over as many segments. -/
theorem expectedSiblingCount_le {lower upper count : Nat}
    (ok : expectedSiblingCount indices (lower + upper) = .ok count) :
    count ≤ spreadNodes indices.length (levelCount indices.toFinset lower) lower upper + 1 -
      2 * indices.length := by
  have size := expectedSiblingCount_add ok
  have valid := (expectedSiblingCount_eq_ok.mp ok).1
  have inside : ∀ leaf ∈ indices.toFinset, leaf < 2 ^ (lower + upper) := by simpa using valid.inside
  have bound := pathNodes_le inside
  rw [List.toFinset_card_of_nodup valid.nodup] at bound
  omega

/-- The number of segments that leaves use is a legal one. -/
theorem legal_levelCount {lower upper : Nat} (valid : ValidIndices indices (lower + upper)) :
    1 ≤ indices.length ∧ 1 ≤ levelCount indices.toFinset lower ∧
      levelCount indices.toFinset lower ≤ indices.length ∧
      levelCount indices.toFinset lower ≤ 2 ^ upper ∧
      indices.length ≤ levelCount indices.toFinset lower * 2 ^ lower := by
  have size := List.toFinset_card_of_nodup valid.nodup
  have some : 1 ≤ indices.length := List.length_pos_iff.mpr valid.nonempty
  have inside : ∀ leaf ∈ indices.toFinset, leaf < 2 ^ (lower + upper) := by simpa using valid.inside
  have fill := levelCount_le_mul indices.toFinset 0 lower
  rw [levelCount_zero, Nat.zero_add, size] at fill
  refine ⟨some, ?_, size ▸ levelCount_le_card _ _, levelCount_le_two_pow inside, fill⟩
  by_contra none
  rw [Nat.lt_one_iff.mp (not_le.mp none)] at fill
  omega

theorem expectedSiblingCount_le_even {depth count : Nat}
    (ok : expectedSiblingCount indices depth = .ok count) :
    count ≤ evenNodes indices.length depth + 1 - 2 * indices.length := by
  obtain ⟨some, low, -, high, -⟩ :=
    @legal_levelCount indices depth 0 (expectedSiblingCount_eq_ok.mp ok).1
  have root : levelCount indices.toFinset depth = 1 := by
    rw [Nat.pow_zero] at high
    omega
  have bound := @expectedSiblingCount_le indices depth 0 count ok
  rwa [root, spreadNodes_one some] at bound

/-- Leaves spread over legally many segments exist and have the frontier of the bound. -/
theorem expectedSiblingCount_spread {lower upper touched used : Nat} (shallow : lower + upper ≤ 32)
    (pos : 1 ≤ used) (enough : used ≤ touched) (domain : used ≤ 2 ^ upper)
    (room : touched ≤ used * 2 ^ lower) :
    ∃ indices : List Nat, indices.length = touched ∧ levelCount indices.toFinset lower = used ∧
      expectedSiblingCount indices (lower + upper) =
        .ok (spreadNodes touched used lower upper + 1 - 2 * touched) := by
  have size := card_spread pos domain room
  let indices := (Spread.spread touched used lower upper).sort
  have leaves : indices.toFinset = Spread.spread touched used lower upper := Finset.sort_toFinset _ _
  have length : indices.length = touched := (Finset.length_sort _).trans size
  have segments := levelCount_spread_high pos enough lower upper 0
  rw [Nat.add_zero, Nat.add_zero, Nat.min_eq_left domain] at segments
  have valid : ValidIndices indices (lower + upper) := by
    refine ⟨shallow, ?_, (Finset.sortedLT_sort _).pairwise, fun index member => ?_⟩
    · intro none
      rw [none, List.length_nil] at length
      omega
    · obtain ⟨counter, -, rfl⟩ := Finset.mem_image.mp ((Finset.mem_sort _).mp member)
      exact spreadLeaf_lt used lower upper counter
  obtain ⟨count, counted⟩ : ∃ count, expectedSiblingCount indices (lower + upper) = .ok count :=
    ⟨_, valid.expectedSiblingCount_eq⟩
  have total := expectedSiblingCount_add counted
  rw [leaves, pathNodes_spread pos domain enough, length] at total
  refine ⟨indices, length, by rw [leaves, segments], ?_⟩
  rw [counted]
  congr 1
  omega

/-- One segment is the whole tree. -/
theorem maximumSiblingCountWithSegmentCap_whole {size depth cap : Nat} (shallow : depth ≤ 32)
    (capped : 1 ≤ cap) (some : 1 ≤ size) (fits : size ≤ 2 ^ depth) :
    maximumSiblingCountWithSegmentCap size depth depth cap =
      .some (evenNodes size depth + 1 - 2 * size) := by
  have single : min cap (2 ^ 0) = 1 := Nat.min_eq_right capped
  obtain ⟨bound, ran, -, used, low, -, high, -, rfl⟩ :=
    @maximumSiblingCountWithSegmentCap_eq size depth 0 cap shallow some capped
      (by rwa [single, Nat.mul_one])
  obtain rfl : used = 1 := by omega
  rwa [spreadNodes_one some] at ran

/-- No cap on the segments is no cap. -/
theorem maximumSiblingCountWithSegmentCap_unbounded {size lower upper cap : Nat}
    (shallow : lower + upper ≤ 32) (some : 1 ≤ size) (fits : size ≤ 2 ^ (lower + upper))
    (wide : 2 ^ upper ≤ cap) :
    maximumSiblingCountWithSegmentCap size (lower + upper) lower cap =
      .some (evenNodes size (lower + upper) + 1 - 2 * size) := by
  have every : min cap (2 ^ upper) = 2 ^ upper := Nat.min_eq_right wide
  obtain ⟨bound, ran, all, used, low, enough, high, room, rfl⟩ :=
    maximumSiblingCountWithSegmentCap_eq shallow some ((Nat.two_pow_pos upper).trans_le wide)
      (by rwa [every, ← Nat.pow_add])
  rw [every] at all high
  rw [ran]
  refine congrArg Option.some (le_antisymm ?_ ?_)
  · -- the best capped frontier is the frontier of some leaves
    obtain ⟨indices, length, -, counted⟩ :=
      expectedSiblingCount_spread shallow low enough high room
    have bound := expectedSiblingCount_le_even counted
    rwa [length] at bound
  · -- and the best frontier uses some number of segments
    obtain ⟨indices, length, -, counted⟩ :=
      @expectedSiblingCount_spread (lower + upper) 0 size 1 shallow le_rfl some le_rfl (by omega)
    have counted : expectedSiblingCount indices (lower + upper) = .ok _ := counted
    obtain ⟨-, low, enough, high, room⟩ := legal_levelCount (expectedSiblingCount_eq_ok.mp counted).1
    have bound := expectedSiblingCount_le counted
    rw [spreadNodes_one some, length] at bound
    rw [length] at enough room
    exact bound.trans (all _ low enough high room)

/-- The capacity bounds the frontier of every touched set within the cap, some touched set of every
admissible size attains it, without a cap it is `maximum_sibling_count`, and no operation of either
function leaves its type. -/
theorem frontier_capacity_sound_tight (depth logSegmentSize maxSegments : Nat) (shallow : depth ≤ 32)
    (segment : logSegmentSize ≤ depth) (capped : 1 ≤ maxSegments) :
    (∀ indices count, expectedSiblingCount indices depth = .ok count →
      (indices.toFinset.image (· / 2 ^ logSegmentSize)).card ≤ maxSegments →
      ∃ bound, maximumSiblingCountWithSegmentCap indices.length depth logSegmentSize maxSegments =
          some bound ∧ count ≤ bound) ∧
    (∀ size, 1 ≤ size → size ≤ 2 ^ logSegmentSize * min maxSegments (2 ^ (depth - logSegmentSize)) →
      ∃ bound indices,
        maximumSiblingCountWithSegmentCap size depth logSegmentSize maxSegments = some bound ∧
        indices.length = size ∧
        (indices.toFinset.image (· / 2 ^ logSegmentSize)).card ≤ maxSegments ∧
        expectedSiblingCount indices depth = .ok bound) ∧
    (∀ size ≤ 2 ^ depth, ∃ bound, maximumSiblingCount size depth = some bound ∧
      maximumSiblingCountWithSegmentCap size depth depth maxSegments = some bound ∧
      (2 ^ (depth - logSegmentSize) ≤ maxSegments →
        maximumSiblingCountWithSegmentCap size depth logSegmentSize maxSegments = some bound)) := by
  obtain ⟨upper, rfl⟩ := Nat.exists_eq_add_of_le segment
  rw [Nat.add_sub_cancel_left]
  refine ⟨fun indices count ok within => ?_, fun size some fits => ?_, fun size fits => ?_⟩
  · obtain ⟨some, low, enough, high, room⟩ := legal_levelCount (expectedSiblingCount_eq_ok.mp ok).1
    have legal := le_min within high
    have fits := room.trans (Nat.mul_le_mul_right (2 ^ logSegmentSize) legal)
    rw [Nat.mul_comm] at fits
    obtain ⟨bound, ran, all, -⟩ := maximumSiblingCountWithSegmentCap_eq shallow some capped fits
    exact ⟨bound, ran, (expectedSiblingCount_le ok).trans (all _ low enough legal room)⟩
  · obtain ⟨bound, ran, -, used, low, enough, high, room, rfl⟩ :=
      maximumSiblingCountWithSegmentCap_eq shallow some capped fits
    obtain ⟨within, domain⟩ := le_min_iff.mp high
    obtain ⟨indices, length, segments, counted⟩ :=
      expectedSiblingCount_spread shallow low enough domain room
    exact ⟨_, indices, ran, length, segments.le.trans within, counted⟩
  · rcases Nat.eq_zero_or_pos size with rfl | some
    · have none (log : Nat) (below : log ≤ logSegmentSize + upper) :
          maximumSiblingCountWithSegmentCap 0 (logSegmentSize + upper) log maxSegments = .some 0 := by
        simp [maximumSiblingCountWithSegmentCap, guard, shallow, below]
      exact ⟨0, by simp [maximumSiblingCount, guard, shallow], none _ le_rfl, fun _ => none _ segment⟩
    · exact ⟨_, maximumSiblingCount_eq shallow some fits,
        maximumSiblingCountWithSegmentCap_whole shallow capped some fits,
        fun wide => maximumSiblingCountWithSegmentCap_unbounded shallow some fits wide⟩

/-- Three leaves in at most two segments of four: two in one and one in the other. -/
theorem frontier_capacity_sound_tight_three : ∃ bound,
    maximumSiblingCountWithSegmentCap 3 4 2 2 = some bound ∧
      expectedSiblingCount [0, 2, 8] 4 = .ok 6 ∧ 6 ≤ bound := by
  have counted : expectedSiblingCount [0, 2, 8] 4 = .ok 6 := by decide
  obtain ⟨bound, ran, below⟩ := (frontier_capacity_sound_tight 4 2 2 (by decide) (by decide)
    (by decide)).1 [0, 2, 8] 6 counted (by decide)
  exact ⟨bound, ran, counted, below⟩

end ParanoidChain
