import ParanoidChain.Chain.SparseRoot
import Mathlib.Data.Nat.Bitwise

/-!
# The streaming builder computes the plain root

`plainRoot` is the reference: the complete binary tree over the leaf hashes of a slot vector. The
builder's invariant is that its stack covers the leaves below its position; an empty gap is covered
by empty blocks, a pushed leaf by itself, and a stack that covers the whole domain is the root.
-/

namespace ParanoidChain

open Lib Lib.Merkle

variable (hasher : StateHasher)

/-- The leaf hashes of a slot vector. -/
def leafVector (slots : Nat → SlotValue) (index : Nat) : Digest := hasher.slotLeafHash (slots index)

/-- The root of the aligned subtree of height `level` at `index` over a slot vector. -/
def subtreeRoot (slots : Nat → SlotValue) (level index : Nat) : Digest :=
  subRoot hasher.stateNodeHash (leafVector hasher slots) level index

/-- The root of the plain complete binary tree of one depth over a slot vector. -/
def plainRoot (slots : Nat → SlotValue) (depth : Nat) : Digest := subtreeRoot hasher slots depth 0

theorem length_zeroSlotRoots (depth : Nat) : (hasher.zeroSlotRoots depth).length = depth + 1 := by
  induction depth with
  | zero => rfl
  | succ depth ih => simp [StateHasher.zeroSlotRoots, ih]

theorem checkedSlotCount_eq_some {depth size : Nat} :
    checkedSlotCount depth = some size ↔ depth < 64 ∧ 2 ^ depth = size := by
  unfold checkedSlotCount
  split <;> simp_all

variable {hasher}

theorem subtreeRoot_congr {first second : Nat → SlotValue} {level index : Nat}
    (same : ∀ slot, index * 2 ^ level ≤ slot → slot < (index + 1) * 2 ^ level →
      first slot = second slot) :
    subtreeRoot hasher first level index = subtreeRoot hasher second level index :=
  subRoot_congr level index fun slot low high => by
    rw [leafVector, leafVector, same slot low high]

theorem getD_zeroSlotRoots {depth level : Nat} (below : level ≤ depth) :
    (hasher.zeroSlotRoots depth).getD level 0 =
      zeroRoot hasher.stateNodeHash (hasher.slotLeafHash .empty) level := by
  induction depth generalizing level with
  | zero =>
    obtain rfl : level = 0 := by omega
    rfl
  | succ depth ih =>
    have length := length_zeroSlotRoots hasher depth
    rw [StateHasher.zeroSlotRoots]
    rcases Nat.lt_or_ge level (depth + 1) with inside | last
    · rw [List.getD_append _ _ _ _ (by omega)]
      exact ih (by omega)
    · obtain rfl : level = depth + 1 := by omega
      rw [List.getD_append_right _ _ _ _ (by omega), length, Nat.sub_self, ih le_rfl, zeroRoot_succ]
      rfl

@[simp] theorem zeroSlotRoot_eq (depth : Nat) :
    hasher.zeroSlotRoot depth = zeroRoot hasher.stateNodeHash (hasher.slotLeafHash .empty) depth :=
  getD_zeroSlotRoots le_rfl

/-- A subtree of empty slots has the zero root of its height. -/
theorem subtreeRoot_of_empty {slots : Nat → SlotValue} {level index : Nat}
    (empty : ∀ slot, index * 2 ^ level ≤ slot → slot < (index + 1) * 2 ^ level →
      slots slot = .empty) :
    subtreeRoot hasher slots level index =
      zeroRoot hasher.stateNodeHash (hasher.slotLeafHash .empty) level :=
  subRoot_eq_zeroRoot fun slot low high => by rw [leafVector, empty slot low high]

/-- All bits below the trailing zero count are zero. -/
theorem two_pow_trailingZeros_dvd (word : Nat) : 2 ^ trailingZeros word ∣ word := by
  have clear : ∀ bit < trailingZeros word, word.testBit bit = false := by
    intro bit below
    unfold trailingZeros at below
    cases found : (List.range 64).find? fun bit => word.testBit bit with
    | none =>
      rw [found] at below
      simpa using List.find?_eq_none.mp found bit (by simpa using below)
    | some first =>
      rw [found] at below
      obtain ⟨-, position, inside, here, before⟩ := List.find?_eq_some_iff_getElem.mp found
      simp only [List.getElem_range] at here before
      simp only [Option.getD_some] at below
      simpa using before bit (by omega)
  refine Nat.dvd_of_mod_eq_zero (Nat.eq_of_testBit_eq fun bit => ?_)
  rw [Nat.testBit_mod_two_pow, Nat.zero_testBit]
  by_cases below : bit < trailingZeros word
  · simp [clear bit below]
  · simp [below]

namespace StreamingSparseRoot

/-- The builder's invariant: its stack covers the leaves below its position. -/
structure Streams (hasher : StateHasher) (slots : Nat → SlotValue) (depth : Nat)
    (stream : StreamingSparseRoot) : Prop where
  depth_eq : stream.depth = depth
  zeroRoots_eq : stream.zeroRoots = hasher.zeroSlotRoots depth
  covers : Covers hasher.stateNodeHash (leafVector hasher slots) stream.stack stream.position

variable {slots : Nat → SlotValue} {depth : Nat} {stream : StreamingSparseRoot}

/-- The next empty block is aligned, stays in the gap and is no higher than the tree. -/
theorem gapLevel_spec {stop : Nat} (gap : stream.position < stop) :
    2 ^ stream.gapLevel stop ∣ stream.position ∧
      stream.position + 2 ^ stream.gapLevel stop ≤ stop ∧ stream.gapLevel stop ≤ stream.depth := by
  have fits : 2 ^ (stop - stream.position).log2 ≤ stop - stream.position :=
    Nat.log2_self_le (by omega)
  have byRemaining : stream.gapLevel stop ≤ (stop - stream.position).log2 := Nat.min_le_left _ _
  have smaller := Nat.pow_le_pow_right (n := 2) (by omega) byRemaining
  have byAlignment : stream.gapLevel stop ≤
      if stream.position = 0 then stream.depth
      else min (trailingZeros stream.position) stream.depth := Nat.min_le_right _ _
  refine ⟨?_, by omega, ?_⟩
  · split at byAlignment
    · rename_i atStart
      simp [atStart]
    · exact (Nat.pow_dvd_pow 2 (byAlignment.trans (Nat.min_le_left _ _))).trans
        (two_pow_trailingZeros_dvd _)
  · split at byAlignment
    · exact byAlignment
    · exact byAlignment.trans (Nat.min_le_right _ _)

/-- The gap loop covers an empty stretch. -/
theorem fillLoop_streams {stop fuel : Nat} (held : Streams hasher slots depth stream)
    (before : stream.position ≤ stop) (enough : stop - stream.position ≤ fuel)
    (empty : ∀ slot, stream.position ≤ slot → slot < stop → slots slot = .empty) :
    Streams hasher slots depth (fillLoop hasher stop fuel stream) ∧
      (fillLoop hasher stop fuel stream).position = stop := by
  induction fuel generalizing stream with
  | zero => exact ⟨held, by simp only [fillLoop]; omega⟩
  | succ fuel ih =>
    rw [fillLoop]
    split
    case isFalse reached => exact ⟨held, by omega⟩
    case isTrue gap =>
      obtain ⟨⟨index, aligned⟩, inside, low⟩ := gapLevel_spec gap
      have size := Nat.two_pow_pos (stream.gapLevel stop)
      have start : stream.position = index * 2 ^ stream.gapLevel stop := by
        rw [aligned, Nat.mul_comm]
      have next : (index + 1) * 2 ^ stream.gapLevel stop =
          stream.position + 2 ^ stream.gapLevel stop := by rw [start, Nat.succ_mul]
      have zero : stream.zeroRoots.getD (stream.gapLevel stop) 0 =
          subRoot hasher.stateNodeHash (leafVector hasher slots) (stream.gapLevel stop) index := by
        rw [held.zeroRoots_eq, getD_zeroSlotRoots (held.depth_eq ▸ low)]
        exact (show subtreeRoot hasher slots _ index = _ from subtreeRoot_of_empty
          fun slot lower upper => empty slot (by omega) (by omega)).symm
      refine ih ⟨held.depth_eq, held.zeroRoots_eq, ?_⟩ (by simpa using inside) ?_ ?_
      · have covered := held.covers.append start
        rw [next, ← zero] at covered
        exact covered
      · simp only
        omega
      · intro slot lower upper
        exact empty slot (by simp only at lower; omega) upper

/-- Filling a gap of empty slots keeps the stream's invariant. -/
theorem fillZeroGap_streams {stop : Nat} (small : depth < 64)
    (held : Streams hasher slots depth stream) (before : stream.position ≤ stop)
    (inside : stop ≤ 2 ^ depth)
    (empty : ∀ slot, stream.position ≤ slot → slot < stop → slots slot = .empty) :
    ∃ filled, stream.fillZeroGap hasher stop = .ok filled ∧ Streams hasher slots depth filled ∧
      filled.position = stop := by
  refine ⟨_, ?_, fillLoop_streams held before le_rfl empty⟩
  simp [fillZeroGap, checkedSlotCount, held.depth_eq, small, before, inside]

theorem pushLeaf_streams {index : Nat} (small : depth < 64)
    (held : Streams hasher slots depth stream) (before : stream.position ≤ index)
    (inside : index < 2 ^ depth)
    (empty : ∀ slot, stream.position ≤ slot → slot < index → slots slot = .empty) :
    ∃ pushed, stream.pushLeaf hasher index (hasher.slotLeafHash (slots index)) = .ok pushed ∧
      Streams hasher slots depth pushed ∧ pushed.position = index + 1 := by
  obtain ⟨filled, ok, streams, reached⟩ := fillZeroGap_streams small held before inside.le empty
  refine ⟨{ filled.appendBlock hasher 0 (hasher.slotLeafHash (slots index)) with
    position := index + 1 }, ?_, ⟨streams.depth_eq, streams.zeroRoots_eq, ?_⟩, rfl⟩
  · simp [pushLeaf, ok]
  · have aligned : filled.position = index * 2 ^ 0 := by simp [reached]
    simpa [appendBlock, leafVector] using streams.covers.append aligned

/-- So a finished stream has the plain root. -/
theorem finish_eq (small : depth < 64) (held : Streams hasher slots depth stream)
    (before : stream.position ≤ 2 ^ depth)
    (empty : ∀ slot, stream.position ≤ slot → slot < 2 ^ depth → slots slot = .empty) :
    stream.finish hasher = .ok (plainRoot hasher slots depth) := by
  obtain ⟨filled, ok, streams, reached⟩ := fillZeroGap_streams small held before le_rfl empty
  have covers := streams.covers
  rw [reached] at covers
  have sole : soleRoot filled.depth filled.stack = some (plainRoot hasher slots depth) := by
    rw [covers.whole, soleRoot, if_pos streams.depth_eq.symm]
    rfl
  simp only [finish, checkedSlotCount, held.depth_eq, small, if_true, bind_eq_ok, okOr_eq_ok]
  exact ⟨_, rfl, filled, ok, sole⟩

end StreamingSparseRoot

end ParanoidChain
