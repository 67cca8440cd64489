import Mathlib.Data.Nat.Bitwise

/-!
# Words under exclusive or

A word is the exclusive or of the powers of two it has a bit at. So a statement that exclusive or
preserves holds of every word when it holds of the single bits, and maps that respect exclusive or are
compared on single bits only.
-/

namespace Lib

variable {w : Nat}

/-- The lowest `count` bits of a word. -/
def lowBits (word : BitVec w) (count : Nat) : BitVec w := (word.setWidth count).setWidth w

theorem lowBits_zero (word : BitVec w) : lowBits word 0 = 0#w := by
  apply BitVec.eq_of_getLsbD_eq
  intro i inside
  simp [lowBits]

theorem lowBits_full (word : BitVec w) : lowBits word w = word := by
  simp [lowBits]

theorem lowBits_succ (word : BitVec w) (count : Nat) :
    lowBits word (count + 1) =
      lowBits word count ^^^ (if word.getLsbD count then BitVec.twoPow w count else 0#w) := by
  apply BitVec.eq_of_getLsbD_eq
  intro i inside
  simp only [lowBits, BitVec.getLsbD_setWidth, BitVec.getLsbD_xor, inside, decide_true,
    Bool.true_and]
  rcases Nat.lt_trichotomy i count with below | rfl | above
  · have apart : count ≠ i := by omega
    have within : i < count + 1 := by omega
    split <;> simp [below, apart, within]
  · cases word.getLsbD i <;> simp [inside]
  · have apart : count ≠ i := by omega
    have beyond : ¬ i < count + 1 := by omega
    have outside : ¬ i < count := by omega
    split <;> simp [outside, apart, beyond]

/-- Induction over single bits. -/
theorem xor_induction {P : BitVec w → Prop} (zero : P 0#w)
    (bit : ∀ i : Fin w, P (BitVec.twoPow w i)) (xor : ∀ x y, P x → P y → P (x ^^^ y))
    (word : BitVec w) : P word := by
  have part : ∀ count ≤ w, P (lowBits word count) := by
    intro count
    induction count with
    | zero =>
      intro _
      rw [lowBits_zero]
      exact zero
    | succ count ih =>
      intro inside
      rw [lowBits_succ]
      apply xor _ _ (ih (by omega))
      split
      · exact bit ⟨count, by omega⟩
      · exact zero
  exact lowBits_full word ▸ part w le_rfl

/-- Clearing a set bit makes a word smaller. -/
theorem xor_twoPow_lt {word : BitVec w} {i : Nat} (set : word.getLsbD i = true) :
    word ^^^ BitVec.twoPow w i < word := by
  have inside := BitVec.lt_of_getLsbD set
  have cleared : word ^^^ BitVec.twoPow w i = word &&& ~~~BitVec.twoPow w i := by
    apply BitVec.eq_of_getLsbD_eq
    intro k bound
    simp only [BitVec.getLsbD_xor, BitVec.getLsbD_and, BitVec.getLsbD_not, BitVec.getLsbD_twoPow]
    by_cases same : i = k
    · subst same
      simp [set, inside]
    · simp [same, bound]
  have changed : word ^^^ BitVec.twoPow w i ≠ word := by
    intro same
    have bit := congrArg (BitVec.getLsbD · i) same
    simp [inside] at bit
  have below : word ^^^ BitVec.twoPow w i ≤ word := by
    rw [cleared, BitVec.le_def, BitVec.toNat_and]
    exact Nat.and_le_left
  have numbers : (word ^^^ BitVec.twoPow w i).toNat ≠ word.toNat :=
    fun same => changed (BitVec.eq_of_toNat_eq same)
  exact BitVec.lt_def.mpr (Nat.lt_of_le_of_ne (BitVec.le_def.mp below) numbers)

/-- A map that respects exclusive or. -/
def Linear {v : Nat} (f : BitVec w → BitVec v) : Prop := ∀ x y, f (x ^^^ y) = f x ^^^ f y

namespace Linear

variable {u v : Nat} {f g : BitVec w → BitVec v}

theorem map_zero (linear : Linear f) : f 0#w = 0#v := by
  have twice := linear 0#w 0#w
  simpa using twice

theorem comp {h : BitVec v → BitVec u} (after : Linear h) (linear : Linear f) :
    Linear (fun x => h (f x)) := by
  intro x y
  beta_reduce
  rw [linear, after]

theorem xor (left : Linear f) (right : Linear g) : Linear (fun x => f x ^^^ g x) := by
  intro x y
  beta_reduce
  rw [left, right]
  ac_rfl

theorem shiftLeft (count : Nat) : Linear (fun x : BitVec w => x <<< count) :=
  fun x y => BitVec.shiftLeft_xor_distrib x y count

theorem setWidth : Linear (fun x : BitVec w => x.setWidth v) := fun _ _ => BitVec.setWidth_xor

/-- A word added in when a bit is set. -/
theorem select (position : Nat) (word : BitVec v) :
    Linear (fun x : BitVec w => if x.getLsbD position then word else 0#v) := by
  intro x y
  beta_reduce
  rw [BitVec.getLsbD_xor]
  cases x.getLsbD position <;> cases y.getLsbD position <;> simp

/-- A loop whose every step is linear. -/
theorem foldl {step : BitVec w → Nat → BitVec w} (linear : ∀ i, Linear (step · i))
    (list : List Nat) : Linear (fun x => list.foldl step x) := by
  induction list with
  | nil => exact fun _ _ => rfl
  | cons i rest ih => exact ih.comp (linear i)

/-- A loop that adds a linear term at every step. -/
theorem foldl_terms {term : Nat → BitVec w → BitVec v} (linear : ∀ i, Linear (term i))
    (list : List Nat) : Linear (fun x => list.foldl (fun sum i => sum ^^^ term i x) 0#v) := by
  have general : ∀ (list : List Nat) (x y : BitVec w) (p q : BitVec v),
      list.foldl (fun sum i => sum ^^^ term i (x ^^^ y)) (p ^^^ q) =
        list.foldl (fun sum i => sum ^^^ term i x) p ^^^
          list.foldl (fun sum i => sum ^^^ term i y) q := by
    intro list
    induction list with
    | nil => exact fun _ _ _ _ => rfl
    | cons i rest ih =>
      intro x y p q
      have regroup : p ^^^ q ^^^ term i (x ^^^ y) = (p ^^^ term i x) ^^^ (q ^^^ term i y) := by
        rw [linear]
        ac_rfl
      rw [List.foldl_cons, List.foldl_cons, List.foldl_cons, regroup, ih]
  intro x y
  simpa using general list x y 0#v 0#v

/-- Linear maps that agree on single bits agree. -/
theorem eq_of_bits (left : Linear f) (right : Linear g)
    (bits : ∀ i : Fin w, f (BitVec.twoPow w i) = g (BitVec.twoPow w i)) (x : BitVec w) :
    f x = g x := by
  induction x using xor_induction with
  | zero => rw [left.map_zero, right.map_zero]
  | bit i => exact bits i
  | xor x y first second => rw [left, right, first, second]

end Linear

end Lib
