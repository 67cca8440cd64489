import Mathlib.Data.Nat.Bitwise
import Mathlib.Data.List.Induction

/-!
# Binary elimination

Words are reduced against rows kept at their leading bits: while the leading bit of a word has a row,
the row is added. A word reduces to zero exactly when it is a sum of rows, so inserting words one after
another counts those that are not sums of the earlier ones. The rows carry their leading bits with them,
which is what makes the reduction stop.
-/

namespace Lib.Echelon

variable {w : Nat}

/-! ## Leading bits -/

/-- The position of the leading bit. -/
def top (x : BitVec w) : Nat := x.toNat.log2

variable {x : BitVec w}

theorem toNat_ne_zero (nonzero : x ≠ 0#w) : x.toNat ≠ 0 := fun zero =>
  nonzero (BitVec.eq_of_toNat_eq (by simpa using zero))

theorem testBit_top (nonzero : x ≠ 0#w) : x.toNat.testBit (top x) = true :=
  Nat.testBit_log2 (toNat_ne_zero nonzero)

theorem testBit_above {i : Nat} (above : top x < i) : x.toNat.testBit i = false := by
  by_cases zero : x.toNat = 0
  · rw [zero, Nat.zero_testBit]
  · refine Nat.testBit_lt_two_pow ?_
    exact (Nat.log2_lt zero).1 above

theorem lt_two_pow_top (nonzero : x ≠ 0#w) : 2 ^ top x ≤ x.toNat :=
  Nat.log2_self_le (toNat_ne_zero nonzero)

theorem top_eq {p : Nat} (set : x.toNat.testBit p = true)
    (clear : ∀ i, p < i → x.toNat.testBit i = false) : top x = p := by
  have nonzero : x ≠ 0#w := by
    rintro rfl
    simp at set
  rcases Nat.lt_trichotomy (top x) p with below | same | above
  · rw [testBit_above below] at set
    exact absurd set Bool.false_ne_true
  · exact same
  · have leading := testBit_top nonzero
    rw [clear _ above] at leading
    exact absurd leading Bool.false_ne_true

variable {y : BitVec w}

/-- Words with one leading bit cancel it. -/
theorem xor_lt (nonzero : x ≠ 0#w) (other : y ≠ 0#w) (same : top y = top x) :
    (x ^^^ y).toNat < x.toNat := by
  refine lt_of_lt_of_le ?_ (lt_two_pow_top nonzero)
  refine Nat.lt_pow_two_of_testBit _ fun i from_ => ?_
  rw [BitVec.toNat_xor, Nat.testBit_xor]
  rcases Nat.eq_or_lt_of_le from_ with rfl | above
  · rw [testBit_top nonzero, ← same, testBit_top other, Bool.xor_self]
  · rw [testBit_above above, testBit_above (same ▸ above), Bool.xor_self]

/-- A word with a lower leading bit does not move it. -/
theorem top_xor (nonzero : x ≠ 0#w) (lower : y = 0#w ∨ top y < top x) :
    x ^^^ y ≠ 0#w ∧ top (x ^^^ y) = top x := by
  have above : ∀ i, top x ≤ i → y.toNat.testBit i = false := by
    intro i from_
    rcases lower with rfl | below
    · simp
    · exact testBit_above (by omega)
  have set : (x ^^^ y).toNat.testBit (top x) = true := by
    rw [BitVec.toNat_xor, Nat.testBit_xor, testBit_top nonzero, above _ le_rfl, Bool.xor_false]
  refine ⟨?_, top_eq set fun i greater => ?_⟩
  · intro zero
    rw [zero] at set
    simp at set
  · rw [BitVec.toNat_xor, Nat.testBit_xor, testBit_above greater, above _ greater.le, Bool.xor_self]

/-! ## Rows -/

/-- Rows at their leading bits; a zero row is a free position. -/
structure Rows (w : Nat) where
  row : Nat → BitVec w
  leading : ∀ p, row p ≠ 0#w → top (row p) = p

/-- No rows. -/
def Rows.empty : Rows w := ⟨fun _ => 0#w, fun _ other => absurd rfl other⟩

/-- The loop over one word: what is left when the leading bit has no row. -/
def Rows.reduce (rows : Rows w) (value : BitVec w) : BitVec w :=
  if value = 0#w then value
  else if rows.row (top value) = 0#w then value
  else rows.reduce (value ^^^ rows.row (top value))
termination_by value.toNat
decreasing_by exact xor_lt ‹_› ‹_› (rows.leading _ ‹_›)

/-- A word placed at its leading bit. -/
def Rows.place (rows : Rows w) (value : BitVec w) : Rows w where
  row p := if p = top value then value else rows.row p
  leading p other := by
    split
    · rw [‹p = top value›]
    · rw [if_neg ‹_›] at other
      exact rows.leading p other

/-- Insert a word, and say whether a row was added. -/
def Rows.insert (rows : Rows w) (value : BitVec w) : Rows w × Bool :=
  let left := rows.reduce value
  if left = 0#w then (rows, false) else (rows.place left, true)

/-- The rows of some words and their number. -/
def eliminate (values : List (BitVec w)) : Rows w × Nat :=
  values.foldl (fun (rows, rank) value =>
    let (after, added) := rows.insert value
    (after, if added then rank + 1 else rank)) (Rows.empty, 0)

/-! ## Spans -/

/-- The sums of members of a set of words. -/
inductive Span (S : BitVec w → Prop) : BitVec w → Prop
  | zero : Span S 0#w
  | xor {x y : BitVec w} (rest : Span S x) (member : S y) : Span S (x ^^^ y)

variable {S : BitVec w → Prop}

theorem Span.single (member : S y) : Span S y := by
  simpa using Span.zero.xor member

theorem Span.add (left : Span S x) (right : Span S y) :
    Span S (x ^^^ y) := by
  induction right with
  | zero => rwa [BitVec.xor_zero]
  | xor _ member ih =>
    rw [← BitVec.xor_assoc]
    exact ih.xor member

/-- A span inside another one. -/
theorem Span.bind {T : BitVec w → Prop} (inside : Span S x) (members : ∀ y, S y → Span T y) :
    Span T x := by
  induction inside with
  | zero => exact .zero
  | xor _ member ih => exact ih.add (members _ member)

/-- The words held as rows. -/
def Rows.Holds (rows : Rows w) (x : BitVec w) : Prop := ∃ p, rows.row p = x

section

variable (rows : Rows w)
include rows

theorem Rows.reduce_zero : rows.reduce 0#w = 0#w := by
  rw [Rows.reduce, if_pos rfl]

theorem Rows.reduce_step {value : BitVec w} (nonzero : value ≠ 0#w)
    (taken : rows.row (top value) ≠ 0#w) :
    rows.reduce value = rows.reduce (value ^^^ rows.row (top value)) := by
  rw [Rows.reduce, if_neg nonzero, if_neg taken]

/-- A reduction changes a word by a sum of rows, and stops at a free position. -/
theorem Rows.reduce_spec (value : BitVec w) :
    Span rows.Holds (value ^^^ rows.reduce value) ∧
      (rows.reduce value ≠ 0#w → rows.row (top (rows.reduce value)) = 0#w) := by
  fun_induction Rows.reduce rows value with
  | case1 => exact ⟨by rw [BitVec.xor_self]; exact .zero, fun other => absurd rfl other⟩
  | case2 => exact ⟨by rw [BitVec.xor_self]; exact .zero, fun _ => ‹_›⟩
  | case3 value _ _ ih =>
    refine ⟨?_, ih.2⟩
    have moved := ih.1.xor (y := rows.row (top value)) ⟨_, rfl⟩
    rwa [BitVec.xor_assoc, BitVec.xor_assoc, BitVec.xor_comm (rows.reduce _), ← BitVec.xor_assoc,
      ← BitVec.xor_assoc, BitVec.xor_assoc value, BitVec.xor_self, BitVec.xor_zero] at moved

/-- Words that reduce to zero are closed under addition. -/
theorem Rows.reduce_add (left : rows.reduce x = 0#w) (right : rows.reduce y = 0#w) :
    rows.reduce (x ^^^ y) = 0#w := by
  -- the word with the higher leading bit is reduced by one row; both are when the bits agree
  induction size : x.toNat + y.toNat using Nat.strong_induction_on generalizing x y with
  | _ size ih =>
    subst size
    have advance {z : BitVec w} (nonzero : z ≠ 0#w) (gone : rows.reduce z = 0#w) :
        rows.row (top z) ≠ 0#w ∧ (z ^^^ rows.row (top z)).toNat < z.toNat ∧
          rows.reduce (z ^^^ rows.row (top z)) = 0#w := by
      have taken : rows.row (top z) ≠ 0#w := by
        intro free
        rw [Rows.reduce, if_neg nonzero, if_pos free] at gone
        exact nonzero gone
      exact ⟨taken, xor_lt nonzero taken (rows.leading _ taken),
        (rows.reduce_step nonzero taken) ▸ gone⟩
    by_cases zeroLeft : x = 0#w
    · rwa [zeroLeft, BitVec.zero_xor]
    by_cases zeroRight : y = 0#w
    · rwa [zeroRight, BitVec.xor_zero]
    obtain ⟨takenLeft, smallerLeft, goneLeft⟩ := advance zeroLeft left
    obtain ⟨takenRight, smallerRight, goneRight⟩ := advance zeroRight right
    rcases Nat.lt_trichotomy (top x) (top y) with below | same | above
    · have leading := top_xor zeroRight (.inr below)
      rw [BitVec.xor_comm, rows.reduce_step leading.1 (by rw [leading.2]; exact takenRight), leading.2,
        BitVec.xor_assoc, BitVec.xor_comm x, ← BitVec.xor_assoc]
      exact ih _ (by omega) goneRight left rfl
    · have regroup : x ^^^ y = (x ^^^ rows.row (top x)) ^^^ (y ^^^ rows.row (top y)) := by
        rw [same, BitVec.xor_assoc x, BitVec.xor_comm y, ← BitVec.xor_assoc (rows.row (top y)),
          BitVec.xor_self, BitVec.zero_xor]
      rw [regroup]
      exact ih _ (by omega) goneLeft goneRight rfl
    · have leading := top_xor zeroLeft (.inr above)
      rw [rows.reduce_step leading.1 (by rw [leading.2]; exact takenLeft), leading.2,
        BitVec.xor_assoc, BitVec.xor_comm y, ← BitVec.xor_assoc]
      exact ih _ (by omega) goneLeft right rfl

/-- A word reduces to zero exactly when it is a sum of rows. -/
theorem Rows.reduce_eq_zero_iff (value : BitVec w) :
    rows.reduce value = 0#w ↔ Span rows.Holds value := by
  constructor
  · intro zero
    have spec := (rows.reduce_spec value).1
    rwa [zero, BitVec.xor_zero] at spec
  · intro inside
    induction inside with
    | zero => exact rows.reduce_zero
    | xor _ member ih =>
      refine rows.reduce_add ih ?_
      obtain ⟨p, rfl⟩ := member
      by_cases free : rows.row p = 0#w
      · rw [free, rows.reduce_zero]
      · have at_ := rows.leading p free
        rw [rows.reduce_step free (by rw [at_]; exact free), at_, BitVec.xor_self, rows.reduce_zero]

/-! ## The rank -/

/-- Inserting a word adds it to the span. -/
theorem Rows.span_insert (value x : BitVec w) :
    Span (rows.insert value).1.Holds x ↔ Span (fun y => rows.Holds y ∨ y = value) x := by
  have changed := (rows.reduce_spec value).1
  rw [Rows.insert]
  split
  case isTrue zero =>
    rw [zero, BitVec.xor_zero] at changed
    refine ⟨fun inside => inside.bind fun y member => .single (.inl member), fun inside =>
      inside.bind fun y member => ?_⟩
    rcases member with held | rfl
    · exact .single held
    · exact changed
  case isFalse nonzero =>
    have free := (rows.reduce_spec value).2 nonzero
    have placed : (rows.place (rows.reduce value)).row (top (rows.reduce value)) = rows.reduce value :=
      if_pos rfl
    constructor
    · intro inside
      refine inside.bind fun y member => ?_
      obtain ⟨p, rfl⟩ := member
      by_cases here : p = top (rows.reduce value)
      · -- the new row is the word plus a sum of old rows
        rw [here, placed]
        have sum := (Span.single (S := fun y => rows.Holds y ∨ y = value) (.inr rfl)).add
          (changed.bind fun y member => .single (.inl member))
        rwa [← BitVec.xor_assoc, BitVec.xor_self, BitVec.zero_xor] at sum
      · exact .single (.inl ⟨p, (if_neg here).symm⟩)
    · intro inside
      have old : ∀ y, rows.Holds y → Span (rows.place (rows.reduce value)).Holds y := by
        rintro y ⟨p, rfl⟩
        by_cases here : p = top (rows.reduce value)
        · rw [here, free]
          exact .zero
        · exact .single ⟨p, if_neg here⟩
      refine inside.bind fun y member => ?_
      rcases member with held | rfl
      · exact old y held
      · have sum := (changed.bind old).add (Span.single ⟨_, placed⟩)
        rwa [BitVec.xor_assoc, BitVec.xor_self, BitVec.xor_zero] at sum

theorem Rows.insert_added (value : BitVec w) :
    (rows.insert value).2 = true ↔ ¬ Span rows.Holds value := by
  rw [← rows.reduce_eq_zero_iff, Rows.insert]
  split <;> simp [*]

end

theorem eliminate_concat (values : List (BitVec w)) (value : BitVec w) :
    eliminate (values ++ [value]) =
      (((eliminate values).1.insert value).1,
        if ((eliminate values).1.insert value).2 then (eliminate values).2 + 1
        else (eliminate values).2) := by
  rw [eliminate, List.foldl_append]
  rfl

theorem span_eliminate (values : List (BitVec w)) (x : BitVec w) :
    Span (eliminate values).1.Holds x ↔ Span (· ∈ values) x := by
  induction values using List.reverseRecOn generalizing x with
  | nil =>
    refine ⟨fun inside => inside.bind fun y member => ?_, fun inside => inside.bind fun y member => ?_⟩
    · obtain ⟨p, rfl⟩ := member
      exact .zero
    · exact absurd member List.not_mem_nil
  | append_singleton values value ih =>
    rw [eliminate_concat, Rows.span_insert]
    constructor
    · intro inside
      refine inside.bind fun y member => ?_
      rcases member with held | rfl
      · refine ((ih y).1 (.single held)).bind fun z member => .single ?_
        exact List.mem_append_left _ member
      · exact .single (List.mem_append_right _ (List.mem_singleton_self _))
    · intro inside
      refine inside.bind fun y member => ?_
      rcases List.mem_append.1 member with early | last
      · exact ((ih y).2 (.single early)).bind fun z member => .single (.inl member)
      · exact .single (.inr (List.mem_singleton.1 last))

/-- The rank grows exactly by the words that are not sums of the earlier ones. -/
theorem rank_concat (values : List (BitVec w)) (value : BitVec w) :
    (eliminate (values ++ [value])).2 = (eliminate values).2 ∧ Span (· ∈ values) value ∨
      (eliminate (values ++ [value])).2 = (eliminate values).2 + 1 ∧
        ¬ Span (· ∈ values) value := by
  rw [eliminate_concat, ← span_eliminate]
  by_cases inside : Span (eliminate values).1.Holds value
  · have kept : ((eliminate values).1.insert value).2 = false := by
      rw [← Bool.not_eq_true, Rows.insert_added, not_not]
      exact inside
    exact .inl ⟨by rw [kept]; rfl, inside⟩
  · have added : ((eliminate values).1.insert value).2 = true := (Rows.insert_added _ _).2 inside
    exact .inr ⟨by rw [added, if_pos rfl], inside⟩

/-- The rank is full when no word is a sum of the earlier ones. -/
theorem rank_eq_length {values : List (BitVec w)}
    (apart : ∀ n value, values[n]? = some value → ¬ Span (· ∈ values.take n) value) :
    (eliminate values).2 = values.length := by
  induction values using List.reverseRecOn with
  | nil => rfl
  | append_singleton values value ih =>
    have last := apart values.length value (by simp)
    rw [List.take_left] at last
    have before := ih fun n other found => by
      have inside : n < values.length := (List.getElem?_eq_some_iff.1 found).1
      have whole := apart n other (by rw [List.getElem?_append_left inside, found])
      rwa [List.take_append_of_le_length inside.le] at whole
    rcases rank_concat values value with ⟨-, inside⟩ | ⟨grown, -⟩
    · exact absurd inside last
    · rw [grown, before, List.length_append, List.length_singleton]

end Lib.Echelon
