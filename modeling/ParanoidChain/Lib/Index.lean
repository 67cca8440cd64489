import ParanoidChain.Lib.Overlay
import Mathlib.Data.List.AList

/-!
# Indexes over a table

A table of entries under their owners is kept together with indexes derived from it: for each key an
entry claims, the owner that claims it, and an ordered map from the rank of an entry to its owner.
`Claimed` and `Ranked` say that such an index is the one the table determines. Each has a rule for
an entry that joins, one that leaves and one that changes in a way the index does not see, and these
are the only ways a table moves.

`tally` adds a weight over the entries of a table, whatever order they are kept in.
-/

namespace Lib

universe u v w

/-! ## Storing one value under many keys -/

section Assign

variable {K : Type u} {V : Type v} [DecidableEq K]

/-- The map after one value is stored under several keys. -/
def assign (map : K → V) (keys : List K) (value : V) : K → V :=
  keys.foldl (fun map key => Function.update map key value) map

@[simp] theorem assign_nil (map : K → V) (value : V) : assign map [] value = map := rfl

theorem assign_append (map : K → V) (first second : List K) (value : V) :
    assign map (first ++ second) value = assign (assign map first value) second value :=
  List.foldl_append

theorem assign_apply (map : K → V) (keys : List K) (value : V) (key : K) :
    assign map keys value key = if key ∈ keys then value else map key := by
  induction keys generalizing map with
  | nil => simp
  | cons first keys ih =>
    rw [assign, List.foldl_cons, ← assign, ih]
    by_cases later : key ∈ keys
    · simp [later]
    · simp [later, Function.update_apply]

end Assign

/-! ## Claimed keys -/

section Claimed

variable {I : Type u} {E : Type v} {K : Type w} {entries : I → Option E} {claims : E → List K}
  {index : K → Option I} {owner : I} {entry : E}

/-- The index holds exactly the keys the entries claim, each under the owner of its entry. -/
def Claimed (entries : I → Option E) (claims : E → List K) (index : K → Option I) : Prop :=
  ∀ key owner, index key = some owner ↔ ∃ entry, entries owner = some entry ∧ key ∈ claims entry

theorem claimed_empty (claims : E → List K) :
    Claimed (fun _ : I => none) claims (fun _ => none) := by
  simp [Claimed]

/-- No key is claimed by two owners. -/
theorem Claimed.unique (claimed : Claimed entries claims index) {other : I} {entry' : E} {key : K}
    (held : entries owner = some entry) (held' : entries other = some entry')
    (claims_key : key ∈ claims entry) (claims_key' : key ∈ claims entry') : owner = other := by
  have first := (claimed key owner).mpr ⟨entry, held, claims_key⟩
  have second := (claimed key other).mpr ⟨entry', held', claims_key'⟩
  exact Option.some.inj (first.symm.trans second)

variable [DecidableEq I]

/-- An entry changes but claims the same keys. -/
theorem Claimed.replace {changed : E} (claimed : Claimed entries claims index)
    (held : entries owner = some entry) (same : claims changed = claims entry) :
    Claimed (Function.update entries owner (some changed)) claims index := by
  intro key other
  rw [claimed key other]
  by_cases here : other = owner
  · subst here
    simp [held, same]
  · rw [Function.update_of_ne here]

variable [DecidableEq K]

/-- An entry joins whose keys are free. -/
theorem Claimed.add (claimed : Claimed entries claims index) (fresh : entries owner = none)
    (free : ∀ key ∈ claims entry, index key = none) :
    Claimed (Function.update entries owner (some entry)) claims
      (assign index (claims entry) (some owner)) := by
  intro key other
  rw [assign_apply]
  by_cases here : other = owner
  · subst here
    rw [Function.update_self]
    split
    case isTrue named => simp [named]
    case isFalse unnamed =>
      rw [claimed key other]
      simp [fresh, unnamed]
  · rw [Function.update_of_ne here]
    split
    case isTrue named =>
      have absent := free key named
      have none : ¬ ∃ entry, entries other = some entry ∧ key ∈ claims entry := fun held => by
        rw [← claimed key other, absent] at held
        cases held
      simp [none, Ne.symm here]
    case isFalse => exact claimed key other

/-- An entry leaves and frees its keys. -/
theorem Claimed.remove (claimed : Claimed entries claims index) (held : entries owner = some entry) :
    Claimed (Function.update entries owner none) claims (assign index (claims entry) none) := by
  intro key other
  rw [assign_apply]
  by_cases here : other = owner
  · subst here
    rw [Function.update_self]
    split
    case isTrue => simp
    case isFalse unnamed =>
      rw [claimed key other]
      simp [held, unnamed]
  · rw [Function.update_of_ne here]
    split
    case isTrue named =>
      simp only [reduceCtorEq, false_iff]
      rintro ⟨entry', held', named'⟩
      exact here (claimed.unique held' held named' named)
    case isFalse => exact claimed key other

end Claimed

/-! ## Ordered maps again -/

namespace SortedMap

variable {V : Type u} {map : List (Nat × V)}

/-- Remove one key of an ordered map. -/
def erase (key : Nat) (map : List (Nat × V)) : List (Nat × V) :=
  map.filter fun entry => entry.1 ≠ key

@[simp] theorem mem_erase {key : Nat} {entry : Nat × V} :
    entry ∈ erase key map ↔ entry ∈ map ∧ entry.1 ≠ key := by
  simp [erase]

theorem Ascending.erase (asc : Ascending map) (key : Nat) : Ascending (erase key map) :=
  List.Pairwise.filter _ asc

theorem mem_insert (asc : Ascending map) {key : Nat} {value : V} {entry : Nat × V} :
    entry ∈ insert key value map ↔ entry = (key, value) ∨ (entry ∈ map ∧ entry.1 ≠ key) := by
  induction map with
  | nil => simp [insert]
  | cons first rest ih =>
    obtain ⟨other, held⟩ := first
    obtain ⟨below, rest_asc⟩ := List.pairwise_cons.mp asc
    rw [insert]
    split
    case isTrue less =>
      have apart : ∀ entry ∈ (other, held) :: rest, entry.1 ≠ key := by
        intro entry member
        rcases List.mem_cons.mp member with rfl | later
        · exact (Nat.ne_of_lt less).symm
        · exact (Nat.ne_of_lt (less.trans (below entry later))).symm
      rw [List.mem_cons, and_iff_left_of_imp (apart entry)]
    case isFalse notLess =>
      split
      case isTrue same =>
        subst same
        have apart : ∀ entry ∈ rest, entry.1 ≠ key := fun entry later =>
          (Nat.ne_of_lt (below entry later)).symm
        simp only [List.mem_cons]
        constructor
        · rintro (rfl | later)
          · exact .inl rfl
          · exact .inr ⟨.inr later, apart entry later⟩
        · rintro (rfl | ⟨rfl | later, differs⟩)
          · exact .inl rfl
          · exact absurd rfl differs
          · exact .inr later
      case isFalse differs =>
        rw [List.mem_cons, ih rest_asc, List.mem_cons]
        constructor
        · rintro (rfl | rfl | ⟨later, apart⟩)
          · exact .inr ⟨.inl rfl, fun same => differs same.symm⟩
          · exact .inl rfl
          · exact .inr ⟨.inr later, apart⟩
        · rintro (rfl | ⟨rfl | later, apart⟩)
          · exact .inr (.inl rfl)
          · exact .inl rfl
          · exact .inr (.inr ⟨later, apart⟩)

end SortedMap

/-! ## Ranked entries -/

section Ranked

variable {I : Type u} {E : Type v} {entries : I → Option E} {rank : I → E → Nat}
  {index : List (Nat × I)} {owner : I} {entry : E}

/-- The ordered index holds every entry once, under its rank. -/
structure Ranked (entries : I → Option E) (rank : I → E → Nat) (index : List (Nat × I)) : Prop where
  ascending : SortedMap.Ascending index
  mem : ∀ key owner, (key, owner) ∈ index ↔
    ∃ entry, entries owner = some entry ∧ key = rank owner entry

theorem ranked_empty (rank : I → E → Nat) : Ranked (fun _ => none) rank [] where
  ascending := .nil
  mem := by simp

variable [DecidableEq I]

/-- An entry joins; no rank belongs to two owners. -/
theorem Ranked.add (ranked : Ranked entries rank index)
    (apart : ∀ first second entry entry', rank first entry = rank second entry' → first = second)
    (fresh : entries owner = none) :
    Ranked (Function.update entries owner (some entry)) rank
      (SortedMap.insert (rank owner entry) owner index) where
  ascending := ranked.ascending.insert
  mem key other := by
    rw [SortedMap.mem_insert ranked.ascending, ranked.mem]
    by_cases here : other = owner
    · subst here
      simp [fresh]
    · rw [Function.update_of_ne here]
      constructor
      · rintro (same | ⟨held, -⟩)
        · exact absurd (Prod.mk.inj same).2 here
        · exact held
      · rintro ⟨entry', held, rfl⟩
        exact .inr ⟨⟨entry', held, rfl⟩, fun same => here (apart _ _ _ _ same)⟩

/-- An entry leaves. -/
theorem Ranked.remove (ranked : Ranked entries rank index)
    (apart : ∀ first second entry entry', rank first entry = rank second entry' → first = second)
    (held : entries owner = some entry) :
    Ranked (Function.update entries owner none) rank
      (SortedMap.erase (rank owner entry) index) where
  ascending := ranked.ascending.erase _
  mem key other := by
    rw [SortedMap.mem_erase, ranked.mem]
    by_cases here : other = owner
    · subst here
      simp [held]
    · rw [Function.update_of_ne here]
      refine and_iff_left_of_imp ?_
      rintro ⟨entry', -, rfl⟩ same
      exact here (apart _ _ _ _ same)

/-- An entry changes but keeps its rank. -/
theorem Ranked.replace {changed : E} (ranked : Ranked entries rank index)
    (held : entries owner = some entry) (same : rank owner changed = rank owner entry) :
    Ranked (Function.update entries owner (some changed)) rank index where
  ascending := ranked.ascending
  mem key other := by
    rw [ranked.mem]
    by_cases here : other = owner
    · subst here
      simp [held, same]
    · rw [Function.update_of_ne here]

end Ranked

/-! ## Tables -/

section Table

variable {I : Type u} {E : Type v} {table : AList fun _ : I => E} {owner : I} {entry : E}

/-- A weight, added over the entries of a table. -/
def tally (weight : E → Nat) (table : AList fun _ : I => E) : Nat :=
  (table.entries.map fun held => weight held.2).sum

/-- A tally does not depend on the order of the table. -/
theorem tally_perm {other : AList fun _ : I => E} (weight : E → Nat)
    (perm : other.entries.Perm table.entries) : tally weight other = tally weight table :=
  (perm.map _).sum_eq

variable [DecidableEq I]

theorem lookup_insert_eq (table : AList fun _ : I => E) (owner : I) (entry : E) :
    (fun other => (table.insert owner entry).lookup other) =
      Function.update (fun other => table.lookup other) owner (some entry) := by
  funext other
  by_cases here : other = owner
  · subst here
    simp
  · rw [Function.update_of_ne here, AList.lookup_insert_ne here]

theorem lookup_erase_eq (table : AList fun _ : I => E) (owner : I) :
    (fun other => (table.erase owner).lookup other) =
      Function.update (fun other => table.lookup other) owner none := by
  funext other
  by_cases here : other = owner
  · subst here
    simp
  · rw [Function.update_of_ne here, AList.lookup_erase_ne here]

theorem tally_insert (weight : E → Nat) (fresh : owner ∉ table) :
    tally weight (table.insert owner entry) = weight entry + tally weight table := by
  rw [tally, AList.entries_insert_of_notMem fresh, List.map_cons, List.sum_cons, tally]

theorem tally_erase (weight : E → Nat) (held : table.lookup owner = some entry) :
    tally weight table = weight entry + tally weight (table.erase owner) := by
  have present : owner ∈ table.entries.keys := AList.lookup_isSome.mp (by rw [held]; rfl)
  obtain ⟨entry', before, after, -, whole, rest⟩ := List.exists_of_kerase present
  have same : entry' = entry := by
    have member : (⟨owner, entry'⟩ : Sigma fun _ : I => E) ∈ table.entries := by simp [whole]
    have found : entry' ∈ table.lookup owner := AList.mem_lookup_iff.mpr member
    rw [held] at found
    exact (Option.some.inj found).symm
  subst same
  have erased : (table.erase owner).entries = before ++ after := rest
  rw [tally, tally, erased, whole]
  simp only [List.map_append, List.map_cons, List.sum_append, List.sum_cons]
  omega

/-- An entry changes but keeps its weight. -/
theorem tally_replace {changed : E} (weight : E → Nat) (held : table.lookup owner = some entry)
    (same : weight changed = weight entry) :
    tally weight (table.insert owner changed) = tally weight table := by
  rw [tally_erase weight held, tally, AList.entries_insert, List.map_cons, List.sum_cons, same]
  rfl

theorem length_replace {changed : E} (held : table.lookup owner = some entry) :
    (table.insert owner changed).entries.length = table.entries.length := by
  have counted : tally (fun _ => 1) (table.insert owner changed) = tally (fun _ => 1) table :=
    tally_replace _ held rfl
  simpa [tally, Nat.add_comm] using counted

end Table

end Lib
