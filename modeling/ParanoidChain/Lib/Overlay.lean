import Mathlib.Algebra.Order.BigOperators.Group.Finset
import Mathlib.Algebra.Order.Ring.Nat
import Mathlib.Data.List.TakeWhile

/-!
# Batches of writes to a vector

A vector is a function on indices. `overlay base writes` carries out a batch of writes in order, so
the last write to an index wins. `SortedMap` is the ordered map such a batch is collected in before
it is applied: a list with strictly ascending keys, which overlays to the same vector.

`total weight slots size` adds up a weight over the first `size` places, and the two rules about it
say how one write, and hence a batch, changes it.
-/

namespace Lib

universe u

variable {V : Type u}

/-- Writing a list at an index in range writes the vector it holds. -/
theorem getD_set {list : List V} {index : Nat} (inside : index < list.length) (value d : V) :
    (fun other => (list.set index value).getD other d) =
      Function.update (fun other => list.getD other d) index value := by
  funext other
  by_cases here : other = index
  · subst here
    simp [List.getD_eq_getElem?_getD, inside]
  · rw [Function.update_of_ne here]
    simp [List.getD_eq_getElem?_getD, List.getElem?_set_ne (Ne.symm here)]

theorem getD_set_apply {list : List V} {index : Nat} (inside : index < list.length) (value d : V)
    (other : Nat) :
    (list.set index value).getD other d = if other = index then value else list.getD other d :=
  (congrFun (getD_set inside value d) other).trans (Function.update_apply ..)

/-- The vector after a batch of writes, carried out in order. -/
def overlay (base : Nat → V) (writes : List (Nat × V)) : Nat → V :=
  writes.foldl (fun slots write => Function.update slots write.1 write.2) base

@[simp] theorem overlay_nil (base : Nat → V) : overlay base [] = base := rfl

theorem overlay_cons (base : Nat → V) (write : Nat × V) (writes : List (Nat × V)) :
    overlay base (write :: writes) = overlay (Function.update base write.1 write.2) writes := rfl

theorem overlay_append (base : Nat → V) (first second : List (Nat × V)) :
    overlay base (first ++ second) = overlay (overlay base first) second :=
  List.foldl_append

variable {writes : List (Nat × V)} {key : Nat}

/-- A batch leaves the indices it does not name alone. -/
theorem overlay_of_not_mem {base : Nat → V} (unnamed : key ∉ writes.map Prod.fst) :
    overlay base writes key = base key := by
  induction writes generalizing base with
  | nil => rfl
  | cons write writes ih =>
    simp only [List.map_cons, List.mem_cons, not_or] at unnamed
    rw [overlay_cons, ih unnamed.2, Function.update_of_ne unnamed.1]

/-- What a batch leaves at an index it names does not depend on the vector it started from. -/
theorem overlay_of_mem {first second : Nat → V} (named : key ∈ writes.map Prod.fst) :
    overlay first writes key = overlay second writes key := by
  induction writes generalizing first second with
  | nil => simp at named
  | cons write writes ih =>
    rw [overlay_cons, overlay_cons]
    by_cases later : key ∈ writes.map Prod.fst
    · exact ih later
    · rw [overlay_of_not_mem later, overlay_of_not_mem later]
      obtain rfl : key = write.1 := by simpa [later] using named
      simp

/-- Two vectors that agree at an index agree there after the same batch. -/
theorem overlay_congr {first second : Nat → V} (same : first key = second key) :
    overlay first writes key = overlay second writes key := by
  by_cases named : key ∈ writes.map Prod.fst
  · exact overlay_of_mem named
  · rw [overlay_of_not_mem named, overlay_of_not_mem named, same]

/-- When no index is written twice, each write is what the batch leaves at its index. -/
theorem overlay_mem (distinct : (writes.map Prod.fst).Nodup) {write : Nat × V}
    (member : write ∈ writes) (base : Nat → V) :
    overlay base writes write.1 = write.2 := by
  induction writes generalizing base with
  | nil => cases member
  | cons first rest ih =>
    obtain ⟨unique, others⟩ := List.nodup_cons.mp distinct
    rw [overlay_cons]
    rcases List.mem_cons.mp member with rfl | later
    · rw [overlay_of_not_mem unique, Function.update_self]
    · exact ih others later _

/-- Different indices read back the values written to them. -/
theorem map_overlay_zip {indices : List Nat} {values : List V} (distinct : indices.Nodup)
    (length : values.length = indices.length) (base : Nat → V) :
    indices.map (overlay base (indices.zip values)) = values := by
  have keys : (indices.zip values).map Prod.fst = indices := List.map_fst_zip (by omega)
  calc indices.map (overlay base (indices.zip values))
      = ((indices.zip values).map Prod.fst).map (overlay base (indices.zip values)) := by rw [keys]
    _ = (indices.zip values).map Prod.snd := by
        rw [List.map_map]
        exact List.map_congr_left fun write member => overlay_mem (keys.symm ▸ distinct) member base
    _ = values := List.map_snd_zip (by omega)

/-! ## Ordered maps -/

namespace SortedMap

/-- Insert or replace one entry of an ordered map. -/
def insert (key : Nat) (value : V) : List (Nat × V) → List (Nat × V)
  | [] => [(key, value)]
  | (first, held) :: rest =>
    if key < first then (key, value) :: (first, held) :: rest
    else if key = first then (key, value) :: rest
    else (first, held) :: insert key value rest

/-- The map a batch of writes is collected in. -/
def ofWrites (writes : List (Nat × V)) : List (Nat × V) :=
  writes.foldl (fun map write => insert write.1 write.2 map) []

/-- The keys ascend, so no key occurs twice. -/
def Ascending (map : List (Nat × V)) : Prop := map.Pairwise fun first second => first.1 < second.1

variable {map : List (Nat × V)}

theorem mem_keys_insert {key : Nat} {value : V} {other : Nat} :
    other ∈ (insert key value map).map Prod.fst ↔ other = key ∨ other ∈ map.map Prod.fst := by
  induction map with
  | nil => simp [insert]
  | cons entry rest ih =>
    obtain ⟨first, held⟩ := entry
    rw [insert]
    split
    · simp
    · split
      · subst key
        simp
      · simp only [List.map_cons, List.mem_cons, ih]
        tauto

theorem Ascending.insert {key : Nat} {value : V} (asc : Ascending map) :
    Ascending (insert key value map) := by
  induction map with
  | nil => simp [Ascending, SortedMap.insert]
  | cons entry rest ih =>
    obtain ⟨first, held⟩ := entry
    obtain ⟨below, rest_asc⟩ := List.pairwise_cons.mp asc
    rw [SortedMap.insert]
    split
    case isTrue less =>
      refine List.pairwise_cons.mpr ⟨?_, asc⟩
      rintro ⟨other, value⟩ (_ | ⟨_, later⟩)
      · exact less
      · exact less.trans (below _ later)
    case isFalse notLess =>
      split
      case isTrue same =>
        subst key
        exact List.pairwise_cons.mpr ⟨below, rest_asc⟩
      case isFalse apart =>
        refine List.pairwise_cons.mpr ⟨?_, ih rest_asc⟩
        intro entry inside
        have named := List.mem_map_of_mem (f := Prod.fst) inside
        rcases mem_keys_insert.mp named with here | later
        · show first < entry.1
          omega
        · obtain ⟨held, inside, same⟩ := List.mem_map.mp later
          exact same ▸ below held inside

variable {entry : Nat × V}

/-- In an ordered map no later entry repeats the first key. -/
theorem Ascending.head_not_mem {rest : List (Nat × V)} (asc : Ascending (entry :: rest)) :
    entry.1 ∉ rest.map Prod.fst := by
  intro named
  obtain ⟨held, inside, same⟩ := List.mem_map.mp named
  have := (List.pairwise_cons.mp asc).1 held inside
  omega

/-- Carrying out the first entry leaves the places of the later ones alone. -/
theorem Ascending.update_of_mem {other : Nat × V} {rest : List (Nat × V)}
    (asc : Ascending (entry :: rest)) (member : other ∈ rest) (base : Nat → V) :
    Function.update base entry.1 entry.2 other.1 = base other.1 := by
  refine Function.update_of_ne (fun same => asc.head_not_mem ?_) _ _
  exact same ▸ List.mem_map_of_mem (f := Prod.fst) member

theorem Ascending.nodup_keys (asc : Ascending map) :
    (map.map Prod.fst).Nodup :=
  List.pairwise_map.mpr (asc.imp fun less => Nat.ne_of_lt less)

/-- An ordered map leaves its own entry at each of its keys. -/
theorem Ascending.overlay_mem (asc : Ascending map) (member : entry ∈ map) (base : Nat → V) :
    overlay base map entry.1 = entry.2 :=
  Lib.overlay_mem asc.nodup_keys member base

/-- Where an ordered map is cut at a key, the rest has the keys from there on. -/
theorem Ascending.le_of_mem_dropWhile (asc : Ascending map) {bound : Nat}
    (member : entry ∈ map.dropWhile fun entry => entry.1 < bound) :
    bound ≤ entry.1 := by
  induction map with
  | nil => simp at member
  | cons first rest ih =>
    obtain ⟨below, rest_asc⟩ := List.pairwise_cons.mp asc
    rw [List.dropWhile_cons] at member
    split at member
    · exact ih rest_asc member
    · rename_i reached
      simp only [decide_eq_true_eq, not_lt] at reached
      rcases List.mem_cons.mp member with rfl | later
      · exact reached
      · exact reached.trans (below entry later).le

theorem overlay_insert {base : Nat → V} {key : Nat} {value : V} (asc : Ascending map) :
    overlay base (insert key value map) = Function.update (overlay base map) key value := by
  induction map generalizing base with
  | nil => rfl
  | cons entry rest ih =>
    obtain ⟨first, held⟩ := entry
    have unique := asc.head_not_mem
    obtain ⟨below, rest_asc⟩ := List.pairwise_cons.mp asc
    rw [insert]
    split
    case isTrue less =>
      funext index
      rw [overlay_cons]
      by_cases here : index = key
      · subst here
        rw [Function.update_self, overlay_of_not_mem, Function.update_self]
        intro named
        rcases List.mem_map.mp named with ⟨other, inside, same⟩
        rcases List.mem_cons.mp inside with rfl | later
        · simp at same
          omega
        · have := below other later
          simp at this
          omega
      · rw [Function.update_of_ne here]
        exact overlay_congr (Function.update_of_ne here _ _)
    case isFalse notLess =>
      split
      case isTrue same =>
        subst key
        funext index
        rw [overlay_cons, overlay_cons]
        by_cases here : index = first
        · subst here
          rw [Function.update_self, overlay_of_not_mem unique, Function.update_self]
        · rw [Function.update_of_ne here]
          exact overlay_congr (by simp [Function.update_of_ne here])
      case isFalse apart => rw [overlay_cons, overlay_cons, ih rest_asc]

/-- Collecting a batch in an ordered map keeps its effect. -/
theorem ofWrites_spec (writes : List (Nat × V)) :
    Ascending (ofWrites writes) ∧
      (∀ base, overlay base (ofWrites writes) = overlay base writes) ∧
      ∀ key, key ∈ (ofWrites writes).map Prod.fst ↔ key ∈ writes.map Prod.fst := by
  induction writes using List.reverseRecOn with
  | nil => exact ⟨List.Pairwise.nil, fun _ => rfl, fun _ => Iff.rfl⟩
  | append_singleton writes write ih =>
    obtain ⟨asc, same, keys⟩ := ih
    have last : ofWrites (writes ++ [write]) = insert write.1 write.2 (ofWrites writes) :=
      List.foldl_append
    refine ⟨last ▸ asc.insert, fun base => ?_, fun key => ?_⟩
    · rw [last, overlay_insert asc, same, overlay_append, overlay_cons, overlay_nil]
    · rw [last, mem_keys_insert, keys]
      simp [or_comm]

/-- Properties of the written places alone pass to the ordered map. -/
theorem forall_ofWrites (P : Nat → Prop) {writes : List (Nat × V)}
    (held : ∀ write ∈ writes, P write.1) : ∀ write ∈ ofWrites writes, P write.1 := by
  intro write member
  obtain ⟨other, found, same⟩ := List.mem_map.mp
    (((ofWrites_spec writes).2.2 write.1).mp (List.mem_map_of_mem member))
  exact same ▸ held other found

end SortedMap

/-! ## Totals -/

/-- A weight added up over the first `size` places of a vector. -/
def total (weight : V → Nat) (slots : Nat → V) (size : Nat) : Nat :=
  ∑ index ∈ Finset.range size, weight (slots index)

/-- One write replaces the weight of what it overwrites. -/
theorem total_update (weight : V → Nat) (slots : Nat → V) {size : Nat} (inside : key < size)
    (value : V) :
    total weight (Function.update slots key value) size + weight (slots key) =
      total weight slots size + weight value := by
  have member : key ∈ Finset.range size := Finset.mem_range.mpr inside
  unfold total
  rw [← Finset.add_sum_erase _ _ member, ← Finset.add_sum_erase _ (fun i => weight (slots i)) member,
    Function.update_self]
  have rest : ∑ index ∈ (Finset.range size).erase key,
      weight (Function.update slots key value index) =
      ∑ index ∈ (Finset.range size).erase key, weight (slots index) :=
    Finset.sum_congr rfl fun index other => by
      rw [Function.update_of_ne (Finset.ne_of_mem_erase other)]
  omega

variable {weight : V → Nat} {slots : Nat → V} {size : Nat}

theorem total_congr {others : Nat → V} (same : ∀ index < size, slots index = others index) :
    total weight slots size = total weight others size :=
  Finset.sum_congr rfl fun index inside => by rw [same index (Finset.mem_range.mp inside)]

/-- The places past a shorter vector count nothing when they weigh nothing. -/
theorem total_extend {longer : Nat} (grows : size ≤ longer)
    (light : ∀ index, size ≤ index → index < longer → weight (slots index) = 0) :
    total weight slots longer = total weight slots size := by
  symm
  refine Finset.sum_subset (Finset.range_subset_range.mpr grows) fun index inside outside => ?_
  simp only [Finset.mem_range, not_lt] at inside outside
  exact light index outside inside

/-- A batch that writes no index twice replaces the weights of what it overwrites. -/
theorem total_overlay (weight : V → Nat) (base : Nat → V) (distinct : (writes.map Prod.fst).Nodup)
    (inside : ∀ write ∈ writes, write.1 < size) :
    total weight (overlay base writes) size + (writes.map fun write => weight (base write.1)).sum =
      total weight base size + (writes.map fun write => weight write.2).sum := by
  induction writes generalizing base with
  | nil => simp
  | cons write rest ih =>
    obtain ⟨unique, others⟩ := List.nodup_cons.mp distinct
    obtain ⟨here, there⟩ := List.forall_mem_cons.mp inside
    have first := total_update weight base here write.2
    have later := ih (Function.update base write.1 write.2) others there
    -- the later writes go elsewhere, so they still overwrite what the vector held
    have untouched : (rest.map fun other =>
        weight (Function.update base write.1 write.2 other.1)) =
        rest.map fun other => weight (base other.1) :=
      List.map_congr_left fun other member => by
        have apart : other.1 ≠ write.1 := fun same =>
          unique (same ▸ List.mem_map_of_mem (f := Prod.fst) member)
        rw [Function.update_of_ne apart]
    rw [untouched] at later
    rw [overlay_cons, List.map_cons, List.sum_cons, List.map_cons, List.sum_cons]
    omega

/-- No place weighs more than the whole vector. -/
theorem weight_le_total (inside : key < size) :
    weight (slots key) ≤ total weight slots size :=
  Finset.single_le_sum (f := fun index => weight (slots index)) (fun _ _ => Nat.zero_le _)
    (Finset.mem_range.mpr inside)

end Lib
