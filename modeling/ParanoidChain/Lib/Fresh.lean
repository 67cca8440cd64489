import ParanoidChain.Lib.Overlay

/-!
# Identities that are issued once

A vector holds values, some of which carry an identity. A batch of writes is `Fresh` when every
identity it writes is new. Such batches keep each identity at one place (`Tracked`), and an identity
that has left its place never comes back to it (`Retired`), whatever is written there in between.
-/

namespace Lib

universe u v

variable {V : Type u} {Id : Type v} (idOf : V → Option Id)

/-- Every identity in the vector has been issued, and stands at one place only. -/
structure Tracked (issued : Id → Prop) (slots : Nat → V) : Prop where
  known : ∀ {index id}, idOf (slots index) = some id → issued id
  unique : ∀ {index other id},
    idOf (slots index) = some id → idOf (slots other) = some id → index = other

/-- An issued identity that is not at the place. -/
def Retired (issued : Id → Prop) (slots : Nat → V) (index : Nat) (id : Id) : Prop :=
  issued id ∧ idOf (slots index) ≠ some id

/-- The identities a batch writes. -/
def writtenIds (writes : List (Nat × V)) : List Id := writes.filterMap fun write => idOf write.2

/-- A batch that writes each index once and only new identities. -/
structure Fresh (issued later : Id → Prop) (writes : List (Nat × V)) : Prop where
  distinct : (writes.map Prod.fst).Nodup
  once : (writtenIds idOf writes).Nodup
  new : ∀ id ∈ writtenIds idOf writes, ¬ issued id
  issues : ∀ id ∈ writtenIds idOf writes, later id
  grows : ∀ id, issued id → later id

variable {idOf} {issued later : Id → Prop} {slots : Nat → V} {writes : List (Nat × V)}

@[simp] theorem writtenIds_append (first second : List (Nat × V)) :
    writtenIds idOf (first ++ second) = writtenIds idOf first ++ writtenIds idOf second :=
  List.filterMap_append

theorem mem_writtenIds {write : Nat × V} {id : Id} (member : write ∈ writes)
    (carries : idOf write.2 = some id) : id ∈ writtenIds idOf writes :=
  List.mem_filterMap.mpr ⟨write, member, carries⟩

/-- Two writes of one identity are the same write. -/
theorem eq_of_writtenIds {first second : Nat × V} {id : Id}
    (once : (writtenIds idOf writes).Nodup) (firstMem : first ∈ writes)
    (secondMem : second ∈ writes) (left : idOf first.2 = some id)
    (right : idOf second.2 = some id) : first = second := by
  by_contra apart
  have pairs := List.pairwise_filterMap.mp once
  have : Std.Symm fun a b : Nat × V =>
      ∀ x, idOf a.2 = some x → ∀ y, idOf b.2 = some y → x ≠ y :=
    ⟨fun _ _ differ x left y right same => differ y right x left same.symm⟩
  exact pairs.forall firstMem secondMem apart id left id right rfl

/-- What a batch leaves at an index is a write of it, or what stood there. -/
theorem Fresh.read (fresh : Fresh idOf issued later writes) (slots : Nat → V) (index : Nat) :
    (∃ value, (index, value) ∈ writes ∧ overlay slots writes index = value) ∨
      index ∉ writes.map Prod.fst ∧ overlay slots writes index = slots index := by
  by_cases named : index ∈ writes.map Prod.fst
  · obtain ⟨⟨_, value⟩, member, rfl⟩ := List.mem_map.mp named
    exact .inl ⟨value, member, overlay_mem fresh.distinct member slots⟩
  · exact .inr ⟨named, overlay_of_not_mem named⟩

theorem Tracked.overlay (tracked : Tracked idOf issued slots)
    (fresh : Fresh idOf issued later writes) :
    Tracked idOf later (overlay slots writes) where
  known {index id} carries := by
    rcases fresh.read slots index with ⟨value, member, reads⟩ | ⟨-, reads⟩ <;> rw [reads] at carries
    · exact fresh.issues id (mem_writtenIds member carries)
    · exact fresh.grows id (tracked.known carries)
  unique {index other id} left right := by
    rcases fresh.read slots index with ⟨value, member, reads⟩ | ⟨-, reads⟩ <;>
      rcases fresh.read slots other with ⟨value', member', reads'⟩ | ⟨-, reads'⟩ <;>
      rw [reads] at left <;> rw [reads'] at right
    · exact congrArg Prod.fst (eq_of_writtenIds fresh.once member member' left right)
    · exact absurd (tracked.known right) (fresh.new id (mem_writtenIds member left))
    · exact absurd (tracked.known left) (fresh.new id (mem_writtenIds member' right))
    · exact tracked.unique left right

/-- A retired identity stays retired. -/
theorem Retired.overlay {index : Nat} {id : Id} (retired : Retired idOf issued slots index id)
    (fresh : Fresh idOf issued later writes) :
    Retired idOf later (overlay slots writes) index id := by
  refine ⟨fresh.grows id retired.1, fun carries => ?_⟩
  rcases fresh.read slots index with ⟨value, member, reads⟩ | ⟨-, reads⟩ <;> rw [reads] at carries
  · exact fresh.new id (mem_writtenIds member carries) retired.1
  · exact retired.2 carries

/-- An identity that a batch writes over at its place is retired by it. -/
theorem Tracked.retire (tracked : Tracked idOf issued slots)
    (fresh : Fresh idOf issued later writes) {index : Nat} {id : Id}
    (held : idOf (slots index) = some id) (written : index ∈ writes.map Prod.fst) :
    Retired idOf later (Lib.overlay slots writes) index id := by
  have known := tracked.known held
  refine ⟨fresh.grows id known, fun carries => ?_⟩
  rcases fresh.read slots index with ⟨value, member, reads⟩ | ⟨unwritten, -⟩
  · rw [reads] at carries
    exact fresh.new id (mem_writtenIds member carries) known
  · exact unwritten written

end Lib
