import Mathlib.Algebra.BigOperators.Group.List.Basic
import Mathlib.Algebra.Ring.Nat

/-!
# Windows opened by the first late event

A rate limit with windows of fixed length in which a new window opens not on a grid but at the first
event at or past the end of the current one. `windowed` tags every event of a history with the end
of its window.

Two windows never overlap (`windowed_spaced`), so a span of one period meets at most two of them;
hence a limit per window is a limit of twice as much over any span of one period
(`span_cost_le_two_windows`).
-/

namespace Lib

universe u

variable {α : Type u} (period : Nat) (time : α → Nat)

/-- Tag each event with the end of its window, given the end of the window in force. -/
def windowed : Nat → List α → List (Nat × α)
  | _, [] => []
  | windowEnd, event :: rest =>
    let current := if time event < windowEnd then windowEnd else time event + period
    (current, event) :: windowed current rest

@[simp] theorem windowed_map_snd (windowEnd : Nat) (events : List α) :
    (windowed period time windowEnd events).map Prod.snd = events := by
  induction events generalizing windowEnd with
  | nil => rfl
  | cons event rest ih => simp [windowed, ih]

variable {period time}

variable {windowEnd : Nat} {events : List α}

/-- Every later window is the one in force or ends at least one period after it. -/
theorem windowed_spaced {tagged : Nat × α}
    (member : tagged ∈ windowed period time windowEnd events) :
    tagged.1 = windowEnd ∨ windowEnd + period ≤ tagged.1 := by
  induction events generalizing windowEnd with
  | nil => simp [windowed] at member
  | cons event rest ih =>
    simp only [windowed, List.mem_cons] at member
    by_cases inside : time event < windowEnd
    · rw [if_pos inside] at member
      rcases member with rfl | member
      · exact .inl rfl
      · exact ih member
    · rw [if_neg inside] at member
      rcases member with rfl | member
      · right
        simp only
        omega
      · rcases ih member with same | later <;> omega

/-- Any two windows of one history are equal or a period apart. -/
theorem windowed_pairwise_spaced (windowEnd : Nat) (events : List α) :
    (windowed period time windowEnd events).Pairwise fun first second =>
      second.1 = first.1 ∨ first.1 + period ≤ second.1 := by
  induction events generalizing windowEnd with
  | nil => exact .nil
  | cons event rest ih =>
    exact .cons (fun tagged member => windowed_spaced member) (ih _)

/-- An event lies inside its window, provided time does not run backwards and the window in force
started no later than the history. -/
theorem windowed_inside (pos : 0 < period)
    (ordered : events.Pairwise fun first second => time first ≤ time second)
    (started : ∀ event ∈ events, windowEnd ≤ time event + period) {tagged : Nat × α}
    (member : tagged ∈ windowed period time windowEnd events) :
    time tagged.2 < tagged.1 ∧ tagged.1 ≤ time tagged.2 + period := by
  induction events generalizing windowEnd with
  | nil => simp [windowed] at member
  | cons event rest ih =>
    obtain ⟨first, later⟩ := List.pairwise_cons.mp ordered
    simp only [windowed, List.mem_cons] at member
    by_cases inside : time event < windowEnd
    · rw [if_pos inside] at member
      rcases member with rfl | member
      · exact ⟨inside, started event (List.mem_cons_self ..)⟩
      · exact ih later (fun other among => started other (List.mem_cons_of_mem _ among)) member
    · rw [if_neg inside] at member
      rcases member with rfl | member
      · simp only
        omega
      · exact ih later (fun other among => by have := first other among; omega) member

/-- Cost of the tagged events that satisfy a condition. -/
def costOf (cost : α → Nat) (keep : Nat × α → Bool) (tagged : List (Nat × α)) : Nat :=
  ((tagged.filter keep).map fun entry => cost entry.2).sum

@[simp] theorem costOf_nil (cost : α → Nat) (keep : Nat × α → Bool) : costOf cost keep [] = 0 := rfl

@[simp] theorem costOf_cons (cost : α → Nat) (keep : Nat × α → Bool) (entry : Nat × α)
    (rest : List (Nat × α)) :
    costOf cost keep (entry :: rest) =
      (if keep entry then cost entry.2 else 0) + costOf cost keep rest := by
  by_cases kept : keep entry <;> simp [costOf, kept]

/-- A window that ended before the one in force costs nothing more. -/
theorem costOf_closed {cost : α → Nat} {window : Nat} (closed : window < windowEnd) :
    costOf cost (fun entry => entry.1 == window) (windowed period time windowEnd events) = 0 := by
  have none : (windowed period time windowEnd events).filter (fun entry => entry.1 == window) =
      [] := by
    refine List.filter_eq_nil_iff.mpr fun entry member same => ?_
    have := windowed_spaced member
    rw [beq_iff_eq] at same
    omega
  simp [costOf, none]

/-- A condition that implies one of two others costs no more than both. -/
theorem costOf_le_add {cost : α → Nat} {keep first second : Nat × α → Bool}
    {tagged : List (Nat × α)}
    (covers : ∀ entry ∈ tagged, keep entry = true → first entry = true ∨ second entry = true) :
    costOf cost keep tagged ≤ costOf cost first tagged + costOf cost second tagged := by
  induction tagged with
  | nil => simp
  | cons entry rest ih =>
    have below := ih fun other among => covers other (List.mem_cons_of_mem _ among)
    have here := covers entry (List.mem_cons_self ..)
    simp only [costOf_cons]
    by_cases kept : keep entry = true
    · rcases here kept with held | held <;> simp only [kept, held, if_true] <;> omega
    · rw [if_neg kept]
      omega

/-- Two events of one history are in the same window or in windows a period apart. -/
theorem windowed_apart {first second : Nat × α}
    (left : first ∈ windowed period time windowEnd events)
    (right : second ∈ windowed period time windowEnd events) :
    first.1 = second.1 ∨ first.1 + period ≤ second.1 ∨ second.1 + period ≤ first.1 := by
  have spaced : (windowed period time windowEnd events).Pairwise fun first second =>
      second.1 = first.1 ∨ first.1 + period ≤ second.1 := windowed_pairwise_spaced windowEnd events
  exact List.Pairwise.forall_of_forall_of_flip
    (R := fun first second : Nat × α =>
      first.1 = second.1 ∨ first.1 + period ≤ second.1 ∨ second.1 + period ≤ first.1)
    (fun _ _ => .inl rfl) (spaced.imp fun _ => by omega)
    (spaced.imp fun _ => by simp only [flip]; omega) left right

/-- A limit per window bounds every span of one period by twice as much. -/
theorem span_cost_le_two_windows {cost : α → Nat} {budget : Nat} (pos : 0 < period)
    (ordered : events.Pairwise fun first second => time first ≤ time second)
    (started : ∀ event ∈ events, windowEnd ≤ time event + period)
    (limit : ∀ window, costOf cost (fun entry => entry.1 == window)
      (windowed period time windowEnd events) ≤ budget) (start : Nat) :
    ((events.filter fun event => decide (start ≤ time event ∧ time event < start + period)).map
      cost).sum ≤ 2 * budget := by
  let history := windowed period time windowEnd events
  let inSpan (entry : Nat × α) : Bool :=
    decide (start ≤ time entry.2 ∧ time entry.2 < start + period)
  have spanned : ((events.filter fun event =>
      decide (start ≤ time event ∧ time event < start + period)).map cost).sum =
      costOf cost inSpan history := by
    have untagged := windowed_map_snd period time windowEnd events
    conv_lhs => rw [← untagged]
    rw [List.filter_map, List.map_map]
    rfl
  -- every window an event of the span belongs to ends less than two periods after its start
  have near (entry) (member : entry ∈ history) (kept : inSpan entry = true) :
      start < entry.1 ∧ entry.1 < start + 2 * period := by
    have inside := windowed_inside pos ordered started member
    have span : start ≤ time entry.2 ∧ time entry.2 < start + period := of_decide_eq_true kept
    omega
  have two : ∃ early late, ∀ entry ∈ history, inSpan entry = true →
      (entry.1 == early) = true ∨ (entry.1 == late) = true := by
    by_cases none : ∃ first ∈ history, inSpan first = true
    · obtain ⟨first, firstMember, firstKept⟩ := none
      by_cases one : ∃ second ∈ history, inSpan second = true ∧ second.1 ≠ first.1
      · obtain ⟨second, secondMember, secondKept, differs⟩ := one
        refine ⟨first.1, second.1, fun entry member kept => ?_⟩
        have := near first firstMember firstKept
        have := near second secondMember secondKept
        have := near entry member kept
        have := windowed_apart firstMember secondMember
        have := windowed_apart firstMember member
        have := windowed_apart secondMember member
        simp only [beq_iff_eq]
        omega
      · refine ⟨first.1, first.1, fun entry member kept => .inl ?_⟩
        by_contra differs
        exact one ⟨entry, member, kept, by simpa using differs⟩
    · exact ⟨0, 0, fun entry member kept => absurd ⟨entry, member, kept⟩ none⟩
  obtain ⟨early, late, covers⟩ := two
  calc _ = costOf cost inSpan history := spanned
    _ ≤ costOf cost (fun entry => entry.1 == early) history +
        costOf cost (fun entry => entry.1 == late) history := costOf_le_add covers
    _ ≤ budget + budget := Nat.add_le_add (limit early) (limit late)
    _ = 2 * budget := by omega

end Lib
