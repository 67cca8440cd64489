import ParanoidChain.Lib.Control

/-!
# Programs that keep their state when they fail

A method that mutates its receiver may return an error half way, and what it did before the error
stays done. `Program σ ε α` is such a method: it returns the state it leaves behind whether or not
it succeeds. A process abort is a `Fault.panic`, which `attempt`, the `match` on a result, does not
see.

`Ensures` judges one run by two postconditions, one for success and one for failure. Its rules are
equivalences that follow the text of the program, so rewriting with them turns a judgement about a
whole method into judgements about the calls it makes, and `Ensures.mono` puts the specification of
a call in its place.
-/

namespace Lib

/-- A computation over a state, which is returned also on failure. -/
def Program (σ ε α : Type) : Type := σ → σ × Except ε α

namespace Program

variable {σ ε δ α β : Type}

instance : Monad (Program σ ε) where
  pure a := fun state => (state, .ok a)
  bind program next := fun state =>
    match program state with
    | (after, .ok a) => next a after
    | (after, .error error) => (after, .error error)

/-- A result that does not depend on the state. -/
def ofExcept (result : Except ε α) : Program σ ε α := fun state => (state, result)

/-- A result read off the state. -/
def reads (f : σ → Except ε α) : Program σ ε α := fun state => (state, f state)

def modify (f : σ → σ) : Program σ ε Unit := fun state => (f state, .ok ())

/-! ## Successful runs -/

section Inversion

variable {state after : σ} {program : Program σ ε α} {next : α → Program σ ε β}

/-- A sequence succeeds when both parts do. -/
theorem bind_run_ok {b : β} :
    (program >>= next) state = (after, .ok b) ↔
      ∃ middle a, program state = (middle, .ok a) ∧ next a middle = (after, .ok b) := by
  rcases ran : program state with ⟨middle, error | a⟩ <;> simp [bind, ran]

theorem ofExcept_run {result outcome : Except ε α} :
    (ofExcept result : Program σ ε α) state = (after, outcome) ↔
      state = after ∧ result = outcome := by
  simp [ofExcept]

theorem reads_run {f : σ → Except ε α} {outcome : Except ε α} :
    reads f state = (after, outcome) ↔ state = after ∧ f state = outcome := by
  simp [reads]

theorem modify_run {f : σ → σ} {done : Unit} :
    (modify f : Program σ ε Unit) state = (after, .ok done) ↔ f state = after := by
  simp [modify]

end Inversion

/-! ## Judgements -/

/-- A run from `state` ends in `ok` or in `failed`. -/
def Ensures (program : Program σ ε α) (state : σ) (ok : α → σ → Prop) (failed : ε → σ → Prop) :
    Prop :=
  match program state with
  | (after, .ok a) => ok a after
  | (after, .error error) => failed error after

section Rules

variable {state : σ} {ok : α → σ → Prop} {failed : ε → σ → Prop}

theorem Ensures.of_error {program : Program σ ε α} (held : Ensures program state ok failed)
    {after : σ} {error : ε} (ran : program state = (after, .error error)) : failed error after := by
  simpa [Ensures, ran] using held

/-- Judging a sequence: the second part is judged where the first one ends. -/
@[simp] theorem ensures_bind {program : Program σ ε β} {next : β → Program σ ε α} :
    Ensures (program >>= next) state ok failed ↔
      Ensures program state (fun b middle => Ensures (next b) middle ok failed) failed := by
  rcases ran : program state with ⟨middle, error | b⟩ <;> simp [Ensures, bind, ran]

@[simp] theorem ensures_modify {f : σ → σ} {ok : Unit → σ → Prop} :
    Ensures (modify f : Program σ ε Unit) state ok failed ↔ ok () (f state) := Iff.rfl

/-- A result is judged by its two cases. -/
theorem ensures_ofExcept {result : Except ε α} :
    Ensures (ofExcept result : Program σ ε α) state ok failed ↔
      (∀ a, result = .ok a → ok a state) ∧ ∀ error, result = .error error → failed error state := by
  rcases result with error | a <;> simp [Ensures, ofExcept]

theorem ensures_reads {f : σ → Except ε α} :
    Ensures (reads f) state ok failed ↔
      (∀ a, f state = .ok a → ok a state) ∧
        ∀ error, f state = .error error → failed error state := by
  rcases ran : f state with error | a <;> simp [Ensures, reads, ran]

end Rules

end Program

end Lib
