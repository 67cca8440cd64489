import Mathlib.Data.List.Forall2
import Mathlib.Data.List.Induction

/-!
# Fallible computations

The vocabulary in which a partial imperative function is embedded: an early return is `reject`, a
missing value turned into an error is `okOr`, a guarded loop is `List.forM` or `List.foldlM` in
`Except`. A computation that can also abort the process returns its errors inside `Fault`.

Each construct has one inversion rule, and the rules are stated as equivalences, so a success
hypothesis about a whole function body is taken apart by rewriting and no proof unfolds a `do` block
by hand. `foldlM_induct` is the invariant rule of a loop: what every successful iteration keeps, a
successful loop keeps.
-/

namespace Lib

universe u v w

/-- How a computation stops without a value: an error it reports, or an abort of the process. -/
inductive Fault (ε : Type u) where
  /-- An error value returned to the caller. -/
  | err (error : ε)
  /-- A failed assertion, an `expect` on a missing value, an index out of bounds. -/
  | panic
  deriving Repr, DecidableEq

/-- The early return `if bad { return Err(e) }`. -/
def reject {ε : Type u} (bad : Prop) [Decidable bad] (e : ε) : Except ε Unit :=
  if bad then .error e else .ok ()

/-- `Option::ok_or`. -/
def okOr {ε : Type u} {α : Type v} (e : ε) : Option α → Except ε α
  | some a => .ok a
  | none => .error e

/-- The early return `if let Some(a) = found { return Err(e(a)) }`. -/
def rejectSome {ε : Type u} {α : Type v} (found : Option α) (e : α → ε) : Except ε Unit :=
  match found with
  | some a => .error (e a)
  | none => .ok ()

/-- `if !seen.insert(a) { return Err(e) }`: a hash set of the elements met so far. -/
def insertFresh {ε : Type u} {α : Type v} [DecidableEq α] (e : ε) (seen : List α) (a : α) :
    Except ε (List α) :=
  if a ∈ seen then .error e else .ok (a :: seen)

section Inversion

variable {ε : Type u} {α β : Type v}

/-- A sequence succeeds exactly when both of its parts do. -/
@[simp] theorem bind_eq_ok {x : Except ε α} {f : α → Except ε β} {b : β} :
    (x >>= f) = .ok b ↔ ∃ a, x = .ok a ∧ f a = .ok b := by
  cases x with
  | error e => simp [bind, Except.bind]
  | ok a => simp [bind, Except.bind]

@[simp] theorem map_eq_ok {x : Except ε α} {f : α → β} {b : β} :
    f <$> x = .ok b ↔ ∃ a, x = .ok a ∧ f a = b := by
  cases x with
  | error e => simp [Functor.map, Except.map]
  | ok a => simp [Functor.map, Except.map]

@[simp] theorem pure_eq_ok {a b : α} : (pure a : Except ε α) = .ok b ↔ a = b := by
  simp [pure, Except.pure]

/-- A value returned behind a check. -/
theorem check_pure_eq_ok {α : Type} {check : Except ε Unit} {a b : α} :
    (check >>= fun _ => pure a) = .ok b ↔ check = .ok () ∧ a = b := by
  cases check <;> simp

@[simp] theorem reject_eq_ok {bad : Prop} [Decidable bad] {e : ε} {u : Unit} :
    reject bad e = .ok u ↔ ¬ bad := by
  unfold reject
  split <;> simp_all

@[simp] theorem rejectSome_eq_ok {found : Option α} {e : α → ε} {u : Unit} :
    rejectSome found e = .ok u ↔ found = none := by
  cases found <;> simp [rejectSome]

theorem bind_eq_some {x : Option α} {f : α → Option β} {b : β} :
    (x >>= f) = some b ↔ ∃ a, x = some a ∧ f a = some b := Option.bind_eq_some_iff

theorem pure_eq_some {a b : α} : (pure a : Option α) = some b ↔ a = b := Option.some_inj

@[simp] theorem guard_eq_some {p : Prop} [Decidable p] {u : Unit} :
    (guard p : Option Unit) = some u ↔ p := by
  by_cases h : p <;> simp [guard, h, failure]

/-- A missing value is an error, a present one is returned. -/
@[simp] theorem okOr_eq_ok {e : ε} {o : Option α} {a : α} : okOr e o = .ok a ↔ o = some a := by
  cases o <;> simp [okOr]

@[simp] theorem insertFresh_eq_ok [DecidableEq α] {e : ε} {seen found : List α} {a : α} :
    insertFresh e seen a = .ok found ↔ a ∉ seen ∧ a :: seen = found := by
  unfold insertFresh
  split <;> simp_all

/-- A sequence fails in its first part or, after that succeeded, in its second. -/
theorem bind_eq_error {x : Except ε α} {f : α → Except ε β} {e : ε} :
    (x >>= f) = .error e ↔ x = .error e ∨ ∃ a, x = .ok a ∧ f a = .error e := by
  cases x with
  | error e => simp [bind, Except.bind]
  | ok a => simp [bind, Except.bind]

theorem pure_ne_error {a : α} {e : ε} : (pure a : Except ε α) ≠ .error e := by
  simp [pure, Except.pure]

theorem reject_eq_error {bad : Prop} [Decidable bad] {e e' : ε} :
    reject bad e = .error e' ↔ bad ∧ e = e' := by
  unfold reject
  split <;> simp_all

theorem okOr_eq_error {e e' : ε} {o : Option α} : okOr e o = .error e' ↔ o = none ∧ e = e' := by
  cases o <;> simp [okOr]

theorem mapError_eq_error {δ : Type w} {translate : ε → δ} {e : δ} :
    ∀ {x : Except ε α}, x.mapError translate = .error e ↔ ∃ e', x = .error e' ∧ translate e' = e
  | .error _ => by simp [Except.mapError]
  | .ok _ => by simp [Except.mapError]

/-- A change of error type keeps the successes. -/
@[simp] theorem mapError_ok_iff {δ : Type w} {translate : ε → δ} {a : α} :
    ∀ {x : Except ε α}, x.mapError translate = .ok a ↔ x = .ok a
  | .error _ => by simp [Except.mapError]
  | .ok _ => by simp [Except.mapError]

theorem toOption_eq_some {a : α} : ∀ {x : Except ε α}, x.toOption = some a ↔ x = .ok a
  | .error _ => by simp [Except.toOption]
  | .ok _ => by simp [Except.toOption]

end Inversion

section Loops

variable {ε : Type u} {σ : Type v} {α : Type w}

/-- A loop that only checks succeeds exactly when every check does. -/
theorem forM_eq_ok {f : α → Except ε PUnit} {l : List α} {done : PUnit} :
    forM l f = .ok done ↔ ∀ a ∈ l, f a = .ok done := by
  induction l with
  | nil => simp
  | cons a l ih =>
    have unit : (∃ x, f a = .ok x) ↔ f a = .ok done := ⟨fun ⟨_, h⟩ => h, fun h => ⟨_, h⟩⟩
    simp [ih, unit]

/-- A loop that only checks fails at one of its checks. -/
theorem exists_of_forM_error {f : α → Except ε PUnit} {l : List α} {e : ε}
    (failed : forM l f = .error e) : ∃ a ∈ l, f a = .error e := by
  induction l with
  | nil => cases failed
  | cons a l ih =>
    rw [List.forM_cons, bind_eq_error] at failed
    rcases failed with here | ⟨_, -, later⟩
    · exact ⟨a, List.mem_cons_self, here⟩
    · obtain ⟨b, member, error⟩ := ih later
      exact ⟨b, List.mem_cons_of_mem _ member, error⟩

/-- A loop that succeeds does so at its first step and from there on. -/
theorem foldlM_cons_eq_ok {f : σ → α → Except ε σ} {a : α} {l : List α} {s t : σ} :
    (a :: l).foldlM f s = .ok t ↔ ∃ m, f s a = .ok m ∧ l.foldlM f m = .ok t := by
  simp

/-- A successful loop over a concatenation passes through an intermediate state. -/
theorem foldlM_append_eq_ok {f : σ → α → Except ε σ} {l k : List α} {s t : σ} :
    (l ++ k).foldlM f s = .ok t ↔ ∃ m, l.foldlM f s = .ok m ∧ k.foldlM f m = .ok t := by
  simp

/-- The invariant rule of a loop: the property may speak of the elements already consumed, and of
the element at hand being one of the list. -/
theorem foldlM_induct {f : σ → α → Except ε σ} {P : List α → σ → Prop} {l : List α} {s t : σ}
    (run : l.foldlM f s = .ok t) (start : P [] s)
    (step : ∀ done a rest s t, l = done ++ a :: rest → P done s → f s a = .ok t →
      P (done ++ [a]) t) : P l t := by
  induction l using List.reverseRecOn generalizing t with
  | nil =>
    obtain rfl : s = t := by simpa using run
    exact start
  | append_singleton l a ih =>
    obtain ⟨m, earlier, last⟩ := foldlM_append_eq_ok.mp run
    have held := ih earlier fun done b rest s t split => step done b (rest ++ [a]) s t (by simp [split])
    exact step l a [] m t rfl held (by simpa using last)

/-- A computation that succeeds exactly under a condition, and what its result then satisfies. -/
def Yields {β : Type v} (x : Except ε β) (C : Prop) (P : β → Prop) : Prop :=
  (C → ∃ b, x = .ok b) ∧ ∀ b, x = .ok b → C ∧ P b

namespace Yields

variable {β γ : Type v} {x : Except ε β} {C D : Prop} {P : β → Prop}

theorem exists_iff (yields : Yields x C P) : (∃ b, x = .ok b) ↔ C :=
  ⟨fun ⟨b, ran⟩ => (yields.2 b ran).1, yields.1⟩

theorem bind {f : β → Except ε γ} {Q : γ → Prop} (first : Yields x C P)
    (second : ∀ b, P b → Yields (f b) D Q) : Yields (x >>= f) (C ∧ D) Q := by
  simp only [Yields, bind_eq_ok]
  constructor
  · rintro ⟨holds, later⟩
    obtain ⟨b, ran⟩ := first.1 holds
    obtain ⟨c, ends⟩ := (second b (first.2 b ran).2).1 later
    exact ⟨c, b, ran, ends⟩
  · rintro c ⟨b, ran, ends⟩
    obtain ⟨holds, kept⟩ := first.2 b ran
    obtain ⟨later, result⟩ := (second b kept).2 c ends
    exact ⟨⟨holds, later⟩, result⟩

/-- The loop rule: each iteration adds its own condition. -/
theorem foldlM {f : σ → α → Except ε σ} {C : List α → Prop} {D : List α → α → Prop}
    {P : List α → σ → Prop} {l : List α} {s : σ} (start : C [] ∧ P [] s)
    (grow : ∀ done a, C (done ++ [a]) ↔ C done ∧ D done a)
    (step : ∀ done a rest s, l = done ++ a :: rest → P done s →
      Yields (f s a) (D done a) (P (done ++ [a]))) : Yields (l.foldlM f s) (C l) (P l) := by
  induction l using List.reverseRecOn with
  | nil => exact ⟨fun _ => ⟨s, rfl⟩, by rintro _ ⟨⟩; exact start⟩
  | append_singleton l a ih =>
    rw [List.foldlM_append, grow]
    refine (ih fun done b rest s split => step done b (rest ++ [a]) s (by simp [split])).bind
      fun t kept => ?_
    simpa using step l a [] t rfl kept

end Yields

/-- The progress rule of a loop: where every iteration succeeds and keeps the property, the loop
does. -/
theorem foldlM_exists {f : σ → α → Except ε σ} {P : List α → σ → Prop} {l : List α} {s : σ}
    (start : P [] s)
    (step : ∀ done a rest s, l = done ++ a :: rest → P done s →
      ∃ t, f s a = .ok t ∧ P (done ++ [a]) t) :
    ∃ t, l.foldlM f s = .ok t ∧ P l t := by
  have runs : Yields (l.foldlM f s) True (P l) :=
    Yields.foldlM (C := fun _ => True) (D := fun _ _ => True) ⟨trivial, start⟩ (by simp)
      fun done a rest s split held => by
        obtain ⟨t, moved, kept⟩ := step done a rest s split held
        simp [Yields, moved, kept]
  obtain ⟨t, ran⟩ := runs.1 trivial
  exact ⟨t, ran, (runs.2 t ran).2⟩

/-- A loop that collects fresh elements succeeds exactly when none is met twice. -/
theorem foldlM_insertFresh {β : Type v} [DecidableEq β] {e : α → ε} {f : α → β} {l : List α}
    {seen found : List β} :
    l.foldlM (fun seen a => insertFresh (e a) seen (f a)) seen = .ok found ↔
      (l.map f).Nodup ∧ (∀ a ∈ l, f a ∉ seen) ∧ (l.map f).reverse ++ seen = found := by
  induction l generalizing seen with
  | nil => simp
  | cons a l ih =>
    simp only [foldlM_cons_eq_ok, insertFresh_eq_ok, List.map_cons, List.nodup_cons]
    constructor
    · rintro ⟨_, ⟨fresh, rfl⟩, rest⟩
      obtain ⟨nodup, apart, rfl⟩ := ih.mp rest
      simp only [List.mem_cons, not_or] at apart
      refine ⟨⟨fun again => ?_, nodup⟩, List.forall_mem_cons.mpr ⟨fresh, fun b member =>
        (apart b member).2⟩, by simp⟩
      obtain ⟨b, member, same⟩ := List.mem_map.mp again
      exact (apart b member).1 same
    · rintro ⟨⟨unique, nodup⟩, fresh, rfl⟩
      obtain ⟨here, apart⟩ := List.forall_mem_cons.mp fresh
      refine ⟨_, ⟨here, rfl⟩, ih.mpr ⟨nodup, fun b member again => ?_, by simp⟩⟩
      rcases List.mem_cons.mp again with same | earlier
      · exact unique (same ▸ List.mem_map_of_mem member)
      · exact apart b member earlier

/-- The same loop, where the elements must also stay clear of a second set. -/
theorem foldlM_insertApart {β : Type} [DecidableEq β] {e clash : ε} {f : α → β} {l : List α}
    {others seen found : List β} :
    l.foldlM (fun seen a => do
        let seen ← insertFresh e seen (f a)
        reject (f a ∈ others) clash
        pure seen) seen = .ok found ↔
      ((l.map f).Nodup ∧ (∀ a ∈ l, f a ∉ seen) ∧ (l.map f).reverse ++ seen = found) ∧
        ∀ a ∈ l, f a ∉ others := by
  rw [← foldlM_insertFresh (e := fun _ => e)]
  induction l generalizing seen with
  | nil => simp
  | cons a rest ih =>
    simp only [foldlM_cons_eq_ok, bind_eq_ok, reject_eq_ok, pure_eq_ok, List.forall_mem_cons, ih]
    constructor
    · rintro ⟨_, ⟨next, inserted, _, apart, rfl⟩, rest, others⟩
      exact ⟨⟨next, inserted, rest⟩, apart, others⟩
    · rintro ⟨⟨next, inserted, rest⟩, apart, others⟩
      exact ⟨next, ⟨next, inserted, (), apart, rfl⟩, rest, others⟩

variable {β : Type v}

/-- A loop that collects results succeeds exactly when every call does. -/
theorem mapM_eq_ok {f : α → Except ε β} {l : List α} :
    ∀ {results : List β}, l.mapM f = .ok results ↔
      List.Forall₂ (fun a b => f a = .ok b) l results := by
  induction l with
  | nil =>
    intro results
    rw [List.mapM_nil, pure_eq_ok, List.forall₂_nil_left_iff, eq_comm]
  | cons a l ih =>
    intro results
    simp only [List.mapM_cons, bind_eq_ok, pure_eq_ok, ih, List.forall₂_cons_left_iff]
    constructor
    · rintro ⟨first, found, rest, all, rfl⟩
      exact ⟨first, rest, found, all, rfl⟩
    · rintro ⟨first, rest, found, all, rfl⟩
      exact ⟨first, found, rest, all, rfl⟩

/-- A loop whose calls are those of a function. -/
theorem mapM_eq_map {f : α → Except ε β} {g : α → β} {l : List α}
    (all : ∀ a ∈ l, f a = .ok (g a)) : l.mapM f = .ok (l.map g) :=
  mapM_eq_ok.mpr (List.forall₂_map_right_iff.mpr (List.forall₂_same.mpr all))

theorem eq_map_of_mapM {f : α → Except ε β} {g : α → β} {l : List α} {results : List β}
    (ran : l.mapM f = .ok results) (all : ∀ a ∈ l, ∀ b, f a = .ok b → b = g a) :
    results = l.map g := by
  have pairs := mapM_eq_ok.mp ran
  induction pairs with
  | nil => rfl
  | cons found _ ih =>
    rw [List.map_cons, all _ (by simp) _ found,
      ih (mapM_eq_ok.mpr ‹_›) fun a member => all a (by simp [member])]

end Loops

end Lib
