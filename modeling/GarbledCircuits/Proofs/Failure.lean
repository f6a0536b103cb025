import GarbledCircuits.Proofs.Outcome

/-!
# Causes of failure

There are two ways to say how a run may fail.  It fails only with causes of
some kind, or it fails at the first of a list of faults and succeeds if the
list is empty.  Both are put together along the steps of a run.
-/

namespace GarbledCircuits.Outcome

theorem ok_bind {a : α} {f : α → Except ε β} :
    ((.ok a : Except ε α) >>= f) = f a :=
  rfl

theorem mapError_ok {a : α} {f : ε → δ} :
    (.ok a : Except ε α).mapError f = .ok a :=
  rfl

/-! ## Failing only with allowed causes -/

def FailsOnly (allowed : ε → Prop) (x : Except ε α) : Prop :=
  ∀ cause, x = .error cause → allowed cause

namespace FailsOnly

variable {allowed : ε → Prop}

theorem of_eq_ok {x : Except ε α} {a : α} (hx : x = .ok a) :
    FailsOnly allowed x := by
  intro cause hcause
  rw [hx] at hcause
  cases hcause

theorem of_error {cause : ε} (hcause : allowed cause) :
    FailsOnly allowed (.error cause : Except ε α) := by
  rintro _ ⟨⟩
  exact hcause

theorem exists_ok_or_error
    {x : Except ε α} (hx : FailsOnly allowed x) :
    (∃ a, x = .ok a) ∨ ∃ cause, x = .error cause ∧ allowed cause := by
  cases x with
  | ok a => exact Or.inl ⟨a, rfl⟩
  | error cause => exact Or.inr ⟨cause, rfl, hx cause rfl⟩

theorem bind
    {x : Except ε α} {f : α → Except ε β} (hx : FailsOnly allowed x)
    (hf : ∀ a, x = .ok a → FailsOnly allowed (f a)) :
    FailsOnly allowed (x >>= f) := by
  cases x with
  | ok a => exact hf a rfl
  | error cause => exact of_error (hx cause rfl)

theorem mapError
    {kept : δ → Prop} {x : Except ε α} {f : ε → δ}
    (hx : FailsOnly allowed x)
    (hf : ∀ cause, allowed cause → kept (f cause)) :
    FailsOnly kept (x.mapError f) := by
  cases x with
  | ok a => exact of_eq_ok rfl
  | error cause => exact of_error (hf cause (hx cause rfl))

theorem mapM
    {f : α → Except ε β} {xs : List α}
    (hxs : ∀ x ∈ xs, FailsOnly allowed (f x)) :
    FailsOnly allowed (xs.mapM f) := by
  induction xs with
  | nil => exact of_eq_ok rfl
  | cons x xs ih =>
      rw [List.mapM_cons]
      apply bind (hxs x (List.mem_cons_self ..))
      intro y _
      apply bind
      · exact ih fun other hother => hxs other (List.mem_cons_of_mem _ hother)
      · intro ys _
        exact of_eq_ok rfl

/-- What every step of a fold preserves can be used at every step. -/
theorem foldlM
    {step : β → α → Except ε β} {xs : List α} {start : β}
    (inv : Nat → β → Prop) (hstart : inv 0 start)
    (hstep : ∀ index x state, xs[index]? = some x → inv index state →
      FailsOnly allowed (step state x) ∧
        ∀ next, step state x = .ok next → inv (index + 1) next) :
    FailsOnly allowed (xs.foldlM step start) := by
  induction xs generalizing start inv with
  | nil => exact of_eq_ok rfl
  | cons x xs ih =>
      obtain ⟨hfirst, hnext⟩ := hstep 0 x start rfl hstart
      rw [List.foldlM_cons]
      apply bind hfirst
      intro next hrun
      apply ih (fun index => inv (index + 1)) (hnext next hrun)
      intro index y state hy
      exact hstep (index + 1) y state (by simpa using hy)

end FailsOnly

/-! ## Failing at the first fault -/

def FailsFirst (faults : List ε) (x : Except ε α) : Prop :=
  ∀ cause, x = .error cause ↔ faults.head? = some cause

namespace FailsFirst

variable {faults rest : List ε}

theorem ok (a : α) : FailsFirst [] (.ok a : Except ε α) := by
  intro cause
  simp

theorem error (cause : ε) (others : List ε) :
    FailsFirst (cause :: others) (.error cause : Except ε α) := by
  intro other
  simp

theorem nil_iff {x : Except ε α} :
    FailsFirst [] x ↔ ∃ a, x = .ok a := by
  cases x <;> simp [FailsFirst]

theorem cons_iff {x : Except ε α} {cause : ε} :
    FailsFirst (cause :: faults) x ↔ x = .error cause := by
  constructor
  · intro hx
    exact (hx cause).mpr rfl
  · rintro rfl
    exact error cause faults

theorem exists_ok_iff {x : Except ε α} (hx : FailsFirst faults x) :
    (∃ a, x = .ok a) ↔ faults = [] := by
  cases faults with
  | nil =>
      obtain ⟨a, ha⟩ := nil_iff.mp hx
      simp [ha]
  | cons cause others =>
      rw [cons_iff.mp hx]
      simp

theorem bind
    {x : Except ε α} {f : α → Except ε β} (hx : FailsFirst faults x)
    (hf : ∀ a, x = .ok a → FailsFirst rest (f a)) :
    FailsFirst (faults ++ rest) (x >>= f) := by
  cases faults with
  | nil =>
      obtain ⟨a, rfl⟩ := nil_iff.mp hx
      exact hf a rfl
  | cons cause others =>
      rw [cons_iff.mp hx]
      exact error cause (others ++ rest)

theorem map
    {x : Except ε α} (hx : FailsFirst faults x) (f : α → β) :
    FailsFirst faults (x >>= fun a => .ok (f a)) := by
  have hbind := hx.bind fun a _ => ok (f a)
  rwa [List.append_nil] at hbind

theorem mapError
    {x : Except ε α} (hx : FailsFirst faults x) (f : ε → δ) :
    FailsFirst (faults.map f) (x.mapError f) := by
  cases faults with
  | nil =>
      obtain ⟨a, rfl⟩ := nil_iff.mp hx
      exact ok a
  | cons cause others =>
      rw [cons_iff.mp hx]
      exact error (f cause) (others.map f)

theorem mapM
    {fault : α → List ε} {f : α → Except ε β} {xs : List α}
    (hxs : ∀ x ∈ xs, FailsFirst (fault x) (f x)) :
    FailsFirst (xs.flatMap fault) (xs.mapM f) := by
  induction xs with
  | nil => exact ok []
  | cons x xs ih =>
      have hrest := ih fun other hother =>
        hxs other (List.mem_cons_of_mem _ hother)
      rw [List.mapM_cons, List.flatMap_cons]
      apply bind (hxs x (List.mem_cons_self ..))
      intro y _
      exact hrest.map (y :: ·)

/-- A fold whose steps fail alike in all states that an invariant allows. -/
theorem foldlM
    {fault : α → List ε} {step : β → α → Except ε β} {xs : List α}
    {start : β} (inv : Nat → β → Prop) (hstart : inv 0 start)
    (hstep : ∀ index x state, xs[index]? = some x → inv index state →
      FailsFirst (fault x) (step state x) ∧
        ∀ next, step state x = .ok next → inv (index + 1) next) :
    FailsFirst (xs.flatMap fault) (xs.foldlM step start) := by
  induction xs generalizing start inv with
  | nil => exact ok start
  | cons x xs ih =>
      obtain ⟨hfirst, hnext⟩ := hstep 0 x start rfl hstart
      rw [List.foldlM_cons, List.flatMap_cons]
      apply bind hfirst
      intro next hrun
      apply ih (fun index => inv (index + 1)) (hnext next hrun)
      intro index y state hy
      exact hstep (index + 1) y state (by simpa using hy)

/-- A check that throws stands before the rest of a run. -/
theorem ite_throw
    {p : Prop} [Decidable p] {cause : ε} {f : α → Except ε β}
    {x : Except ε β} (hx : FailsFirst rest x) :
    FailsFirst ((if p then [cause] else []) ++ rest)
      (if p then (throw cause : Except ε α) >>= f else x) := by
  by_cases hp : p
  · rw [if_pos hp, if_pos hp]
    exact error cause rest
  · rw [if_neg hp, if_neg hp]
    exact hx

end FailsFirst

/-- Of faults of the entries with some property, the first is that of the
first such entry. -/
theorem head?_flatMap_ite
    {p : α → Prop} [DecidablePred p] {f : α → ε} {xs : List α} :
    (xs.flatMap fun x => if p x then [f x] else []).head? =
      (xs.find? fun x => decide (p x)).map f := by
  induction xs with
  | nil => rfl
  | cons x xs ih =>
      rw [List.flatMap_cons, List.find?_cons]
      by_cases hx : p x
      · simp [hx]
      · simp [hx, ih]

end GarbledCircuits.Outcome
