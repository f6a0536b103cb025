import Mathlib.Data.List.Forall2
import Mathlib.Logic.Unique

/-!
# Runs that may fail

A step that may fail is followed through sequences of steps.  A list is mapped
successfully when every entry is, and a fold that keeps an invariant indexed by
the number of entries consumed ends with the invariant of the whole list.
-/

namespace GarbledCircuits.Outcome

theorem bind_eq_ok_iff
    {x : Except ε α} {f : α → Except ε β} {b : β} :
    (x >>= f) = .ok b ↔ ∃ a, x = .ok a ∧ f a = .ok b := by
  cases x with
  | error cause => simp [bind, Except.bind]
  | ok a => simp [bind, Except.bind]

theorem pure_eq_ok_iff {a b : α} :
    (pure a : Except ε α) = .ok b ↔ a = b := by
  simp [pure, Except.pure]

theorem map_eq_ok_iff {x : Except ε α} {f : α → β} {b : β} :
    x.map f = .ok b ↔ ∃ a, x = .ok a ∧ f a = b := by
  cases x <;> simp [Except.map]

theorem mapError_eq_ok_iff {x : Except ε α} {f : ε → δ} {a : α} :
    x.mapError f = .ok a ↔ x = .ok a := by
  cases x <;> simp [Except.mapError]

theorem exists_eq_ok_of_isOk {x : Except ε α} (hx : x.isOk = true) :
    ∃ a, x = .ok a := by
  cases x with
  | error cause => cases hx
  | ok a => exact ⟨a, rfl⟩

theorem not_isOk_iff {x : Except ε α} :
    (!x.isOk) = true ↔ ∃ cause, x = .error cause := by
  cases x <;> simp [Except.isOk, Except.toBool]

theorem exists_unit_iff {p : Unit → Prop} : (∃ a, p a) ↔ p () :=
  Unique.exists_iff

theorem ite_throw_eq_ok_iff
    {p : Prop} [Decidable p] {cause : ε} {f : α → Except ε β}
    {x : Except ε β} {b : β} :
    (if p then (throw cause : Except ε α) >>= f else x) = .ok b ↔
      ¬p ∧ x = .ok b := by
  by_cases hp : p <;>
    simp [hp, throw, throwThe, MonadExceptOf.throw, bind, Except.bind]

theorem mapM_eq_ok_iff {f : α → Except ε β} {xs : List α} {ys : List β} :
    xs.mapM f = .ok ys ↔ List.Forall₂ (fun x y => f x = .ok y) xs ys := by
  induction xs generalizing ys with
  | nil => cases ys <;> simp [pure, Except.pure]
  | cons x xs ih =>
      rw [List.mapM_cons, bind_eq_ok_iff, List.forall₂_cons_left_iff]
      constructor
      · rintro ⟨y, hy, hrest⟩
        obtain ⟨rest, hmap, hcons⟩ := bind_eq_ok_iff.mp hrest
        exact ⟨y, rest, hy, ih.mp hmap, (pure_eq_ok_iff.mp hcons).symm⟩
      · rintro ⟨y, rest, hy, hmap, rfl⟩
        exact ⟨y, hy, bind_eq_ok_iff.mpr
          ⟨rest, ih.mpr hmap, pure_eq_ok_iff.mpr rfl⟩⟩

/-- The error of a list is that of its first entry that fails. -/
theorem mapM_eq_error_iff
    {f : α → Except ε β} {xs : List α} {cause : ε} :
    xs.mapM f = .error cause ↔
      ∃ index, xs.findIdx? (fun x => !(f x).isOk) = some index ∧
        ∃ x, xs[index]? = some x ∧ f x = .error cause := by
  induction xs with
  | nil => simp [pure, Except.pure]
  | cons x xs ih =>
      rw [List.mapM_cons, List.findIdx?_cons]
      cases hx : f x with
      | error first =>
          simp [bind, Except.bind, Except.isOk, Except.toBool, hx]
      | ok y =>
          have hrest : ((Except.ok y : Except ε β) >>= fun y =>
              xs.mapM f >>= fun ys => pure (y :: ys)) = .error cause ↔
                xs.mapM f = .error cause := by
            cases xs.mapM f <;> simp [bind, Except.bind, pure, Except.pure]
          rw [hrest, ih]
          simp [Except.isOk, Except.toBool]

theorem mapM_eq_ok_map
    {f : α → Except ε β} {g : α → β} {xs : List α}
    (hxs : ∀ x ∈ xs, f x = .ok (g x)) : xs.mapM f = .ok (xs.map g) := by
  rw [mapM_eq_ok_iff, List.forall₂_map_right_iff, List.forall₂_same]
  exact hxs

theorem mapM_congr
    {f g : α → Except ε β} {xs : List α} (hxs : ∀ x ∈ xs, f x = g x) :
    xs.mapM f = xs.mapM g := by
  induction xs with
  | nil => rfl
  | cons x xs ih =>
      rw [List.mapM_cons, List.mapM_cons, hxs x (List.mem_cons_self ..),
        ih fun other hother => hxs other (List.mem_cons_of_mem _ hother)]

/-- Entries that are related by way of another are related by way of a
list. -/
theorem forall₂_exists_iff
    {R : α → β → Prop} {S : β → γ → Prop} {xs : List α} {zs : List γ} :
    List.Forall₂ (fun x z => ∃ y, R x y ∧ S y z) xs zs ↔
      ∃ ys, List.Forall₂ R xs ys ∧ List.Forall₂ S ys zs := by
  constructor
  · intro hall
    induction hall with
    | nil => exact ⟨[], .nil, .nil⟩
    | cons hfirst _ ih =>
        obtain ⟨y, hy, hz⟩ := hfirst
        obtain ⟨ys, hys, hzs⟩ := ih
        exact ⟨y :: ys, .cons hy hys, .cons hz hzs⟩
  · rintro ⟨ys, hys, hzs⟩
    induction hys generalizing zs with
    | nil =>
        cases hzs
        exact .nil
    | cons hy _ ih =>
        obtain ⟨z, rest, hz, hrest, rfl⟩ := List.forall₂_cons_left_iff.mp hzs
        exact .cons ⟨_, hy, hz⟩ (ih hrest)

theorem mapM_map_eq_ok_iff
    {f : α → Except ε β} {g : β → γ} {xs : List α} {zs : List γ} :
    xs.mapM (fun x => (f x).map g) = .ok zs ↔
      ∃ ys, xs.mapM f = .ok ys ∧ ys.map g = zs := by
  simp only [mapM_eq_ok_iff, map_eq_ok_iff, forall₂_exists_iff,
    ← List.forall₂_map_left_iff (f := g), List.forall₂_eq_eq_eq]

theorem exists_mapM_eq_ok
    {f : α → Except ε β} {xs : List α} (hxs : ∀ x ∈ xs, ∃ y, f x = .ok y) :
    ∃ ys, xs.mapM f = .ok ys := by
  induction xs with
  | nil => exact ⟨[], rfl⟩
  | cons x xs ih =>
      obtain ⟨y, hy⟩ := hxs x (List.mem_cons_self ..)
      obtain ⟨ys, hys⟩ := ih fun other hother =>
        hxs other (List.mem_cons_of_mem _ hother)
      refine ⟨y :: ys, ?_⟩
      rw [mapM_eq_ok_iff] at hys ⊢
      exact .cons hy hys

theorem exists_of_mem_of_mapM
    {f : α → Except ε β} {xs : List α} {ys : List β}
    (hmap : xs.mapM f = .ok ys) {x : α} (hx : x ∈ xs) :
    ∃ y, f x = .ok y ∧ (x, y) ∈ xs.zip ys := by
  rw [mapM_eq_ok_iff] at hmap
  induction hmap with
  | nil => cases hx
  | cons hfirst _ ih =>
      rcases List.mem_cons.mp hx with rfl | hin
      · exact ⟨_, hfirst, List.mem_cons_self ..⟩
      · obtain ⟨y, hy, hzip⟩ := ih hin
        exact ⟨y, hy, List.mem_cons_of_mem _ hzip⟩

theorem exists_of_mem_result_of_mapM
    {f : α → Except ε β} {xs : List α} {ys : List β}
    (hmap : xs.mapM f = .ok ys) {y : β} (hy : y ∈ ys) :
    ∃ x ∈ xs, f x = .ok y := by
  rw [mapM_eq_ok_iff] at hmap
  induction hmap with
  | nil => cases hy
  | cons hfirst _ ih =>
      rcases List.mem_cons.mp hy with rfl | hin
      · exact ⟨_, List.mem_cons_self .., hfirst⟩
      · obtain ⟨x, hx, hresult⟩ := ih hin
        exact ⟨x, List.mem_cons_of_mem _ hx, hresult⟩

/-- After a first pass that succeeds, the second gives what one pass gives
that does both. -/
theorem mapM_zip_eq
    {f : α → Except ε β} {g : α × β → Except ε γ} {xs : List α}
    {ys : List β} (hmap : xs.mapM f = .ok ys) :
    (xs.zip ys).mapM g = xs.mapM fun x => f x >>= fun y => g (x, y) := by
  rw [mapM_eq_ok_iff] at hmap
  induction hmap with
  | nil => rfl
  | cons hfirst _ ih =>
      rw [List.zip_cons_cons, List.mapM_cons, List.mapM_cons, ih, hfirst]
      rfl

/-- Two passes over a list succeed together as one pass that does both. -/
theorem mapM_zip_eq_ok_iff
    {f : α → Except ε β} {g : α × β → Except ε γ} {xs : List α}
    {zs : List γ} :
    (∃ ys, xs.mapM f = .ok ys ∧ (xs.zip ys).mapM g = .ok zs) ↔
      xs.mapM (fun x => f x >>= fun y => g (x, y)) = .ok zs := by
  constructor
  · rintro ⟨ys, hys, hzs⟩
    rwa [mapM_zip_eq hys] at hzs
  · intro hall
    have hfirst : ∀ x ∈ xs, ∃ y, f x = .ok y := by
      intro x hx
      obtain ⟨z, hz, _⟩ := exists_of_mem_of_mapM hall hx
      obtain ⟨y, hy, _⟩ := bind_eq_ok_iff.mp hz
      exact ⟨y, hy⟩
    obtain ⟨ys, hys⟩ := exists_mapM_eq_ok hfirst
    exact ⟨ys, hys, (mapM_zip_eq hys).trans hall⟩

/-- What every step of a fold preserves holds at its end. -/
theorem foldlM_invariant
    {step : β → α → Except ε β} {xs : List α} {start final : β}
    (inv : Nat → β → Prop) (hstart : inv 0 start)
    (hstep : ∀ index x state next, xs[index]? = some x →
      inv index state → step state x = .ok next → inv (index + 1) next)
    (hrun : xs.foldlM step start = .ok final) : inv xs.length final := by
  induction xs generalizing start inv with
  | nil =>
      rw [List.foldlM_nil, pure_eq_ok_iff] at hrun
      exact hrun ▸ hstart
  | cons x xs ih =>
      rw [List.foldlM_cons, bind_eq_ok_iff] at hrun
      obtain ⟨next, hfirst, hrest⟩ := hrun
      apply ih (fun index => inv (index + 1))
      · exact hstep 0 x start next rfl hstart hfirst
      · intro index y state after hy
        exact hstep (index + 1) y state after (by simpa using hy)
      · exact hrest

/-- A fold whose steps succeed under an invariant succeeds. -/
theorem foldlM_progress
    {step : β → α → Except ε β} {xs : List α} {start : β}
    (inv : Nat → β → Prop) (hstart : inv 0 start)
    (hstep : ∀ index x state, xs[index]? = some x → inv index state →
      ∃ next, step state x = .ok next ∧ inv (index + 1) next) :
    ∃ final, xs.foldlM step start = .ok final ∧ inv xs.length final := by
  induction xs generalizing start inv with
  | nil => exact ⟨start, rfl, hstart⟩
  | cons x xs ih =>
      obtain ⟨next, hfirst, hnext⟩ := hstep 0 x start rfl hstart
      obtain ⟨final, hrest, hfinal⟩ :=
        ih (fun index => inv (index + 1)) hnext (by
          intro index y state hy
          exact hstep (index + 1) y state (by simpa using hy))
      refine ⟨final, ?_, hfinal⟩
      rw [List.foldlM_cons, bind_eq_ok_iff]
      exact ⟨next, hfirst, hrest⟩

theorem foldlM_range_invariant
    {step : β → Nat → Except ε β} {count : Nat} {start final : β}
    (inv : Nat → β → Prop) (hstart : inv 0 start)
    (hstep : ∀ index < count, ∀ state next, inv index state →
      step state index = .ok next → inv (index + 1) next)
    (hrun : (List.range count).foldlM step start = .ok final) :
    inv count final := by
  have hlast := foldlM_invariant inv hstart (by
    intro index x state next hx hstate hnext
    obtain ⟨hindex, rfl⟩ := List.getElem?_eq_some_iff.mp hx
    rw [List.getElem_range] at hnext
    exact hstep index (by simpa using hindex) state next hstate hnext) hrun
  rwa [List.length_range] at hlast

theorem foldlM_range_progress
    {step : β → Nat → Except ε β} {count : Nat} {start : β}
    (inv : Nat → β → Prop) (hstart : inv 0 start)
    (hstep : ∀ index < count, ∀ state, inv index state →
      ∃ next, step state index = .ok next ∧ inv (index + 1) next) :
    ∃ final, (List.range count).foldlM step start = .ok final ∧
      inv count final := by
  obtain ⟨final, hrun, hfinal⟩ :
      ∃ final, (List.range count).foldlM step start = .ok final ∧
        inv (List.range count).length final := by
    apply foldlM_progress inv hstart
    intro index x state hx hstate
    obtain ⟨hindex, rfl⟩ := List.getElem?_eq_some_iff.mp hx
    rw [List.getElem_range]
    exact hstep index (by simpa using hindex) state hstate
  rw [List.length_range] at hfinal
  exact ⟨final, hrun, hfinal⟩

/-! ## Other names for errors and results -/

/-- Both runs fail with one cause, or both succeed with related results. -/
inductive Alike (rel : α → β → Prop) : Except ε α → Except ε β → Prop
  | ok {a : α} {b : β} (hrel : rel a b) : Alike rel (.ok a) (.ok b)
  | error (cause : ε) : Alike rel (.error cause) (.error cause)

namespace Alike

variable {rel : α → β → Prop} {x : Except ε α} {y : Except ε β}

theorem bind
    {kept : γ → δ → Prop} {f : α → Except ε γ} {g : β → Except ε δ}
    (hxy : Alike rel x y) (hfg : ∀ a b, rel a b → Alike kept (f a) (g b)) :
    Alike kept (x >>= f) (y >>= g) := by
  cases hxy with
  | ok hrel => exact hfg _ _ hrel
  | error cause => exact error cause

theorem refl (x : Except ε α) : Alike Eq x x := by
  cases x with
  | ok a => exact ok rfl
  | error cause => exact error cause

theorem eq {y : Except ε α} (hxy : Alike Eq x y) : x = y := by
  cases hxy with
  | ok hrel => rw [hrel]
  | error cause => rfl

theorem eq_error_iff (hxy : Alike rel x y) {cause : ε} :
    x = .error cause ↔ y = .error cause := by
  cases hxy with
  | ok hrel => simp
  | error other => simp

theorem foldlM
    {step : β → α → Except ε β} {other : γ → α → Except ε γ} {xs : List α}
    {start : β} {begin : γ} (rel : Nat → β → γ → Prop)
    (hstart : rel 0 start begin)
    (hstep : ∀ index x state after, xs[index]? = some x →
      rel index state after →
        Alike (rel (index + 1)) (step state x) (other after x)) :
    Alike (rel xs.length) (xs.foldlM step start)
      (xs.foldlM other begin) := by
  induction xs generalizing start begin rel with
  | nil => exact ok hstart
  | cons x xs ih =>
      rw [List.foldlM_cons, List.foldlM_cons]
      apply (hstep 0 x start begin rfl hstart).bind
      intro state after hstate
      apply ih (fun index => rel (index + 1)) hstate
      intro index y next last hy
      exact hstep (index + 1) y next last (by simpa using hy)

end Alike

end GarbledCircuits.Outcome
