import GarbledCircuits.Circuit.Executor
import GarbledCircuits.Proofs.Failure

/-!
# What an executor decides

The gates of a level succeed on every executor or on none, and with the same
results.  Where some of them fail, the failures are the same on every executor
as well, and all that an executor decides is which of them is reported.  This
stays so along the levels of a run, which ends at the first level that fails.
-/

namespace GarbledCircuits

open Outcome

variable {run : α → Except ε β} {entries : List α} {executor : Executor}

/-! ## The failures of a level -/

theorem mem_failures {cause : ε} :
    cause ∈ failures run entries ↔
      ∃ entry ∈ entries, run entry = .error cause := by
  unfold failures
  rw [List.mem_filterMap]
  apply exists_congr
  intro entry
  cases run entry <;> simp [failure?]

theorem failures_cons_of_eq_ok
    {entry : α} {result : β} (hentry : run entry = .ok result) :
    failures run (entry :: entries) = failures run entries := by
  simp [failures, failure?, hentry]

theorem failures_cons_of_eq_error
    {entry : α} {cause : ε} (hentry : run entry = .error cause) :
    failures run (entry :: entries) = cause :: failures run entries := by
  simp [failures, failure?, hentry]

/-- One after the other, the entries fail at the first of their failures. -/
theorem mapM_failsFirst_failures (run : α → Except ε β) (entries : List α) :
    FailsFirst (failures run entries) (entries.mapM run) := by
  have hentries : entries.flatMap (fun entry => failures run [entry]) =
      failures run entries := by
    simp only [failures, List.filterMap_eq_flatMap_toList,
      List.flatMap_singleton]
  rw [← hentries]
  apply FailsFirst.mapM
  intro entry _
  cases hentry : run entry with
  | ok result =>
      rw [failures_cons_of_eq_ok hentry]
      exact FailsFirst.ok result
  | error cause =>
      rw [failures_cons_of_eq_error hentry]
      exact FailsFirst.error cause _

namespace Executor

theorem reported_mem (executor : Executor) (first : ε) (others : List ε) :
    executor.reported first others ∈ first :: others := by
  cases executor with
  | sequential => exact List.mem_cons_self ..
  | pool threads => exact List.get_mem ..

theorem reported_map (executor : Executor) (f : ε → δ) (first : ε)
    (others : List ε) :
    executor.reported (f first) (others.map f) =
      f (executor.reported first others) := by
  cases executor with
  | sequential => rfl
  | pool threads =>
      have hreport : (threads.report (others.map f).length : Nat) =
          threads.report others.length := by
        rw [List.length_map]
      simp only [reported, List.get_eq_getElem, hreport, ← List.map_cons,
        List.getElem_map]

/-- Every executor has the same results, and one of the same failures. -/
theorem mapLevel_eq (executor : Executor) (run : α → Except ε β)
    (entries : List α) :
    executor.mapLevel run entries =
      match failures run entries with
      | [] => entries.mapM run
      | first :: others => .error (executor.reported first others) := by
  cases executor with
  | pool threads => rfl
  | sequential =>
      have hfails := mapM_failsFirst_failures run entries
      cases hfailures : failures run entries with
      | nil => rfl
      | cons first others =>
          rw [hfailures, FailsFirst.cons_iff] at hfails
          exact hfails

theorem mapLevel_eq_ok_iff {results : List β} :
    executor.mapLevel run entries = .ok results ↔
      entries.mapM run = .ok results := by
  have hfails := mapM_failsFirst_failures run entries
  rw [mapLevel_eq]
  cases hfailures : failures run entries with
  | nil => rfl
  | cons first others =>
      rw [hfailures, FailsFirst.cons_iff] at hfails
      simp [hfails]

theorem mapLevel_failsOnly
    {allowed : ε → Prop}
    (hentries : ∀ entry ∈ entries, FailsOnly allowed (run entry)) :
    FailsOnly allowed (executor.mapLevel run entries) := by
  rw [mapLevel_eq]
  cases hfailures : failures run entries with
  | nil => exact FailsOnly.mapM hentries
  | cons first others =>
      apply FailsOnly.of_error
      have hmem := executor.reported_mem first others
      rw [← hfailures, mem_failures] at hmem
      obtain ⟨entry, hentry, hcause⟩ := hmem
      exact hentries entry hentry _ hcause

theorem mapLevel_map (g : γ → α) (run : α → Except ε β) (others : List γ) :
    executor.mapLevel run (others.map g) =
      executor.mapLevel (fun other => run (g other)) others := by
  simp only [mapLevel_eq, failures, List.filterMap_map, List.mapM_map]
  rfl

theorem mapLevel_congr
    {other : α → Except ε β}
    (hentries : ∀ entry ∈ entries, run entry = other entry) :
    executor.mapLevel run entries = executor.mapLevel other entries := by
  have hfailures : failures run entries = failures other entries := by
    unfold failures
    apply List.filterMap_congr
    intro entry hentry
    rw [hentries entry hentry]
  rw [mapLevel_eq, mapLevel_eq, hfailures, mapM_congr hentries]

/-- After a first pass that succeeds, a level gives what it gives if both
passes are made at once. -/
theorem mapLevel_zip_eq
    {f : α → Except ε β} {g : α × β → Except ε γ} {xs : List α}
    {ys : List β} (hmap : xs.mapM f = .ok ys) :
    executor.mapLevel g (xs.zip ys) =
      executor.mapLevel (fun x => f x >>= fun y => g (x, y)) xs := by
  have hfailures : failures g (xs.zip ys) =
      failures (fun x => f x >>= fun y => g (x, y)) xs := by
    rw [mapM_eq_ok_iff] at hmap
    induction hmap with
    | nil => rfl
    | cons hfirst _ ih =>
        unfold failures at ih ⊢
        simp only [List.zip_cons_cons, List.filterMap_cons, ih, hfirst,
          ok_bind]
  rw [mapLevel_eq, mapLevel_eq, hfailures, mapM_zip_eq hmap]

/-- A run has one result on all executors, or all of them report one of the
same failures. -/
def Uniform (run : Executor → Except ε α) : Prop :=
  (∃ result, ∀ executor, run executor = .ok result) ∨
    ∃ first others, ∀ executor,
      run executor = .error (executor.reported first others)

namespace Uniform

theorem const (result : Except ε α) : Uniform fun _ => result := by
  cases result with
  | ok a => exact Or.inl ⟨a, fun _ => rfl⟩
  | error cause =>
      refine Or.inr ⟨cause, [], ?_⟩
      intro executor
      have hmem := executor.reported_mem cause []
      rw [List.mem_singleton.mp hmem]

theorem mapLevel (run : α → Except ε β) (entries : List α) :
    Uniform fun executor => executor.mapLevel run entries := by
  simp only [mapLevel_eq]
  cases failures run entries with
  | nil => exact const _
  | cons first others => exact Or.inr ⟨first, others, fun _ => rfl⟩

/-- What succeeds on one executor does so on all. -/
theorem eq_ok_iff
    {run : Executor → Except ε α} (hrun : Uniform run)
    (executor other : Executor) {result : α} :
    run executor = .ok result ↔ run other = .ok result := by
  rcases hrun with ⟨_, hok⟩ | ⟨_, _, hfails⟩
  · rw [hok, hok]
  · simp [hfails]

theorem bind
    {x : Executor → Except ε α} {f : Executor → α → Except ε β}
    (hx : Uniform x) (hf : ∀ a, Uniform fun executor => f executor a) :
    Uniform fun executor => x executor >>= f executor := by
  rcases hx with ⟨a, ha⟩ | ⟨first, others, hfails⟩
  · simpa only [ha, ok_bind] using hf a
  · refine Or.inr ⟨first, others, ?_⟩
    intro executor
    simp only [hfails]
    rfl

theorem mapError
    {x : Executor → Except ε α} (hx : Uniform x) (f : ε → δ) :
    Uniform fun executor => (x executor).mapError f := by
  rcases hx with ⟨a, ha⟩ | ⟨first, others, hfails⟩
  · exact Or.inl ⟨a, fun executor => by simp only [ha, mapError_ok]⟩
  · refine Or.inr ⟨f first, others.map f, ?_⟩
    intro executor
    simp only [hfails, reported_map]
    rfl

theorem foldlM
    {step : Executor → β → α → Except ε β}
    (hstep : ∀ state x, Uniform fun executor => step executor state x)
    (xs : List α) (start : β) :
    Uniform fun executor => xs.foldlM (step executor) start := by
  induction xs generalizing start with
  | nil => exact const (.ok start)
  | cons x xs ih =>
      simp only [List.foldlM_cons]
      exact (hstep start x).bind ih

end Uniform

end Executor

end GarbledCircuits
