import GarbledCircuits.Circuit.Basic

/-!
# Running gates level by level

The gates of a level are run one after the other, or side by side on a pool of
threads.  Either way their results come in the order of the gates.  Where
several gates fail, a sequential run reports the first failure.  A pool reports
one of them, and which one that is depends on how its threads are scheduled.
-/

namespace GarbledCircuits

/-- A pool of threads in a run: the number of the failure that it reports, of
one and a count of others.  A run reports at most once, so there is a pool for
every way in which the threads can be scheduled. -/
structure Pool where
  report : (others : Nat) → Fin (others + 1)

/-- The pool whose threads fail in the order of the gates. -/
def Pool.inOrder : Pool := ⟨fun _ => 0⟩

/-- How the gates of a level are run. -/
inductive Executor
  | sequential
  | pool (pool : Pool)

def failure? : Except ε α → Option ε
  | .ok _ => none
  | .error cause => some cause

/-- The failures of a list, in its order. -/
def failures (run : α → Except ε β) (entries : List α) : List ε :=
  entries.filterMap fun entry => failure? (run entry)

namespace Executor

/-- The failure of a level that is reported. -/
def reported (executor : Executor) (first : ε) (others : List ε) : ε :=
  match executor with
  | sequential => first
  | pool threads => (first :: others).get (threads.report others.length)

/-- Run all entries of a level.  On a pool an entry runs whether others fail or
not. -/
def mapLevel (executor : Executor) (run : α → Except ε β)
    (entries : List α) : Except ε (List β) :=
  match executor with
  | sequential => entries.mapM run
  | pool _ =>
      match failures run entries with
      | [] => entries.mapM run
      | first :: others => .error (executor.reported first others)

end Executor

/-- Run the gates of a level on the values of their inputs, which are looked
up before any of them is run, and give the results to their outputs. -/
def runLevel (executor : Executor) (wiring : γ → GateWiring)
    (run : γ × List α → Except CircuitError α) (values : WireMap α)
    (gates : List γ) : Except CircuitError (WireMap α) := do
  let inputs ← gates.mapM fun gate =>
    (wiring gate).inputs.mapM (valueAt values)
  let outputs ← executor.mapLevel run (gates.zip inputs)
  return (gates.zip outputs).foldl
    (fun values (gate, output) => assignAll values (wiring gate).outputs output)
    values

end GarbledCircuits
