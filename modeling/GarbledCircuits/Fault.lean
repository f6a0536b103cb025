/-!
# Classes of faults

Every error of the library belongs to one of four classes.  An operation may
also stop without any error, where the program has no answer.
-/

namespace GarbledCircuits

inductive Fault
  /-- A session or a run was set up without what it needs. -/
  | configuration
  /-- Lists, sizes or arities do not fit together. -/
  | malformedInput
  /-- A decryption did not give what was expected. -/
  | cryptoFailure
  /-- Garbled material that no honest garbler produces. -/
  | cheatAttempt
  deriving DecidableEq, Repr

namespace Fault

def all : List Fault :=
  [configuration, malformedInput, cryptoFailure, cheatAttempt]

def name : Fault → String
  | configuration => "Configuration"
  | malformedInput => "MalformedInput"
  | cryptoFailure => "CryptoFailure"
  | cheatAttempt => "CheatAttempt"

def message : Fault → String
  | configuration => "configuration error"
  | malformedInput => "malformed input"
  | cryptoFailure => "crypto failure"
  | cheatAttempt => "cheat attempt"

end Fault

/-- How an operation stops that gives no result. -/
inductive Stop (ε : Type)
  | failed (cause : ε)
  /-- Neither a result nor an error: what is asked for fits no memory. -/
  | unanswered
  deriving DecidableEq, Repr

namespace Stop

def map (f : ε → δ) : Stop ε → Stop δ
  | failed cause => failed (f cause)
  | unanswered => unanswered

/-- An operation that always has an answer. -/
def ofExcept (result : Except ε α) : Except (Stop ε) α :=
  result.mapError failed

@[simp] theorem ofExcept_eq_ok_iff {result : Except ε α} {a : α} :
    ofExcept result = .ok a ↔ result = .ok a := by
  cases result with
  | ok b => exact ⟨fun hok => by cases hok; rfl, fun hok => by cases hok; rfl⟩
  | error cause => exact ⟨nofun, nofun⟩

end Stop

/-- The state after a call that succeeds. -/
def stateAfter (call : EStateM ε σ α) (state : σ) : Except ε σ :=
  match call.run state with
  | .ok _ next => .ok next
  | .error cause _ => .error cause

theorem stateAfter_eq_ok_iff {call : EStateM ε σ α} {state next : σ} :
    stateAfter call state = .ok next ↔
      ∃ a, call.run state = .ok a next := by
  unfold stateAfter
  cases call.run state <;> simp

end GarbledCircuits
