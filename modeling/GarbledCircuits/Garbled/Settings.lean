import GarbledCircuits.Cipher.Scheme
import GarbledCircuits.Circuit.Executor

/-!
# Settings of a run

Garbling, evaluation and verification of one circuit share their settings.
They say how the gates of a level are run, for which the machine provides pools
of threads, and which size the tweaks of the scheme have.
-/

namespace GarbledCircuits

inductive Parallelism
  | sequential
  /-- Side by side; without a count there is a thread for each processor. -/
  | levels (threads : Option Nat)
  deriving DecidableEq, Repr

structure Settings where
  parallelism : Parallelism := .sequential
  /-- The size of tweaks, which has to be that of the scheme. -/
  tweakSize : Nat := defaultTweakSize
  deriving DecidableEq, Repr

/-- What a machine gives for a count of threads: a pool, or the reason why
there is none. -/
structure Machine where
  pool : Option Nat → Except String Pool

def Machine.inOrder : Machine := ⟨fun _ => .ok .inOrder⟩

namespace Settings

def sequential : Settings := {}

def levels (threads : Option Nat) : Settings :=
  { parallelism := .levels threads }

def withTweakSize (settings : Settings) (tweakSize : Nat) : Settings :=
  { settings with tweakSize := tweakSize }

def checkScheme (settings : Settings) (scheme : Scheme) :
    Except CircuitError Unit :=
  if settings.tweakSize ≠ scheme.tweakSize then
    .error (.tweakSizeMismatch settings.tweakSize scheme.tweakSize)
  else .ok ()

def executor (settings : Settings) (machine : Machine) :
    Except CircuitError Executor :=
  match settings.parallelism with
  | .sequential => .ok .sequential
  | .levels (some 0) => .error .zeroThreads
  | .levels threads => do
      let pool ← (machine.pool threads).mapError .threadPool
      return .pool pool

/-- Set up runs under a scheme. -/
def setUp (settings : Settings) (machine : Machine) (scheme : Scheme) :
    Except CircuitError Executor := do
  settings.checkScheme scheme
  settings.executor machine

end Settings

end GarbledCircuits
