import GarbledCircuits.Proofs.Circuit.Computation
import GarbledCircuits.Proofs.Failure

/-!
# What is wrong with a wiring

A wiring is accepted exactly if it is well-formed.  One that is not has
violations, each at a place of its lists of inputs, gates and outputs, and the
scan stops at the first of them.
-/

namespace GarbledCircuits

open Outcome

/-- The wires that are driven already when their turn comes. -/
def redriven (driven wires : List WireId) : List WireId :=
  (wires.zipIdx.filter fun (wire, index) =>
    wire ∈ driven ++ wires.take index).map Prod.fst

/-- What is wrong with a gate that comes after others. -/
def GateWiring.violations (wiring : GateWiring) (inputs : List WireId)
    (earlier : List GateWiring) : List WiringError :=
  let driven := drivenWires inputs earlier
  (if wiring.number ∈ earlier.map GateWiring.number then
      [.duplicateGateNumber wiring.number]
    else []) ++
    (wiring.inputs.filter (· ∉ driven)).map
      (WiringError.unresolvedInput wiring.number) ++
    (redriven driven wiring.outputs).map WiringError.duplicateWire

/-- What is wrong with gates that come after others. -/
def gateViolations (inputs : List WireId) (earlier gates : List GateWiring) :
    List WiringError :=
  gates.zipIdx.flatMap fun (gate, index) =>
    gate.violations inputs (earlier ++ gates.take index)

/-- All violations in the order of a scan: inputs, gates, outputs. -/
def violations (inputs : List WireId) (gates : List GateWiring)
    (outputs : List WireId) : List WiringError :=
  (redriven [] inputs).map WiringError.duplicateWire ++
    gateViolations inputs [] gates ++
    (outputs.filter (· ∉ drivenWires inputs gates)).map
      WiringError.unknownOutput

theorem redriven_cons (driven : List WireId) (wire : WireId)
    (wires : List WireId) :
    redriven driven (wire :: wires) =
      (if wire ∈ driven then [wire] else []) ++
        redriven (driven ++ [wire]) wires := by
  have hlater : ((fun entry : WireId × Nat =>
      decide (entry.1 ∈ driven ++ (wire :: wires).take entry.2)) ∘
        Prod.map id (· + 1)) = fun entry : WireId × Nat =>
      decide (entry.1 ∈ driven ++ [wire] ++ wires.take entry.2) := by
    funext entry
    simp
  simp only [redriven, List.zipIdx_cons', List.filter_cons, List.filter_map,
    hlater, List.take_zero, List.append_nil]
  by_cases hwire : wire ∈ driven <;> simp [hwire]

theorem gateViolations_cons
    (inputs : List WireId) (earlier : List GateWiring) (gate : GateWiring)
    (gates : List GateWiring) :
    gateViolations inputs earlier (gate :: gates) =
      gate.violations inputs earlier ++
        gateViolations inputs (earlier ++ [gate]) gates := by
  unfold gateViolations
  rw [List.zipIdx_cons', List.flatMap_cons, List.flatMap_map]
  simp

/-! ## Where a scan stops -/

namespace Scan

theorem foldlM_drive_failsFirst
    {value : Nat} {depth : WireMap Nat} {driven wires : List WireId}
    (hdriven : ∀ wire, wire ∈ depth ↔ wire ∈ driven) :
    FailsFirst ((redriven driven wires).map WiringError.duplicateWire)
      (wires.foldlM (drive value) depth) := by
  induction wires generalizing depth driven with
  | nil => exact FailsFirst.ok depth
  | cons first rest ih =>
      rw [List.foldlM_cons, redriven_cons, List.map_append]
      apply FailsFirst.bind
      · by_cases hfirst : first ∈ driven
        · have hold : first ∈ depth := (hdriven first).mpr hfirst
          simp only [drive, if_pos hfirst]
          rw [if_pos (by simpa using hold)]
          exact FailsFirst.error _ _
        · have hnew : first ∉ depth := by rwa [hdriven]
          simp only [drive, if_neg hfirst]
          rw [if_neg (by simpa using hnew)]
          exact FailsFirst.ok _
      · intro next hnext
        have hdepth : depth.insert first value = next := by
          unfold drive at hnext
          split_ifs at hnext
          exact Except.ok.inj hnext
        apply ih
        intro wire
        rw [← hdepth, mem_insert_wire, hdriven, List.mem_append,
          List.mem_singleton, or_comm, eq_comm]

theorem foldlM_deepen_failsFirst
    {depth : WireMap Nat} {gate : GateNumber} {driven wires : List WireId}
    {start : Nat} (hdriven : ∀ wire, wire ∈ depth ↔ wire ∈ driven) :
    FailsFirst ((wires.filter (· ∉ driven)).map
        (WiringError.unresolvedInput gate))
      (wires.foldlM (deepen depth gate) start) := by
  induction wires generalizing start with
  | nil => exact FailsFirst.ok start
  | cons first rest ih =>
      have hread : first ∈ driven ↔ ∃ value, depth[first]? = some value := by
        rw [← hdriven, mem_iff_exists_getElem?]
      rw [List.foldlM_cons, List.filter_cons]
      by_cases hfirst : first ∈ driven
      · obtain ⟨value, hvalue⟩ := hread.mp hfirst
        simp only [hfirst, not_true_eq_false, decide_false, Bool.false_eq_true,
          if_false, deepen, hvalue]
        exact ih
      · have hnone : depth[first]? = none := by
          rw [← hdriven] at hfirst
          exact notMem_iff_getElem?.mp hfirst
        simp only [hfirst, not_false_eq_true, decide_true, if_true, deepen,
          hnone]
        exact FailsFirst.error _ _

section

variable {inputs : List WireId} {done : List GateWiring} {scan : Scan}

theorem Covers.gate_failsFirst
    (hcovers : scan.Covers inputs done) (index : Nat) (wiring : GateWiring) :
    FailsFirst (wiring.violations inputs done) (scan.gate index wiring) := by
  have hnumber : scan.numbers.contains wiring.number = true ↔
      wiring.number ∈ done.map GateWiring.number := by
    rw [← Std.ExtTreeSet.mem_iff_contains, hcovers.numbered]
  unfold GateWiring.violations gate
  simp only [List.append_assoc, ← hnumber]
  apply FailsFirst.ite_throw
  apply (foldlM_deepen_failsFirst hcovers.driven).bind
  intro deepest _
  exact (foldlM_drive_failsFirst hcovers.driven).map _

theorem Covers.gates_failsFirst
    (hcovers : scan.Covers inputs done) (hwired : Wired inputs done)
    (rest : List GateWiring) :
    FailsFirst (gateViolations inputs done rest)
      (scan.gates done.length rest) := by
  -- A gate without violations leaves the gates before the next one wired, so
  -- the scan covers them and the next gate is judged against all of them.
  induction rest generalizing done scan with
  | nil => exact FailsFirst.ok scan
  | cons wiring rest ih =>
      rw [gateViolations_cons]
      apply (hcovers.gate_failsFirst done.length wiring).bind
      intro next hgate
      have hnext := (hcovers.wired_append_iff hwired).mp ⟨next, hgate⟩
      have hrest := ih (hcovers.afterGate hwired hgate) hnext
      rwa [List.length_append, List.length_singleton] at hrest

theorem Covers.exists_gates_iff
    (hcovers : scan.Covers inputs done) (hwired : Wired inputs done)
    {rest : List GateWiring} :
    (∃ next, scan.gates done.length rest = .ok next) ↔
      Wired inputs (done ++ rest) := by
  constructor
  · rintro ⟨next, hgates⟩
    exact (hcovers.afterGates hwired hgates).1
  · intro hrest
    induction rest generalizing done scan with
    | nil => exact ⟨scan, rfl⟩
    | cons wiring rest ih =>
        rw [List.append_cons] at hrest
        have hnext := hrest.of_append
        obtain ⟨next, hgate⟩ := (hcovers.wired_append_iff hwired).mpr hnext
        obtain ⟨final, hfinal⟩ :=
          ih (hcovers.afterGate hwired hgate) hnext hrest
        rw [List.length_append, List.length_singleton] at hfinal
        exact ⟨final, bind_eq_ok_iff.mpr ⟨next, hgate, hfinal⟩⟩

end

end Scan

section

variable {partyInputs : List (List WireId)} {gates : List GateWiring}
  {outputs : List WireId}

theorem exists_schedule_iff :
    (∃ levels, schedule partyInputs gates outputs = .ok levels) ↔
      Wired partyInputs.flatten gates ∧
        ∀ wire ∈ outputs, wire ∈ drivenWires partyInputs.flatten gates := by
  constructor
  · rintro ⟨levels, hschedule⟩
    obtain ⟨depth, hscheduled⟩ := exists_scheduled_of_schedule hschedule
    exact ⟨hscheduled.wired, hscheduled.outputs_driven⟩
  · rintro ⟨hwired, houtputs⟩
    have hinputs : Wired partyInputs.flatten [] := by
      rw [← List.nil_append gates] at hwired
      exact hwired.of_append
    have hcovers := Scan.covers_start partyInputs.flatten
    obtain ⟨scan, hgates⟩ := (hcovers.exists_gates_iff hinputs).mpr hwired
    obtain ⟨_, hafter⟩ := hcovers.afterGates hinputs hgates
    refine ⟨scan.levels, schedule_eq_ok_iff.mpr
      ⟨Wired.nil_iff.mp hinputs, scan, hgates, ?_, rfl⟩⟩
    intro wire hwire
    exact (hafter.driven wire).mpr (houtputs wire hwire)

theorem schedule_failsFirst :
    FailsFirst (violations partyInputs.flatten gates outputs)
      (schedule partyInputs gates outputs) := by
  unfold violations schedule
  rw [List.append_assoc]
  apply FailsFirst.bind
  · have hempty : ∀ wire, wire ∈ (∅ : WireMap Nat) ↔ wire ∈ [] := by simp
    exact (Scan.foldlM_drive_failsFirst hempty).map _
  intro start hstart
  obtain ⟨hnodup, rfl⟩ := Scan.start_eq_ok_iff.mp hstart
  have hinputs := Wired.nil_iff.mpr hnodup
  have hcovers := Scan.covers_start partyInputs.flatten
  apply (hcovers.gates_failsFirst hinputs gates).bind
  intro scan hgates
  obtain ⟨_, hafter⟩ := hcovers.afterGates hinputs hgates
  have hunknown : ∀ wire,
      decide (wire ∉ drivenWires partyInputs.flatten gates) =
        decide ¬scan.depth.contains wire = true := by
    intro wire
    have hdriven := hafter.driven wire
    rw [List.nil_append] at hdriven
    simp [hdriven]
  intro cause
  rw [List.head?_map, List.head?_filter, funext hunknown]
  cases outputs.find? fun wire => ¬scan.depth.contains wire with
  | some wire => simp [throw, throwThe, MonadExceptOf.throw]
  | none => simp [pure, Except.pure]

end

namespace Circuit

variable {partyInputs : List (List WireId)} {gates : List Gate}
  {outputs : List WireId}

theorem build_eq_ok_iff {circuit : Circuit} :
    build partyInputs gates outputs = .ok circuit ↔
      circuit.partyInputs = partyInputs ∧ circuit.gates = gates ∧
        circuit.outputs = outputs := by
  unfold build
  split
  next levels hlevels =>
    constructor
    · rintro ⟨⟩
      exact ⟨rfl, rfl, rfl⟩
    · rintro ⟨rfl, rfl, rfl⟩
      have hsame := circuit.scheduled
      rw [hlevels, Except.ok.injEq] at hsame
      subst hsame
      rfl
  next cause hcause =>
    constructor
    · rintro ⟨⟩
    · rintro ⟨rfl, rfl, rfl⟩
      have hscheduled := circuit.scheduled
      rw [hcause] at hscheduled
      cases hscheduled

theorem build_eq_error_iff {cause : WiringError} :
    build partyInputs gates outputs = .error cause ↔
      schedule partyInputs (gates.map Gate.toGateWiring) outputs =
        .error cause := by
  unfold build
  split
  next levels hlevels => simp [hlevels]
  next other hother => simp [hother]

theorem exists_build_iff :
    (∃ circuit, build partyInputs gates outputs = .ok circuit) ↔
      ∃ levels, schedule partyInputs (gates.map Gate.toGateWiring) outputs =
        .ok levels := by
  constructor
  · rintro ⟨circuit, hbuild⟩
    obtain ⟨rfl, rfl, rfl⟩ := build_eq_ok_iff.mp hbuild
    exact ⟨circuit.levels, circuit.scheduled⟩
  · rintro ⟨levels, hschedule⟩
    exact ⟨⟨partyInputs, gates, outputs, levels, hschedule⟩,
      build_eq_ok_iff.mpr ⟨rfl, rfl, rfl⟩⟩

/-- Circuits are built, as they were given, from exactly the well-formed
wirings, and any other wiring is refused for its first violation. -/
theorem build_ok_iff_wired_and_error_iff_violation
    (partyInputs : List (List WireId)) (gates : List Gate)
    (outputs : List WireId) :
    ((∃ circuit, build partyInputs gates outputs = .ok circuit) ↔
        Wired partyInputs.flatten (gates.map Gate.toGateWiring) ∧
          ∀ wire ∈ outputs, wire ∈ drivenWires partyInputs.flatten
            (gates.map Gate.toGateWiring)) ∧
      (∀ cause, build partyInputs gates outputs = .error cause ↔
        (violations partyInputs.flatten (gates.map Gate.toGateWiring)
          outputs).head? = some cause) ∧
      ∀ circuit, build partyInputs gates outputs = .ok circuit →
        circuit.partyInputs = partyInputs ∧ circuit.gates = gates ∧
          circuit.outputs = outputs := by
  refine ⟨exists_build_iff.trans exists_schedule_iff, ?_, ?_⟩
  · intro cause
    rw [build_eq_error_iff]
    exact schedule_failsFirst cause
  · intro circuit hbuild
    exact build_eq_ok_iff.mp hbuild

end Circuit

example :
    violations [0, 1] [⟨0, [1, 2], [2, 2]⟩, ⟨0, [2], [1, 3]⟩] [3, 4] =
      [.unresolvedInput 0 2, .duplicateWire 2, .duplicateGateNumber 0,
        .duplicateWire 1, .unknownOutput 4] := by
  decide +kernel

end GarbledCircuits
