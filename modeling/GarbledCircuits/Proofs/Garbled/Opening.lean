import GarbledCircuits.Proofs.Circuit.Deviation
import GarbledCircuits.Proofs.Circuit.Order
import GarbledCircuits.Proofs.Garbled.Independence
import GarbledCircuits.Proofs.Gate.Opening

/-!
# The rows that an evaluation opens

An evaluation that goes through opens one row of every table, at the position
of the signal bits of the active keys.  The other rows can be exchanged at
will.  An opened row with another tag stops the evaluation, and of several
such rows it is the first in the order of evaluation, by level and index, that
does.
-/

namespace GarbledCircuits

open Outcome

/-- As many tables, each with as many rows of the same size. -/
def Tables.SameLayout (tables others : Tables) : Prop :=
  List.Forall₂ (fun table other =>
    other.rows = table.rows ∧ other.rowSize = table.rowSize) tables others

/-- The gates of every level with their indices, as evaluation meets them. -/
def Circuit.levelEntries (circuit : Circuit) : List (List (Nat × GateWiring)) :=
  circuit.levels.map (gatesAt (circuit.gates.map Gate.toGateWiring))

theorem Circuit.exists_layered_levelEntries (circuit : Circuit) :
    ∃ available, Layered (fun entry : Nat × GateWiring => entry.2)
      circuit.levelEntries available := by
  obtain ⟨_, hscheduled⟩ := circuit.exists_scheduled_topology
  exact ⟨_, hscheduled.layered⟩

theorem Circuit.flatten_levelEntries (circuit : Circuit) :
    circuit.levelEntries.flatten =
      (circuit.levels.flatMap (gatesAt circuit.gates)).map fun entry =>
        (entry.1, entry.2.toGateWiring) := by
  rw [levelEntries, ← List.flatMap_def, List.map_flatMap]
  exact List.flatMap_congr fun _ _ => gatesAt_map ..

theorem Circuit.mem_flatten_levelEntries
    {circuit : Circuit} {index : Nat} {wiring : GateWiring} :
    (index, wiring) ∈ circuit.levelEntries.flatten ↔
      circuit.topology.gates[index]? = some wiring := by
  obtain ⟨_, hscheduled⟩ := circuit.exists_scheduled_topology
  rw [levelEntries, ← List.flatMap_def]
  exact hscheduled.mem_flatMap_gatesAt_iff

namespace GarbledCircuit

/-- The keys that evaluation ends with, one for every driven wire. -/
def activeKeys (garbled : GarbledCircuit) (executor : Executor)
    (scheme : Scheme) (keys : ActiveKeys) :
    Except CircuitError ActiveKeys :=
  garbled.topology.levels.foldlM (garbled.evaluateLevel executor scheme) keys

/-- The row of a gate at the position of the signal bits of its input keys. -/
def openedRow (garbled : GarbledCircuit) (active : ActiveKeys)
    (index : Nat) : Option (List UInt8) := do
  let wiring ← garbled.topology.gates[index]?
  let table ← garbled.tables[index]?
  let keys ← (wiring.inputs.mapM (valueAt active)).toOption
  table.row (position (signalBits keys))

variable {circuit : Circuit} {executor : Executor} {scheme : Scheme}
  {garbled other : GarbledCircuit} {keys active : ActiveKeys}
  {results inputs : List WireKey} {index : Nat} {wiring : GateWiring}
  {table : Table} {key : WireKey}

theorem evaluate_eq_ok_iff_activeKeys :
    garbled.evaluate executor scheme keys = .ok results ↔
      garbled.tables.length = garbled.topology.gates.length ∧
        ∃ active, garbled.activeKeys executor scheme keys = .ok active ∧
          garbled.topology.outputs.mapM (valueAt active) = .ok results := by
  rw [evaluate, bind_eq_ok_iff, exists_unit_iff, checkTableCount_eq_ok_iff,
    bind_eq_ok_iff]
  rfl

theorem evaluate_eq_error_of_activeKeys
    (hcount : garbled.tables.length = garbled.topology.gates.length)
    {cause : CircuitError}
    (hactive : garbled.activeKeys executor scheme keys = .error cause) :
    garbled.evaluate executor scheme keys = .error cause := by
  unfold activeKeys at hactive
  rw [evaluate, checkTableCount_eq_ok_iff.mpr hcount, ok_bind, hactive]
  rfl

/-! ## One gate -/

theorem openedRow_eq_row
    (hgate : garbled.topology.gates[index]? = some wiring)
    (htable : garbled.tables[index]? = some table)
    (hinputs : wiring.inputs.mapM (valueAt active) = .ok inputs) :
    garbled.openedRow active index =
      table.row (position (signalBits inputs)) := by
  simp [openedRow, hgate, htable, hinputs, Except.toOption]

theorem openedRow_eq_none_of_le
    (hindex : garbled.topology.gates.length ≤ index) :
    garbled.openedRow active index = none := by
  simp [openedRow, List.getElem?_eq_none hindex]

theorem runGate_eq_evaluate
    (htable : garbled.tables[index]? = some table)
    (hinputs : wiring.inputs.mapM (valueAt active) = .ok inputs) :
    runGate (fun entry : Nat × GateWiring => entry.2)
        (garbled.evaluateGate scheme) active (index, wiring) =
      CircuitError.ofGate (wiring.evaluate scheme table inputs) := by
  simp only [runGate, hinputs, evaluateGate, tableAt, htable, ok_bind]

/-- A gate that was evaluated, in terms of the row that it opened. -/
theorem exists_evaluate_of_runGate
    (hgate : garbled.topology.gates[index]? = some wiring)
    (hrun : runGate (fun entry : Nat × GateWiring => entry.2)
      (garbled.evaluateGate scheme) active (index, wiring) = .ok key) :
    ∃ inputs table, wiring.inputs.mapM (valueAt active) = .ok inputs ∧
      garbled.tables[index]? = some table ∧
      garbled.openedRow active index =
        table.row (position (signalBits inputs)) ∧
      wiring.evaluate scheme table inputs = .ok key := by
  obtain ⟨inputs, hinputs, hevaluate⟩ := bind_eq_ok_iff.mp hrun
  obtain ⟨table, htable, hkey⟩ := evaluateGate_eq_ok_iff.mp hevaluate
  exact ⟨inputs, table, hinputs, htable,
    openedRow_eq_row hgate htable hinputs, hkey⟩

section

variable (htopology : other.topology = garbled.topology)
  (hlayout : garbled.tables.SameLayout other.tables)

include hlayout

theorem exists_table_of_sameLayout
    (htable : garbled.tables[index]? = some table) :
    ∃ table', other.tables[index]? = some table' ∧
      table'.rows = table.rows ∧ table'.rowSize = table.rowSize := by
  obtain ⟨hindex, rfl⟩ := List.getElem?_eq_some_iff.mp htable
  have hother : index < other.tables.length := by
    rwa [← hlayout.length_eq]
  exact ⟨_, List.getElem?_eq_getElem hother, hlayout.get hindex hother⟩

include htopology

theorem runGate_of_same_openedRow
    (hgate : garbled.topology.gates[index]? = some wiring)
    (hrun : runGate (fun entry : Nat × GateWiring => entry.2)
      (garbled.evaluateGate scheme) active (index, wiring) = .ok key)
    (hsame : other.openedRow active index =
      garbled.openedRow active index) :
    runGate (fun entry : Nat × GateWiring => entry.2)
      (other.evaluateGate scheme) active (index, wiring) = .ok key := by
  obtain ⟨inputs, table, hinputs, htable, hrow, hevaluate⟩ :=
    exists_evaluate_of_runGate hgate hrun
  obtain ⟨table', htable', hrows, hsize⟩ :=
    exists_table_of_sameLayout hlayout htable
  rw [hrow, openedRow_eq_row (htopology ▸ hgate) htable' hinputs] at hsame
  rw [runGate_eq_evaluate htable' hinputs,
    GateWiring.evaluate_of_same_row hevaluate hrows hsize hsame]
  rfl

theorem runGate_of_other_tag
    (hgate : garbled.topology.gates[index]? = some wiring)
    (hrun : runGate (fun entry : Nat × GateWiring => entry.2)
      (garbled.evaluateGate scheme) active (index, wiring) = .ok key)
    (hpayload : (other.openedRow active index).map withoutTag =
      (garbled.openedRow active index).map withoutTag)
    (hne : other.openedRow active index ≠ garbled.openedRow active index) :
    runGate (fun entry : Nat × GateWiring => entry.2)
        (other.evaluateGate scheme) active (index, wiring) =
      .error (.gate (.cipher wiring.number .integrityCheckFailed)) := by
  obtain ⟨inputs, table, hinputs, htable, hrow, hevaluate⟩ :=
    exists_evaluate_of_runGate hgate hrun
  obtain ⟨table', htable', hrows, hsize⟩ :=
    exists_table_of_sameLayout hlayout htable
  rw [hrow, openedRow_eq_row (htopology ▸ hgate) htable' hinputs]
    at hpayload hne
  rw [runGate_eq_evaluate htable' hinputs,
    GateWiring.evaluate_of_other_tag hevaluate hrows hsize hpayload hne]
  rfl

end

/-! ## All gates -/

/-- The opened row of a gate is another one in another garbled circuit. -/
def DamagedAt (garbled other : GarbledCircuit) (active : ActiveKeys)
    (index : Nat) : Prop :=
  other.openedRow active index ≠ garbled.openedRow active index

instance : DecidablePred (garbled.DamagedAt other active) :=
  fun index => inferInstanceAs (Decidable
    (other.openedRow active index ≠ garbled.openedRow active index))

def tagFaults (garbled other : GarbledCircuit) (active : ActiveKeys)
    (entry : Nat × GateWiring) : List CircuitError :=
  if garbled.DamagedAt other active entry.1 then
    [.gate (.cipher entry.2.number .integrityCheckFailed)]
  else []

theorem tagFaults_eq_nil_iff {entry : Nat × GateWiring} :
    garbled.tagFaults other active entry = [] ↔
      ¬garbled.DamagedAt other active entry.1 := by
  unfold tagFaults
  split_ifs with hdamaged <;> simp [hdamaged]

theorem head?_tagFaults_eq_some_iff {cause : CircuitError} :
    (circuit.levelEntries.flatten.flatMap
        (garbled.tagFaults other active)).head? = some cause ↔
      ∃ level index gate,
        circuit.FirstOf (fun index _ => garbled.DamagedAt other active index)
            level index gate ∧
          cause = .gate (.cipher gate.number .integrityCheckFailed) := by
  rw [circuit.flatten_levelEntries, List.flatMap_map]
  exact Circuit.head?_faults_eq_some_iff
    (p := fun index _ => garbled.DamagedAt other active index)

/-- A damaged gate is a gate of the circuit. -/
theorem exists_fault_of_damagedAt
    (htopology : garbled.topology = circuit.topology)
    (hother : other.topology = circuit.topology)
    (hdamaged : garbled.DamagedAt other active index) :
    ∃ cause, (circuit.levelEntries.flatten.flatMap
      (garbled.tagFaults other active)).head? = some cause := by
  have hindex : index < circuit.topology.gates.length := by
    by_contra hlength
    apply hdamaged
    rw [openedRow_eq_none_of_le (hother ▸ not_lt.mp hlength),
      openedRow_eq_none_of_le (htopology ▸ not_lt.mp hlength)]
  have hmem := Circuit.mem_flatten_levelEntries.mpr
    (List.getElem?_eq_getElem hindex)
  rw [← Option.isSome_iff_exists, List.isSome_head?, ne_eq,
    List.flatMap_eq_nil_iff]
  intro hnone
  exact tagFaults_eq_nil_iff.mp (hnone _ hmem) hdamaged

/-! ## The whole evaluation -/

section

variable (htopology : garbled.topology = circuit.topology)

include htopology

theorem activeKeys_eq_foldlM_levelEntries :
    garbled.activeKeys executor scheme keys =
      circuit.levelEntries.foldlM
        (runLevel executor (fun entry : Nat × GateWiring => entry.2)
          (garbled.evaluateGate scheme)) keys := by
  rw [activeKeys, evaluateLevel_eq_runLevel htopology, htopology,
    Circuit.levelEntries, List.foldlM_map]
  rfl

theorem exists_runGate_of_activeKeys
    (hactive : garbled.activeKeys executor scheme keys = .ok active)
    {entry : Nat × GateWiring}
    (hentry : entry ∈ circuit.levelEntries.flatten) :
    ∃ key, runGate (fun entry : Nat × GateWiring => entry.2)
      (garbled.evaluateGate scheme) active entry = .ok key := by
  obtain ⟨_, hlayered⟩ := circuit.exists_layered_levelEntries
  rw [activeKeys_eq_foldlM_levelEntries htopology] at hactive
  have hcompletes := hlayered.foldlM_eq_ok_iff.mp hactive
  obtain ⟨key, hkey, _⟩ := hcompletes.runs entry hentry
  exact ⟨key, hkey⟩

theorem exists_openedRow_of_activeKeys
    (hactive : garbled.activeKeys executor scheme keys = .ok active)
    (hindex : index < circuit.gates.length) :
    ∃ row, garbled.openedRow active index = some row ∧
      row.length = scheme.cipherSize := by
  have hgate : circuit.topology.gates[index]? =
      some circuit.gates[index].toGateWiring := by
    simp [Circuit.topology, hindex]
  obtain ⟨key, hkey⟩ := exists_runGate_of_activeKeys htopology hactive
    (Circuit.mem_flatten_levelEntries.mpr hgate)
  obtain ⟨inputs, table, _, _, hrow, hevaluate⟩ :=
    exists_evaluate_of_runGate (htopology ▸ hgate) hkey
  obtain ⟨_, row, _, hopened, hlength, _, _⟩ :=
    GateWiring.exists_session_of_evaluate hevaluate
  exact ⟨row, hrow.trans hopened, hlength⟩

variable (hother : other.topology = circuit.topology)
  (hlayout : garbled.tables.SameLayout other.tables)

include hother hlayout

theorem runGate_congr_of_openedRow
    (hactive : garbled.activeKeys executor scheme keys = .ok active)
    {entry : Nat × GateWiring}
    (hentry : entry ∈ circuit.levelEntries.flatten)
    (hsame : other.openedRow active entry.1 =
      garbled.openedRow active entry.1) :
    runGate (fun entry : Nat × GateWiring => entry.2)
        (other.evaluateGate scheme) active entry =
      runGate (fun entry : Nat × GateWiring => entry.2)
        (garbled.evaluateGate scheme) active entry := by
  obtain ⟨key, hkey⟩ := exists_runGate_of_activeKeys htopology hactive hentry
  have hgate := Circuit.mem_flatten_levelEntries.mp hentry
  rw [hkey]
  exact runGate_of_same_openedRow (hother.trans htopology.symm) hlayout
    (htopology ▸ hgate) hkey hsame

theorem activeKeys_of_same_openedRows
    (hactive : garbled.activeKeys executor scheme keys = .ok active)
    (hsame : ∀ index,
      other.openedRow active index = garbled.openedRow active index)
    (executor : Executor) :
    other.activeKeys executor scheme keys = .ok active := by
  obtain ⟨_, hlayered⟩ := circuit.exists_layered_levelEntries
  have hrun := hactive
  rw [activeKeys_eq_foldlM_levelEntries htopology] at hrun
  rw [activeKeys_eq_foldlM_levelEntries hother]
  refine hlayered.foldlM_congr hrun ?_ executor
  intro entry hentry
  exact runGate_congr_of_openedRow htopology hother hlayout hactive hentry
    (hsame entry.1)

theorem activeKeys_failsFirst
    (hactive : garbled.activeKeys executor scheme keys = .ok active)
    (hpayloads : ∀ index, (other.openedRow active index).map withoutTag =
      (garbled.openedRow active index).map withoutTag) :
    FailsFirst
      (circuit.levelEntries.flatten.flatMap (garbled.tagFaults other active))
      (other.activeKeys .sequential scheme keys) := by
  obtain ⟨_, hlayered⟩ := circuit.exists_layered_levelEntries
  have hundamaged : ∀ entry ∈ circuit.levelEntries.flatten,
      garbled.tagFaults other active entry = [] →
      runGate (fun entry : Nat × GateWiring => entry.2)
          (other.evaluateGate scheme) active entry =
        runGate (fun entry : Nat × GateWiring => entry.2)
          (garbled.evaluateGate scheme) active entry := by
    intro entry hentry hnone
    exact runGate_congr_of_openedRow htopology hother hlayout hactive hentry
      (not_not.mp (tagFaults_eq_nil_iff.mp hnone))
  have hrun := hactive
  rw [activeKeys_eq_foldlM_levelEntries htopology] at hrun
  rw [activeKeys_eq_foldlM_levelEntries hother]
  refine hlayered.foldlM_failsFirst (hlayered.foldlM_eq_ok_iff.mp hrun) ?_
    hundamaged
  intro entry hentry
  obtain ⟨key, hkey⟩ := exists_runGate_of_activeKeys htopology hactive hentry
  by_cases hdamaged : garbled.DamagedAt other active entry.1
  · have hgate := Circuit.mem_flatten_levelEntries.mp hentry
    rw [tagFaults, if_pos hdamaged, FailsFirst.cons_iff]
    exact runGate_of_other_tag (hother.trans htopology.symm) hlayout
      (htopology ▸ hgate) hkey (hpayloads entry.1) hdamaged
  · have hnone := tagFaults_eq_nil_iff.mpr hdamaged
    rw [hnone, hundamaged entry hentry hnone]
    exact FailsFirst.nil_iff.mpr ⟨key, hkey⟩

end

/-- An evaluation opens one row for each gate.  It is not changed by other
rows, on any executor, and run sequentially it fails at the first gate whose
opened row has another tag. -/
theorem evaluate_depends_on_opened_rows
    (htopology : garbled.topology = circuit.topology)
    (hevaluate : garbled.evaluate executor scheme keys = .ok results) :
    ∃ active, garbled.activeKeys executor scheme keys = .ok active ∧
      (∀ index < circuit.gates.length, ∃ row,
        garbled.openedRow active index = some row ∧
          row.length = scheme.cipherSize) ∧
      ∀ other : GarbledCircuit, other.topology = circuit.topology →
        garbled.tables.SameLayout other.tables →
        ((∀ index, other.openedRow active index =
            garbled.openedRow active index) →
          ∀ executor, other.evaluate executor scheme keys = .ok results) ∧
        ((∀ index, (other.openedRow active index).map withoutTag =
            (garbled.openedRow active index).map withoutTag) →
          (∃ index, garbled.DamagedAt other active index) →
          ∃ level index gate,
            circuit.FirstOf
                (fun index _ => garbled.DamagedAt other active index) level
                index gate ∧
            other.evaluate .sequential scheme keys = .error
              (.gate (.cipher gate.number .integrityCheckFailed))) := by
  obtain ⟨hcount, active, hactive, hresults⟩ :=
    evaluate_eq_ok_iff_activeKeys.mp hevaluate
  refine ⟨active, hactive, ?_, ?_⟩
  · intro index hindex
    exact exists_openedRow_of_activeKeys htopology hactive hindex
  · intro other hother hlayout
    have htables : other.tables.length = other.topology.gates.length := by
      rw [hother, ← htopology, ← hcount]
      exact hlayout.length_eq.symm
    constructor
    · intro hsame executor
      have hkeys := activeKeys_of_same_openedRows htopology hother hlayout
        hactive hsame executor
      rw [htopology, ← hother] at hresults
      exact evaluate_eq_ok_iff_activeKeys.mpr ⟨htables, active, hkeys, hresults⟩
    · rintro hpayloads ⟨index, hdamaged⟩
      have hfails := activeKeys_failsFirst htopology hother hlayout hactive
        hpayloads
      obtain ⟨cause, hcause⟩ :=
        exists_fault_of_damagedAt htopology hother hdamaged
      obtain ⟨level, first, gate, hfirst, rfl⟩ :=
        head?_tagFaults_eq_some_iff.mp hcause
      exact ⟨level, first, gate, hfirst,
        evaluate_eq_error_of_activeKeys htables ((hfails _).mpr hcause)⟩

/-- One byte of every table is changed. -/
def flipTables (garbled : GarbledCircuit) (flips : List (Nat × UInt8)) :
    GarbledCircuit :=
  { garbled with
    tables := List.zipWith (fun table flip => table.flip flip.1 flip.2)
      garbled.tables flips }

/-- Rows of the fork are compared at the indices of its three gates. -/
theorem map_openedRow_flipTables_fork
    {flips : List (Nat × UInt8)} {f : List UInt8 → List UInt8}
    (hactive : fork.activeKeys (.pool .inOrder) .transparent
      (assign ∅ [(0, ⟨1⟩)]) = .ok active)
    (hrows : (fork.activeKeys (.pool .inOrder) .transparent
          (assign ∅ [(0, ⟨1⟩)])).map
        (fun active => (List.range 3).map fun index =>
          ((fork.flipTables flips).openedRow active index).map f) =
      (fork.activeKeys (.pool .inOrder) .transparent
          (assign ∅ [(0, ⟨1⟩)])).map
        fun active => (List.range 3).map fun index =>
          (fork.openedRow active index).map f) (index : Nat) :
    ((fork.flipTables flips).openedRow active index).map f =
      (fork.openedRow active index).map f := by
  rw [hactive, Except.map, Except.map, Except.ok.injEq, List.map_inj_left]
    at hrows
  by_cases hindex : index < 3
  · exact hrows index (List.mem_range.mpr hindex)
  · have hlength : fork.topology.gates.length ≤ index := not_lt.mp hindex
    have hother : (fork.flipTables flips).topology.gates.length ≤ index :=
      hlength
    rw [openedRow_eq_none_of_le hlength, openedRow_eq_none_of_le hother]

/-- The fork with a byte changed in rows that are not opened, and with a byte
changed in the tags of two that are. -/
theorem evaluate_depends_on_opened_rows_fork :
    fork.evaluate (.pool .inOrder) .transparent (assign ∅ [(0, ⟨1⟩)]) =
        .ok [⟨1⟩, ⟨0⟩] ∧
      (∀ executor, (fork.flipTables [(0, 255), (40, 255), (20, 1)]).evaluate
        executor .transparent (assign ∅ [(0, ⟨1⟩)]) = .ok [⟨1⟩, ⟨0⟩]) ∧
      ∃ active level index gate,
        Circuit.fork.FirstOf (fun index _ => fork.DamagedAt
          (fork.flipTables [(0, 255), (31, 1), (63, 1)]) active index) level
            index gate ∧
          (fork.flipTables [(0, 255), (31, 1), (63, 1)]).evaluate .sequential
              .transparent (assign ∅ [(0, ⟨1⟩)]) =
            .error (.gate (.cipher gate.number .integrityCheckFailed)) := by
  have hevaluate : fork.evaluate (.pool .inOrder) .transparent
      (assign ∅ [(0, ⟨1⟩)]) = .ok [⟨1⟩, ⟨0⟩] := by decide +kernel
  obtain ⟨active, hactive, _, hothers⟩ := evaluate_depends_on_opened_rows
    (rfl : fork.topology = Circuit.fork.topology) hevaluate
  have hunopened : fork.tables.SameLayout
      (fork.flipTables [(0, 255), (40, 255), (20, 1)]).tables := by
    unfold Tables.SameLayout
    decide +kernel
  have htags : fork.tables.SameLayout
      (fork.flipTables [(0, 255), (31, 1), (63, 1)]).tables := by
    unfold Tables.SameLayout
    decide +kernel
  have hdamaged : (fork.activeKeys (.pool .inOrder) .transparent
      (assign ∅ [(0, ⟨1⟩)])).map (fun active => decide (fork.DamagedAt
        (fork.flipTables [(0, 255), (31, 1), (63, 1)]) active 1)) =
      .ok true := by decide +kernel
  rw [hactive, Except.map, Except.ok.injEq, decide_eq_true_eq] at hdamaged
  have hsame : ∀ index, ((fork.flipTables
        [(0, 255), (40, 255), (20, 1)]).openedRow active index).map id =
      (fork.openedRow active index).map id :=
    map_openedRow_flipTables_fork hactive (by decide +kernel)
  refine ⟨hevaluate, (hothers _ rfl hunopened).1 ?_, active,
    (hothers _ rfl htags).2 ?_ ⟨1, hdamaged⟩⟩
  · intro index
    simpa using hsame index
  · exact map_openedRow_flipTables_fork hactive (by decide +kernel)

end GarbledCircuit

end GarbledCircuits
