import GarbledCircuits.Proofs.Circuit.Assignment

/-!
# Wired circuits

What a scan has found out is described by the gates it has seen: every wire is
driven once, gates read only what was driven before them, and the level of a
gate is the depth of its deepest input.  A step of the scan succeeds exactly
if the description can be continued, and it continues it.
-/

namespace GarbledCircuits

open Outcome

/-- The circuit inputs and the outputs of some gates. -/
def drivenWires (inputs : List WireId) (gates : List GateWiring) :
    List WireId :=
  inputs ++ gates.flatMap GateWiring.outputs

def GateWiring.deepest (wiring : GateWiring) (depth : WireId → Nat) : Nat :=
  wiring.inputs.foldl (fun deepest wire => max deepest (depth wire)) 0

def levelIndices (gates : List GateWiring) (depth : WireId → Nat)
    (level : Nat) : List Nat :=
  (gates.zipIdx.filter fun (gate, _) => gate.deepest depth = level).map
    Prod.snd

/-- The depths of wires are those of a layering of the gates. -/
structure Deepens (inputs : List WireId) (gates : List GateWiring)
    (depth : WireId → Nat) : Prop where
  input : ∀ wire ∈ inputs, depth wire = 0
  output : ∀ gate ∈ gates, ∀ wire ∈ gate.outputs,
    depth wire = gate.deepest depth + 1

/-- Every wire is driven once, before it is read, and gate numbers differ. -/
structure Wired (inputs : List WireId) (gates : List GateWiring) : Prop where
  nodup_driven : (drivenWires inputs gates).Nodup
  nodup_numbers : (gates.map GateWiring.number).Nodup
  resolved : ∀ (index : Nat) (gate : GateWiring), gates[index]? = some gate →
    ∀ wire ∈ gate.inputs, wire ∈ drivenWires inputs (gates.take index)

theorem mem_drivenWires
    {inputs : List WireId} {gates : List GateWiring} {wire : WireId} :
    wire ∈ drivenWires inputs gates ↔
      wire ∈ inputs ∨ ∃ gate ∈ gates, wire ∈ gate.outputs := by
  simp [drivenWires]

theorem drivenWires_append
    (inputs : List WireId) (gates rest : List GateWiring) :
    drivenWires inputs (gates ++ rest) =
      drivenWires inputs gates ++ rest.flatMap GateWiring.outputs := by
  simp [drivenWires]

theorem GateWiring.deepest_congr
    {wiring : GateWiring} {depth other : WireId → Nat}
    (hsame : ∀ wire ∈ wiring.inputs, depth wire = other wire) :
    wiring.deepest depth = wiring.deepest other := by
  unfold deepest
  apply List.foldl_ext
  intro deepest wire hwire
  rw [hsame wire hwire]

theorem levelIndices_congr
    {gates : List GateWiring} {depth other : WireId → Nat}
    (hsame : ∀ gate ∈ gates, gate.deepest depth = gate.deepest other)
    (level : Nat) :
    levelIndices gates depth level = levelIndices gates other level := by
  unfold levelIndices
  congr 1
  apply List.filter_congr
  rintro ⟨gate, index⟩ hentry
  simp only
  rw [hsame gate (List.fst_mem_of_mem_zipIdx hentry)]

theorem levelIndices_append_singleton
    (gates : List GateWiring) (gate : GateWiring) (depth : WireId → Nat)
    (level : Nat) :
    levelIndices (gates ++ [gate]) depth level =
      levelIndices gates depth level ++
        if gate.deepest depth = level then [gates.length] else [] := by
  unfold levelIndices
  rw [List.zipIdx_append, List.filter_append, List.map_append]
  by_cases hlevel : gate.deepest depth = level <;> simp [hlevel]

theorem mem_levelIndices
    {gates : List GateWiring} {depth : WireId → Nat} {level index : Nat} :
    index ∈ levelIndices gates depth level ↔
      ∃ gate, gates[index]? = some gate ∧ gate.deepest depth = level := by
  simp [levelIndices, List.mk_mem_zipIdx_iff_getElem?]

theorem Levels.getD_place
    (index depth level : Nat) (levels : Levels) :
    (Levels.place index depth levels).getD level [] =
      if level = depth then levels.getD level [] ++ [index]
      else levels.getD level [] := by
  induction depth generalizing levels level with
  | zero => cases levels <;> cases level <;> simp [place]
  | succ depth ih =>
      cases level with
      | zero => cases levels <;> simp [place]
      | succ level =>
          cases levels with
          | nil => simpa [place] using ih level []
          | cons first rest => simpa [place] using ih level rest

namespace Wired

variable {inputs : List WireId} {gates : List GateWiring}

theorem nil_iff : Wired inputs [] ↔ inputs.Nodup := by
  constructor
  · intro hwired
    simpa [drivenWires] using hwired.nodup_driven
  · intro hnodup
    exact ⟨by simpa [drivenWires] using hnodup, by simp, by simp⟩

/-- The last of the gates reads wires that the others drive. -/
theorem resolved_append_singleton_iff {gate : GateWiring} :
    (∀ (index : Nat) (other : GateWiring),
        (gates ++ [gate])[index]? = some other →
        ∀ wire ∈ other.inputs,
          wire ∈ drivenWires inputs ((gates ++ [gate]).take index)) ↔
      (∀ (index : Nat) (other : GateWiring), gates[index]? = some other →
        ∀ wire ∈ other.inputs, wire ∈ drivenWires inputs (gates.take index)) ∧
      ∀ wire ∈ gate.inputs, wire ∈ drivenWires inputs gates := by
  constructor
  · intro hresolved
    constructor
    · intro index other hother wire hwire
      obtain ⟨hindex, _⟩ := List.getElem?_eq_some_iff.mp hother
      have hread := hresolved index other
        (by rw [List.getElem?_append_left hindex, hother]) wire hwire
      rwa [List.take_append_of_le_length hindex.le] at hread
    · intro wire hwire
      have hread := hresolved gates.length gate (by simp) wire hwire
      rwa [List.take_left] at hread
  · rintro ⟨hresolved, hinputs⟩ index other hother wire hwire
    rcases Nat.lt_or_ge index gates.length with hindex | hindex
    · rw [List.getElem?_append_left hindex] at hother
      rw [List.take_append_of_le_length hindex.le]
      exact hresolved index other hother wire hwire
    · rw [List.getElem?_append_right hindex, List.getElem?_singleton]
        at hother
      split_ifs at hother with hlast
      cases hother
      rw [List.take_append_of_le_length (by omega), List.take_of_length_le
        (by omega)]
      exact hinputs wire hwire

theorem append_singleton_iff {gate : GateWiring} :
    Wired inputs (gates ++ [gate]) ↔
      Wired inputs gates ∧ gate.number ∉ gates.map GateWiring.number ∧
        (∀ wire ∈ gate.inputs, wire ∈ drivenWires inputs gates) ∧
        gate.outputs.Nodup ∧
        ∀ wire ∈ gate.outputs, wire ∉ drivenWires inputs gates := by
  have hdriven : (drivenWires inputs (gates ++ [gate])).Nodup ↔
      (drivenWires inputs gates).Nodup ∧ gate.outputs.Nodup ∧
        ∀ wire ∈ gate.outputs, wire ∉ drivenWires inputs gates := by
    rw [drivenWires_append, List.flatMap_singleton, List.nodup_append',
      List.disjoint_right]
  have hnumbers : ((gates ++ [gate]).map GateWiring.number).Nodup ↔
      gate.number ∉ gates.map GateWiring.number ∧
        (gates.map GateWiring.number).Nodup := by
    rw [List.map_append, List.map_singleton, ← List.concat_eq_append,
      List.nodup_concat]
  constructor
  · intro hwired
    obtain ⟨hold, hnew, houtputs⟩ := hdriven.mp hwired.nodup_driven
    obtain ⟨hnumber, hrest⟩ := hnumbers.mp hwired.nodup_numbers
    obtain ⟨hresolved, hinputs⟩ :=
      resolved_append_singleton_iff.mp hwired.resolved
    exact ⟨⟨hold, hrest, hresolved⟩, hnumber, hinputs, hnew, houtputs⟩
  · rintro ⟨hwired, hnumber, hinputs, hnew, houtputs⟩
    exact ⟨hdriven.mpr ⟨hwired.nodup_driven, hnew, houtputs⟩,
      hnumbers.mpr ⟨hnumber, hwired.nodup_numbers⟩,
      resolved_append_singleton_iff.mpr ⟨hwired.resolved, hinputs⟩⟩

theorem mem_driven_of_mem_inputs
    (hwired : Wired inputs gates) {gate : GateWiring} (hgate : gate ∈ gates)
    {wire : WireId} (hwire : wire ∈ gate.inputs) :
    wire ∈ drivenWires inputs gates := by
  obtain ⟨index, hindex⟩ := List.getElem?_of_mem hgate
  have hread := hwired.resolved index gate hindex wire hwire
  rw [mem_drivenWires] at hread ⊢
  rcases hread with hinput | ⟨other, hother, houtput⟩
  · exact Or.inl hinput
  · exact Or.inr ⟨other, List.mem_of_mem_take hother, houtput⟩

end Wired

/-! ## Steps of a scan -/

namespace Scan

def depthOf (scan : Scan) (wire : WireId) : Nat :=
  scan.depth[wire]?.getD 0

theorem foldlM_drive_eq_ok_iff
    {value : Nat} {depth next : WireMap Nat} {wires : List WireId} :
    wires.foldlM (drive value) depth = .ok next ↔
      wires.Nodup ∧ (∀ wire ∈ wires, wire ∉ depth) ∧
        next = assignAll depth wires value := by
  induction wires generalizing depth with
  | nil => simp [pure, Except.pure, assignAll, eq_comm]
  | cons first rest ih =>
      have hdrive : ∀ driven, drive value depth first = .ok driven ↔
          first ∉ depth ∧ depth.insert first value = driven := by
        intro driven
        by_cases hold : first ∈ depth <;> simp [drive, hold]
      simp only [List.foldlM_cons, bind_eq_ok_iff, hdrive, ih]
      constructor
      · rintro ⟨_, ⟨hfirst, rfl⟩, hnodup, hrest, hnext⟩
        refine ⟨List.nodup_cons.mpr ⟨?_, hnodup⟩, ?_, hnext⟩
        · intro hmem
          exact hrest first hmem (by simp)
        · intro wire hwire
          rcases List.mem_cons.mp hwire with rfl | hmem
          · exact hfirst
          · intro hold
            exact hrest wire hmem (by simp [hold])
      · rintro ⟨hnodup, hnew, hnext⟩
        obtain ⟨hfirst, hnodup⟩ := List.nodup_cons.mp hnodup
        refine ⟨_, ⟨hnew first (List.mem_cons_self ..), rfl⟩, hnodup, ?_,
          hnext⟩
        intro wire hwire hold
        rcases mem_insert_wire.mp hold with rfl | hold
        · exact hfirst hwire
        · exact hnew wire (List.mem_cons_of_mem _ hwire) hold

theorem foldlM_deepen_eq_ok_iff
    {depth : WireMap Nat} {gate : GateNumber} {wires : List WireId}
    {start deepest : Nat} :
    wires.foldlM (deepen depth gate) start = .ok deepest ↔
      (∀ wire ∈ wires, wire ∈ depth) ∧
        wires.foldl (fun deepest wire =>
          max deepest (depth[wire]?.getD 0)) start = deepest := by
  induction wires generalizing start with
  | nil => simp [pure_eq_ok_iff]
  | cons first rest ih =>
      have hdeepen : ∀ next, deepen depth gate start first = .ok next ↔
          first ∈ depth ∧ max start (depth[first]?.getD 0) = next := by
        intro next
        unfold deepen
        rw [mem_iff_exists_getElem?]
        cases depth[first]? <;> simp
      simp only [List.foldlM_cons, bind_eq_ok_iff, hdeepen, ih,
        List.forall_mem_cons, List.foldl_cons]
      constructor
      · rintro ⟨_, ⟨hfirst, rfl⟩, hrest, hdeepest⟩
        exact ⟨⟨hfirst, hrest⟩, hdeepest⟩
      · rintro ⟨⟨hfirst, hrest⟩, hdeepest⟩
        exact ⟨_, ⟨hfirst, rfl⟩, hrest, hdeepest⟩

/-- A gate is scanned exactly if its number is new, its inputs are driven and
its outputs are not. -/
theorem gate_eq_ok_iff
    {scan next : Scan} {index : Nat} {wiring : GateWiring} :
    scan.gate index wiring = .ok next ↔
      wiring.number ∉ scan.numbers ∧
        (∀ wire ∈ wiring.inputs, wire ∈ scan.depth) ∧
        wiring.outputs.Nodup ∧ (∀ wire ∈ wiring.outputs, wire ∉ scan.depth) ∧
        next = {
          depth := assignAll scan.depth wiring.outputs
            (wiring.deepest scan.depthOf + 1)
          numbers := scan.numbers.insert wiring.number
          levels :=
            Levels.place index (wiring.deepest scan.depthOf) scan.levels } := by
  simp only [gate, ite_throw_eq_ok_iff, bind_eq_ok_iff,
    foldlM_deepen_eq_ok_iff, foldlM_drive_eq_ok_iff, pure_eq_ok_iff]
  constructor
  · rintro ⟨hnumber, _, ⟨hinputs, rfl⟩, _, ⟨hnodup, houtputs, rfl⟩, rfl⟩
    exact ⟨by simpa using hnumber, hinputs, hnodup, houtputs, rfl⟩
  · rintro ⟨hnumber, hinputs, hnodup, houtputs, rfl⟩
    exact ⟨by simpa using hnumber, _, ⟨hinputs, rfl⟩, _,
      ⟨hnodup, houtputs, rfl⟩, rfl⟩

structure Covers (scan : Scan) (inputs : List WireId)
    (gates : List GateWiring) : Prop where
  driven : ∀ wire, wire ∈ scan.depth ↔ wire ∈ drivenWires inputs gates
  numbered : ∀ number, number ∈ scan.numbers ↔
    number ∈ gates.map GateWiring.number
  deepens : Deepens inputs gates scan.depthOf
  levels : ∀ level, scan.levels.getD level [] =
    levelIndices gates scan.depthOf level

theorem start_eq_ok_iff {inputs : List WireId} {scan : Scan} :
    Scan.start inputs = .ok scan ↔
      inputs.Nodup ∧ scan = ⟨assignAll ∅ inputs 0, ∅, []⟩ := by
  simp only [start, bind_eq_ok_iff, foldlM_drive_eq_ok_iff, pure_eq_ok_iff]
  constructor
  · rintro ⟨_, ⟨hnodup, _, rfl⟩, rfl⟩
    exact ⟨hnodup, rfl⟩
  · rintro ⟨hnodup, rfl⟩
    exact ⟨_, ⟨hnodup, by simp, rfl⟩, rfl⟩

theorem covers_start (inputs : List WireId) :
    Covers ⟨assignAll ∅ inputs 0, ∅, []⟩ inputs [] := by
  constructor
  · intro wire
    rw [mem_iff_exists_getElem?, getElem?_assignAll]
    simp [drivenWires]
  · simp
  · constructor
    · intro wire hwire
      simp [depthOf, getElem?_assignAll, hwire]
    · simp
  · intro level
    simp [levelIndices]

section

variable {inputs : List WireId} {done : List GateWiring} {scan next : Scan}
  {wiring : GateWiring}

/-- A step of the scan succeeds exactly if the gate can be wired up. -/
theorem Covers.wired_append_iff
    (hcovers : scan.Covers inputs done) (hwired : Wired inputs done) :
    (∃ next, scan.gate done.length wiring = .ok next) ↔
      Wired inputs (done ++ [wiring]) := by
  simp only [gate_eq_ok_iff, Wired.append_singleton_iff, hwired, true_and,
    hcovers.driven, hcovers.numbered]
  constructor
  · rintro ⟨_, hnumber, hinputs, hnodup, houtputs, _⟩
    exact ⟨hnumber, hinputs, hnodup, houtputs⟩
  · rintro ⟨hnumber, hinputs, hnodup, houtputs⟩
    exact ⟨_, hnumber, hinputs, hnodup, houtputs, rfl⟩

theorem depthOf_of_gate
    {index : Nat} (hgate : scan.gate index wiring = .ok next) (wire : WireId) :
    next.depthOf wire =
      if wire ∈ wiring.outputs then wiring.deepest scan.depthOf + 1
      else scan.depthOf wire := by
  obtain ⟨_, _, _, _, rfl⟩ := gate_eq_ok_iff.mp hgate
  rw [depthOf, getElem?_assignAll]
  split_ifs <;> rfl

/-- The depth of a wire that was driven before stays as it was. -/
theorem depthOf_of_gate_of_mem
    {index : Nat} (hgate : scan.gate index wiring = .ok next) {wire : WireId}
    (hwire : wire ∈ scan.depth) : next.depthOf wire = scan.depthOf wire := by
  obtain ⟨_, _, _, houtputs, _⟩ := gate_eq_ok_iff.mp hgate
  rw [depthOf_of_gate hgate, if_neg]
  intro hmem
  exact houtputs wire hmem hwire

theorem deepest_of_gate
    {index : Nat} (hgate : scan.gate index wiring = .ok next)
    {other : GateWiring} (hinputs : ∀ wire ∈ other.inputs, wire ∈ scan.depth) :
    other.deepest next.depthOf = other.deepest scan.depthOf := by
  apply GateWiring.deepest_congr
  intro wire hwire
  exact depthOf_of_gate_of_mem hgate (hinputs wire hwire)

/-! What a scan covers after one more gate, field by field. -/

theorem Covers.deepest_eq
    (hcovers : scan.Covers inputs done) (hwired : Wired inputs done)
    (hgate : scan.gate done.length wiring = .ok next)
    {gate : GateWiring} (hdone : gate ∈ done) :
    gate.deepest next.depthOf = gate.deepest scan.depthOf := by
  apply deepest_of_gate hgate
  intro wire hwire
  rw [hcovers.driven]
  exact hwired.mem_driven_of_mem_inputs hdone hwire

theorem Covers.mem_depth_iff
    (hcovers : scan.Covers inputs done)
    (hgate : scan.gate done.length wiring = .ok next) (wire : WireId) :
    wire ∈ next.depth ↔ wire ∈ drivenWires inputs (done ++ [wiring]) := by
  obtain ⟨_, _, _, _, rfl⟩ := gate_eq_ok_iff.mp hgate
  have hdriven := hcovers.driven wire
  rw [mem_iff_exists_getElem?] at hdriven
  rw [mem_iff_exists_getElem?, getElem?_assignAll, drivenWires_append]
  simp only [List.flatMap_singleton, List.mem_append]
  split_ifs with hmem
  · simp [hmem]
  · rw [hdriven]
    simp [hmem]

theorem Covers.mem_numbers_iff
    (hcovers : scan.Covers inputs done)
    (hgate : scan.gate done.length wiring = .ok next) (number : GateNumber) :
    number ∈ next.numbers ↔
      number ∈ (done ++ [wiring]).map GateWiring.number := by
  obtain ⟨_, _, _, _, rfl⟩ := gate_eq_ok_iff.mp hgate
  have hnumber : compare wiring.number number = .eq ↔
      number = wiring.number := by
    rw [Std.LawfulEqOrd.compare_eq_iff_eq, eq_comm]
  rw [Std.ExtTreeSet.mem_insert, hcovers.numbered, hnumber, List.map_append,
    List.mem_append, List.map_singleton, List.mem_singleton, or_comm]

theorem Covers.deepens_append
    (hcovers : scan.Covers inputs done) (hwired : Wired inputs done)
    (hgate : scan.gate done.length wiring = .ok next) :
    Deepens inputs (done ++ [wiring]) next.depthOf := by
  obtain ⟨_, hinputs, _⟩ := gate_eq_ok_iff.mp hgate
  constructor
  · intro wire hwire
    have hmem : wire ∈ scan.depth := by
      rw [hcovers.driven, mem_drivenWires]
      exact Or.inl hwire
    rw [depthOf_of_gate_of_mem hgate hmem, hcovers.deepens.input wire hwire]
  · intro gate hgates wire hwire
    rcases List.mem_append.mp hgates with hdone | hnew
    · have hmem : wire ∈ scan.depth := by
        rw [hcovers.driven, mem_drivenWires]
        exact Or.inr ⟨gate, hdone, hwire⟩
      rw [hcovers.deepest_eq hwired hgate hdone,
        depthOf_of_gate_of_mem hgate hmem,
        hcovers.deepens.output gate hdone wire hwire]
    · rw [List.mem_singleton] at hnew
      subst hnew
      rw [deepest_of_gate hgate hinputs, depthOf_of_gate hgate, if_pos hwire]

theorem Covers.getD_levels
    (hcovers : scan.Covers inputs done) (hwired : Wired inputs done)
    (hgate : scan.gate done.length wiring = .ok next) (level : Nat) :
    next.levels.getD level [] =
      levelIndices (done ++ [wiring]) next.depthOf level := by
  obtain ⟨_, hinputs, _, _, hnext⟩ := gate_eq_ok_iff.mp hgate
  have hplaced : next.levels = Levels.place done.length
      (wiring.deepest scan.depthOf) scan.levels := by
    rw [hnext]
  have hdeepest : ∀ gate ∈ done,
      gate.deepest next.depthOf = gate.deepest scan.depthOf :=
    fun _ hdone => hcovers.deepest_eq hwired hgate hdone
  rw [levelIndices_append_singleton, levelIndices_congr hdeepest,
    deepest_of_gate hgate hinputs, ← hcovers.levels, hplaced,
    Levels.getD_place]
  by_cases hlevel : level = wiring.deepest scan.depthOf
  · rw [if_pos hlevel, if_pos hlevel.symm]
  · rw [if_neg hlevel, if_neg (Ne.symm hlevel), List.append_nil]

theorem Covers.afterGate
    (hcovers : scan.Covers inputs done) (hwired : Wired inputs done)
    (hgate : scan.gate done.length wiring = .ok next) :
    next.Covers inputs (done ++ [wiring]) where
  driven := hcovers.mem_depth_iff hgate
  numbered := hcovers.mem_numbers_iff hgate
  deepens := hcovers.deepens_append hwired hgate
  levels := hcovers.getD_levels hwired hgate

theorem Covers.afterGates
    (hcovers : scan.Covers inputs done) (hwired : Wired inputs done)
    {rest : List GateWiring}
    (hgates : scan.gates done.length rest = .ok next) :
    Wired inputs (done ++ rest) ∧ next.Covers inputs (done ++ rest) := by
  induction rest generalizing done scan with
  | nil =>
      cases hgates
      simpa using ⟨hwired, hcovers⟩
  | cons wiring rest ih =>
      obtain ⟨after, hgate, hrest⟩ := bind_eq_ok_iff.mp hgates
      have hnext := (hcovers.wired_append_iff hwired).mp ⟨after, hgate⟩
      have hafter := ih (hcovers.afterGate hwired hgate) hnext
        (by simpa using hrest)
      simpa using hafter

end

end Scan

/-- The gates are wired up, and each level holds the gates whose deepest input
has its depth. -/
structure Scheduled (inputs : List WireId) (gates : List GateWiring)
    (outputs : List WireId) (levels : Levels) (depth : WireId → Nat) :
    Prop where
  wired : Wired inputs gates
  outputs_driven : ∀ wire ∈ outputs, wire ∈ drivenWires inputs gates
  deepens : Deepens inputs gates depth
  levels_eq : ∀ level, levels.getD level [] = levelIndices gates depth level

theorem schedule_eq_ok_iff
    {partyInputs : List (List WireId)} {gates : List GateWiring}
    {outputs : List WireId} {levels : Levels} :
    schedule partyInputs gates outputs = .ok levels ↔
      partyInputs.flatten.Nodup ∧ ∃ scan : Scan,
        Scan.gates ⟨assignAll ∅ partyInputs.flatten 0, ∅, []⟩ 0 gates =
            .ok scan ∧
          (∀ wire ∈ outputs, wire ∈ scan.depth) ∧ scan.levels = levels := by
  simp only [schedule, bind_eq_ok_iff, Scan.start_eq_ok_iff]
  constructor
  · rintro ⟨_, ⟨hnodup, rfl⟩, scan, hgates, hlevels⟩
    refine ⟨hnodup, scan, hgates, ?_⟩
    split at hlevels
    next => simp [throw, throwThe, MonadExceptOf.throw] at hlevels
    next hnone =>
      refine ⟨?_, pure_eq_ok_iff.mp hlevels⟩
      intro wire hwire
      simpa using List.find?_eq_none.mp hnone wire hwire
  · rintro ⟨hnodup, scan, hgates, houtputs, rfl⟩
    have hnone : (outputs.find? fun wire => ¬scan.depth.contains wire) =
        none := by
      rw [List.find?_eq_none]
      intro wire hwire
      simpa using houtputs wire hwire
    refine ⟨_, ⟨hnodup, rfl⟩, scan, hgates, ?_⟩
    rw [hnone]
    rfl

theorem exists_scheduled_of_schedule
    {partyInputs : List (List WireId)} {gates : List GateWiring}
    {outputs : List WireId} {levels : Levels}
    (hschedule : schedule partyInputs gates outputs = .ok levels) :
    ∃ depth, Scheduled partyInputs.flatten gates outputs levels depth := by
  obtain ⟨hnodup, scan, hgates, houtputs, rfl⟩ :=
    schedule_eq_ok_iff.mp hschedule
  obtain ⟨hwired, hcovers⟩ := (Scan.covers_start _).afterGates
    (Wired.nil_iff.mpr hnodup) hgates
  rw [List.nil_append] at hwired hcovers
  refine ⟨scan.depthOf, hwired, ?_, hcovers.deepens, hcovers.levels⟩
  intro wire hwire
  exact (hcovers.driven wire).mp (houtputs wire hwire)

/-- Any driven wires can be the outputs of a circuit. -/
theorem schedule_of_outputs_driven
    {partyInputs : List (List WireId)} {gates : List GateWiring}
    {outputs others : List WireId} {levels : Levels}
    (hschedule : schedule partyInputs gates outputs = .ok levels)
    (hothers : ∀ wire ∈ others,
      wire ∈ drivenWires partyInputs.flatten gates) :
    schedule partyInputs gates others = .ok levels := by
  rw [schedule_eq_ok_iff] at hschedule ⊢
  obtain ⟨hnodup, scan, hgates, _, hlevels⟩ := hschedule
  obtain ⟨_, hcovers⟩ := (Scan.covers_start _).afterGates
    (Wired.nil_iff.mpr hnodup) hgates
  refine ⟨hnodup, scan, hgates, ?_, hlevels⟩
  intro wire hwire
  exact (hcovers.driven wire).mpr (hothers wire hwire)

/-! ## What the levels depend on -/

namespace Scan

/-- Two scans of the same gates find the same levels, whatever else is driven
in either: a gate reads only what is driven in both. -/
theorem levels_eq_of_gates
    {gates : List GateWiring} {scan other next nextOther : Scan} {index : Nat}
    (hlevels : scan.levels = other.levels)
    (hdepth : ∀ wire ∈ scan.depth, wire ∈ other.depth →
      scan.depthOf wire = other.depthOf wire)
    (hrun : scan.gates index gates = .ok next)
    (hrunOther : other.gates index gates = .ok nextOther) :
    next.levels = nextOther.levels := by
  induction gates generalizing scan other index with
  | nil =>
      cases hrun
      cases hrunOther
      exact hlevels
  | cons wiring rest ih =>
      obtain ⟨after, hgate, hrest⟩ := bind_eq_ok_iff.mp hrun
      obtain ⟨afterOther, hgateOther, hrestOther⟩ :=
        bind_eq_ok_iff.mp hrunOther
      obtain ⟨_, hinputs, _, houtputs, rfl⟩ := gate_eq_ok_iff.mp hgate
      obtain ⟨_, hinputsOther, _, houtputsOther, rfl⟩ :=
        gate_eq_ok_iff.mp hgateOther
      have hdeepest : wiring.deepest scan.depthOf =
          wiring.deepest other.depthOf := by
        apply GateWiring.deepest_congr
        intro wire hwire
        exact hdepth wire (hinputs wire hwire) (hinputsOther wire hwire)
      refine ih ?_ ?_ hrest hrestOther
      · simp only [hlevels, hdeepest]
      · intro wire hwire hwireOther
        simp only [mem_iff_exists_getElem?, getElem?_assignAll]
          at hwire hwireOther
        simp only [depthOf, getElem?_assignAll, hdeepest]
        split_ifs at hwire hwireOther ⊢ with hmem
        · rfl
        · exact hdepth wire (mem_iff_exists_getElem?.mpr hwire)
            (mem_iff_exists_getElem?.mpr hwireOther)

end Scan

/-- The levels depend on the gates alone. -/
theorem levels_eq_of_schedule
    {partyInputs otherInputs : List (List WireId)} {gates : List GateWiring}
    {outputs otherOutputs : List WireId} {levels otherLevels : Levels}
    (hschedule : schedule partyInputs gates outputs = .ok levels)
    (hother : schedule otherInputs gates otherOutputs = .ok otherLevels) :
    levels = otherLevels := by
  obtain ⟨_, scan, hgates, _, rfl⟩ := schedule_eq_ok_iff.mp hschedule
  obtain ⟨_, otherScan, hotherGates, _, rfl⟩ := schedule_eq_ok_iff.mp hother
  refine Scan.levels_eq_of_gates ?_ ?_ hgates hotherGates
  · rfl
  · intro wire hwire hwireOther
    rw [(Scan.covers_start _).driven, mem_drivenWires] at hwire hwireOther
    have hinput := (Scan.covers_start partyInputs.flatten).deepens.input wire
      (by simpa using hwire)
    have hinputOther := (Scan.covers_start otherInputs.flatten).deepens.input
      wire (by simpa using hwireOther)
    rw [hinput, hinputOther]

end GarbledCircuits
