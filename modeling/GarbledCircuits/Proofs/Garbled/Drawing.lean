import GarbledCircuits.Proofs.Garbled.Garbling
import GarbledCircuits.Proofs.Garbled.Interface
import GarbledCircuits.Proofs.Garbled.Issuing

/-!
# Where the keys of a wire come from

Pairs are drawn one after the other, and each takes the same number of words.
The words of a pair are therefore known from its place alone: circuit inputs
come first, party by party, and then the gates in their order.  Nothing else
about a circuit, the scheme or the settings has a part in the keys.
-/

namespace GarbledCircuits

open Outcome

namespace WordStream

/-- The key whose bytes are the low bytes of the words from a number on, but
for its signal bit. -/
def keyAt (stream : WordStream) (first : Nat) (signalBit : Bool) : WireKey :=
  let bytes := (List.range WireKey.size).map fun i =>
    (stream.word (first + i)).toUInt8
  (WireKey.ofBytes bytes).withSignalBit signalBit

/-- The keys in the pair of a place: the top bit of one word is the signal
bit, and each key has the next sixteen words. -/
def keysAt (stream : WordStream) (place : Nat) : WireKeys :=
  let first := stream.position + wordsPerPair * place
  let bit := (stream.word first).toBitVec.msb
  ⟨⟨stream.keyAt (first + 1) bit,
    stream.keyAt (first + 1 + WireKey.size) !bit⟩, bit⟩

example : wordsPerPair = 33 := rfl

variable {stream : WordStream}

theorem drawWire_eq (stream : WordStream) :
    stream.drawWire =
      (((stream.keysAt 0).pair, (stream.keysAt 0).signalBit),
        stream.skip wordsPerPair) :=
  Prod.ext rfl stream.drawWire_position

theorem keysAt_skip (place : Nat) :
    (stream.skip wordsPerPair).keysAt place = stream.keysAt (place + 1) := by
  have hfirst : stream.position + wordsPerPair + wordsPerPair * place =
      stream.position + wordsPerPair * (place + 1) := by
    rw [Nat.mul_succ, Nat.add_comm (wordsPerPair * place), Nat.add_assoc]
  unfold keysAt
  rw [← hfirst]
  rfl

/-- Every pair lies where its place says, and the stream ends behind the last
of them. -/
theorem drawWires_eq (stream : WordStream) (count : Nat) :
    stream.drawWires count =
      ((List.range count).map fun place =>
        ((stream.keysAt place).pair, (stream.keysAt place).signalBit),
        stream.skip (wordsPerPair * count)) := by
  induction count generalizing stream with
  | zero => rfl
  | succ count ih =>
      have hskip : (stream.skip wordsPerPair).skip (wordsPerPair * count) =
          stream.skip (wordsPerPair * (count + 1)) := by
        simp only [skip, WordStream.mk.injEq, true_and]
        rw [Nat.mul_succ, Nat.add_comm (wordsPerPair * count), Nat.add_assoc]
      rw [drawWires, drawWire_eq]
      simp only [ih, keysAt_skip, hskip, List.range_succ_eq_map, List.map_cons,
        List.map_map]
      rfl

end WordStream

/-- The registered wires are those of the circuit, and the pair of each lies
at the place of the circuit input or of the gate that drives it. -/
structure KeyStore.IssuedFrom (store : KeyStore) (circuit : Circuit)
    (stream : WordStream) : Prop where
  wires : ∀ wire, wire ∈ store.wires ↔
    wire ∈ circuit.inputs ∨ ∃ gate ∈ circuit.gates, wire ∈ gate.outputs
  inputs : ∀ place wire, circuit.inputs[place]? = some wire →
    store.wires[wire]? = some (stream.keysAt place)
  outputs : ∀ index gate, circuit.gates[index]? = some gate →
    ∀ wire ∈ gate.outputs, store.wires[wire]? =
      some (stream.keysAt (circuit.inputs.length + index))

namespace Circuit

variable {circuit other : Circuit} {stream : WordStream} {store : KeyStore}

theorem length_pairGroups (circuit : Circuit) :
    circuit.pairGroups.length =
      circuit.inputs.length + circuit.gates.length := by
  rw [pairGroups, List.length_append, List.length_map, List.length_map]

theorem issueKeys_position (circuit : Circuit) (stream : WordStream) :
    (circuit.issueKeys stream).2 =
      stream.skip (WordStream.wordsPerPair *
        (circuit.inputs.length + circuit.gates.length)) := by
  rw [issueKeys, stream.drawWires_eq, length_pairGroups]

/-- The wires of a group have the pair at the place of the group. -/
theorem getElem?_of_issueKeys
    (hissue : (circuit.issueKeys stream).1 = .ok store)
    {place : Nat} {group : List WireId}
    (hgroup : circuit.pairGroups[place]? = some group)
    {wire : WireId} (hwire : wire ∈ group) :
    store.wires[wire]? = some (stream.keysAt place) := by
  obtain ⟨_, _, hgroups⟩ :=
    KeyStore.foldlM_initAll_eq_ok KeyStore.wellFormed_empty hissue
  obtain ⟨hplace, hget⟩ := List.getElem?_eq_some_iff.mp hgroup
  have hentry : (group, (stream.keysAt place).pair,
      (stream.keysAt place).signalBit) ∈ circuit.pairGroups.zip
        (stream.drawWires circuit.pairGroups.length).1 := by
    rw [stream.drawWires_eq, List.mem_iff_getElem?]
    refine ⟨place, ?_⟩
    rw [List.getElem?_zip_eq_some]
    exact ⟨hgroup, by simp [hplace]⟩
  exact hgroups _ hentry wire hwire

theorem issuedFrom_of_issueKeys
    (hissue : (circuit.issueKeys stream).1 = .ok store) :
    store.IssuedFrom circuit stream := by
  refine ⟨?_, ?_, ?_⟩
  · intro wire
    rw [mem_wires_of_issueKeys hissue, wires, mem_drivenWires]
    simp
  · intro place wire hwire
    apply getElem?_of_issueKeys hissue _ (List.mem_singleton_self wire)
    rw [pairGroups, List.getElem?_append_left]
    · simp [hwire]
    · rw [List.length_map]
      exact (List.getElem?_eq_some_iff.mp hwire).1
  · intro index gate hgate wire hwire
    apply getElem?_of_issueKeys hissue _ hwire
    rw [pairGroups, List.getElem?_append_right (by simp), List.length_map,
      Nat.add_sub_cancel_left]
    simp [hgate]

/-! ## Two circuits, one stream -/

/-- The circuits have the same inputs, and their gates drive the same wires
one after the other. -/
structure SameWires (circuit other : Circuit) : Prop where
  partyInputs : other.partyInputs = circuit.partyInputs
  outputs : other.gates.map (fun gate => gate.outputs) =
    circuit.gates.map fun gate => gate.outputs

theorem SameWires.issueKeys_eq
    (hsame : circuit.SameWires other) (stream : WordStream) :
    other.issueKeys stream = circuit.issueKeys stream := by
  have hgroups : other.pairGroups = circuit.pairGroups := by
    rw [pairGroups, pairGroups, inputs, inputs, hsame.partyInputs,
      hsame.outputs]
  rw [issueKeys, issueKeys, hgroups]

theorem garbleUnder_eq_ok_iff
    {executor : Executor} {scheme : Scheme}
    {result : GarbledCircuit × Secrets}
    (hissue : (circuit.issueKeys stream).1 = .ok store) :
    circuit.garbleUnder executor scheme store = .ok result ↔
      ∃ tables, circuit.garbleTables executor scheme store = .ok tables ∧
        circuit.garblingOf scheme store tables = result := by
  rw [garbleUnder_eq fun wire hwire =>
    (mem_wires_of_issueKeys hissue).mpr hwire]
  refine map_eq_ok_iff.trans ?_
  simp only [mapError_eq_ok_iff]

/-- A garbler garbles its circuit under the issued keys. -/
theorem garbler_eq_ok_iff
    {settings : Settings} {machine : Machine} {scheme : Scheme}
    {garbler : Garbler} {result : GarbledCircuit × Secrets}
    (hgarbler : Garbler.setUp settings machine circuit scheme = .ok garbler)
    (hissue : (circuit.issueKeys stream).1 = .ok store) :
    (garbler.garble stream).1 = .ok result ↔
      circuit.garbleUnder garbler.executor scheme store = .ok result := by
  obtain ⟨executor, _, hparts⟩ := bind_eq_ok_iff.mp hgarbler
  obtain rfl := pure_eq_ok_iff.mp hparts
  rw [Garbler.garble, garble_eq_garbleUnder hissue]

/-- Issuing keys never fails; it registers the wires of the circuit with the
pairs at their places.  Circuits with the same wires use the same pairs under
all schemes and settings and on all machines, and with the same gates they get
the same tables. -/
theorem keys_drawn_by_place (circuit : Circuit) (stream : WordStream) :
    ∃ store,
      circuit.issueKeys stream =
          (.ok store, stream.skip (WordStream.wordsPerPair *
            (circuit.inputs.length + circuit.gates.length))) ∧
        store.IssuedFrom circuit stream ∧
        ∀ other : Circuit, circuit.SameWires other →
          other.issueKeys stream = circuit.issueKeys stream ∧
          ∀ settings otherSettings machine otherMachine scheme garbler,
            Garbler.setUp settings machine circuit scheme = .ok garbler →
            (∀ otherScheme otherGarbler,
              Garbler.setUp otherSettings otherMachine other otherScheme =
                .ok otherGarbler →
              ∀ result otherResult,
                (garbler.garble stream).1 = .ok result →
                (otherGarbler.garble stream).1 = .ok otherResult →
                  circuit.garbleUnder garbler.executor scheme store =
                      .ok result ∧
                  other.garbleUnder otherGarbler.executor otherScheme store =
                      .ok otherResult ∧
                  otherResult.2.inputPairs = result.2.inputPairs ∧
                  ∀ (place otherPlace : Nat) wire,
                    circuit.outputs[place]? = some wire →
                    other.outputs[otherPlace]? = some wire →
                      otherResult.2.outputPairs[otherPlace]? =
                        result.2.outputPairs[place]?) ∧
            (other.gates = circuit.gates →
              ∀ otherGarbler,
                Garbler.setUp otherSettings otherMachine other scheme =
                  .ok otherGarbler →
                ∀ result, (garbler.garble stream).1 = .ok result →
                  ∃ otherResult,
                    (otherGarbler.garble stream).1 = .ok otherResult ∧
                      otherResult.1.tables = result.1.tables) := by
  obtain ⟨store, hissue⟩ := circuit.exists_issueKeys stream
  refine ⟨store, Prod.ext hissue (circuit.issueKeys_position stream),
    issuedFrom_of_issueKeys hissue, ?_⟩
  intro other hsame
  have hissueOther : (other.issueKeys stream).1 = .ok store := by
    rw [hsame.issueKeys_eq stream, hissue]
  refine ⟨hsame.issueKeys_eq stream, ?_⟩
  intro settings otherSettings machine otherMachine scheme garbler hgarbler
  constructor
  · intro otherScheme otherGarbler hother result otherResult hresult
      hotherResult
    have hunder := (garbler_eq_ok_iff hgarbler hissue).mp hresult
    have hotherUnder := (garbler_eq_ok_iff hother hissueOther).mp hotherResult
    obtain ⟨tables, _, rfl⟩ := (garbleUnder_eq_ok_iff hissue).mp hunder
    obtain ⟨otherTables, _, rfl⟩ :=
      (garbleUnder_eq_ok_iff hissueOther).mp hotherUnder
    refine ⟨hunder, hotherUnder, ?_, ?_⟩
    · simp only [garblingOf, inputs, hsame.partyInputs]
    · intro place otherPlace wire hwire hotherWire
      simp [garblingOf, hwire, hotherWire]
  · intro hgates otherGarbler hother result hresult
    have hunder := (garbler_eq_ok_iff hgarbler hissue).mp hresult
    obtain ⟨tables, htables, rfl⟩ := (garbleUnder_eq_ok_iff hissue).mp hunder
    rw [garbleTables_eq_ok_iff, ← hgates] at htables
    refine ⟨other.garblingOf scheme store tables,
      (garbler_eq_ok_iff hother hissueOther).mpr ?_, rfl⟩
    exact (garbleUnder_eq_ok_iff hissueOther).mpr
      ⟨tables, garbleTables_eq_ok_iff.mpr htables, rfl⟩

/-- The inverter and the bypass have the same wires and gates. -/
theorem keys_drawn_by_place_bypass :
    inverter.SameWires bypass ∧
      ∃ garbler otherGarbler result otherResult,
        Garbler.setUp .sequential .inOrder inverter .fixedKeyAes =
            .ok garbler ∧
          Garbler.setUp (.levels none) .inOrder bypass .fixedKeyAes =
            .ok otherGarbler ∧
          (garbler.garble ⟨fun _ => 0, 0⟩).1 = .ok result ∧
          (otherGarbler.garble ⟨fun _ => 0, 0⟩).1 = .ok otherResult ∧
          otherResult.2.inputPairs = result.2.inputPairs ∧
          otherResult.1.tables = result.1.tables := by
  have hsame : inverter.SameWires bypass := ⟨rfl, rfl⟩
  have hok : (inverter.garble .sequential .fixedKeyAes
      ⟨fun _ => 0, 0⟩).1.isOk = true := by
    decide +kernel
  obtain ⟨result, hresult⟩ := exists_eq_ok_of_isOk hok
  have hgarbler : Garbler.setUp .sequential .inOrder inverter .fixedKeyAes =
      .ok ⟨inverter, .fixedKeyAes, .sequential⟩ := rfl
  have hother : Garbler.setUp (.levels none) .inOrder bypass .fixedKeyAes =
      .ok ⟨bypass, .fixedKeyAes, .pool .inOrder⟩ := rfl
  obtain ⟨store, _, _, hall⟩ := keys_drawn_by_place inverter ⟨fun _ => 0, 0⟩
  obtain ⟨_, hgarblings⟩ := hall bypass hsame
  obtain ⟨hpairs, htables⟩ := hgarblings _ _ _ _ _ _ hgarbler
  obtain ⟨otherResult, hotherResult, hequal⟩ :=
    htables rfl _ hother result hresult
  have hinputs :=
    (hpairs _ _ hother result otherResult hresult hotherResult).2.2.1
  exact ⟨hsame, _, _, result, otherResult, hgarbler, hother, hresult,
    hotherResult, hinputs, hequal⟩

end Circuit

end GarbledCircuits
