import GarbledCircuits.Garbled.Decode
import GarbledCircuits.Proofs.Garbled.Evaluation

/-!
# Decoding selected keys

Keys that values select from opposed pairs decode to those values, by the
pairs and by a translation table that holds the signal bits of the pairs.  So
the outputs of a realized circuit decode to what the circuit computes.
-/

namespace GarbledCircuits

open Outcome

theorem checkOutputCount_eq_ok_iff {expected actual : Nat} :
    checkOutputCount expected actual = .ok () ↔ actual = expected := by
  unfold checkOutputCount
  split_ifs with hcount
  · simpa using Ne.symm hcount
  · simpa using (not_not.mp hcount).symm

section

variable {pairs : List KeyPair} {values : List Bool}
  (hopposed : ∀ pair ∈ pairs, pair.Opposed)
  (hlength : pairs.length = values.length)

include hopposed hlength

theorem translate_selectKeys
    {translation : Translation}
    (hbits : translation.bits = pairs.map KeyPair.signalBit) :
    translate (selectKeys pairs values) translation = .ok values := by
  have hcount : checkOutputCount translation.length
      (selectKeys pairs values).length = .ok () := by
    rw [checkOutputCount_eq_ok_iff, Translation.length, hbits]
    simp [selectKeys, hlength]
  have hmask : List.zipWith (fun key bit => key.signalBit ^^ bit)
      (selectKeys pairs values) (pairs.map KeyPair.signalBit) = values := by
    have hsignal : List.zipWith (fun key bit => key.signalBit ^^ bit)
        (selectKeys pairs values) (pairs.map KeyPair.signalBit) =
          xorBits (signalBits (selectKeys pairs values))
            (pairs.map KeyPair.signalBit) := by
      rw [xorBits, signalBits, List.zipWith_map_left]
    rw [hsignal, signalBits_selectKeys hopposed,
      xorBits_xorBits (by rw [List.length_map, hlength])]
  rw [translate, hcount, hbits, hmask]
  rfl

theorem decodeFrom_selectKeys (index : Nat) :
    decodeFrom decodeByPair index ((selectKeys pairs values).zip pairs) =
      .ok values := by
  induction pairs generalizing values index with
  | nil =>
      rw [List.eq_nil_of_length_eq_zero hlength.symm]
      rfl
  | cons pair pairs ih =>
      cases values with
      | nil => cases hlength
      | cons value values =>
          have hfirst : decodeByPair index (pair.select value, pair) =
              .ok value := by
            rw [decodeByPair,
              KeyPair.decode_select (hopposed pair (List.mem_cons_self ..))]
          have hrest := ih
            (fun other hother => hopposed other (List.mem_cons_of_mem _ hother))
            (Nat.succ.inj hlength) (index + 1)
          unfold selectKeys at hrest ⊢
          rw [List.zipWith_cons_cons, List.zip_cons_cons, decodeFrom, hfirst]
          simp only [hrest, bind, Except.bind, pure, Except.pure]

theorem verifiedTranslate_selectKeys :
    verifiedTranslate (selectKeys pairs values) pairs = .ok values := by
  have hcount : checkOutputCount pairs.length
      (selectKeys pairs values).length = .ok () := by
    rw [checkOutputCount_eq_ok_iff]
    simp [hlength]
  rw [verifiedTranslate, hcount]
  exact decodeFrom_selectKeys hopposed hlength 0

end

/-- From keys that its input bits select, a realized circuit is evaluated and
decoded to what the circuit computes. -/
theorem Circuit.RealizedBy.agrees
    {circuit : Circuit} {executor : Executor} {scheme : Scheme}
    {garbled : GarbledCircuit} {pair : WireId → KeyPair}
    (hsize : scheme.cipherSize = 32)
    (hrealized : circuit.RealizedBy scheme garbled.tables pair)
    (htopology : garbled.topology = circuit.topology)
    (hcount : garbled.tables.length = circuit.gates.length)
    {outs : List KeyPair} (houts : circuit.outputs.map pair = outs)
    (hopposed : ∀ out ∈ outs, out.Opposed)
    (hbits : garbled.translation.bits = outs.map KeyPair.signalBit)
    {bits : List (List Bool)} (hfits : circuit.Fits bits)
    {value : WireId → Bool} (hcarries : circuit.Carries value bits)
    (hcomputes : circuit.Computes value) {keys : ActiveKeys}
    (hkeys : ∀ wire ∈ circuit.inputs,
      keys[wire]? = some ((pair wire).select (value wire))) :
    ∃ values, circuit.compute bits = .ok values ∧
      outs.length = values.length ∧
      garbled.evaluate executor scheme keys = .ok (selectKeys outs values) ∧
      translate (selectKeys outs values) garbled.translation = .ok values ∧
      verifiedTranslate (selectKeys outs values) outs = .ok values := by
  have hcompute := (compute_eq_ok_iff hfits).mpr
    ⟨value, hcarries, hcomputes, rfl⟩
  have hevaluate : garbled.evaluate executor scheme keys = _ :=
    GarbledCircuit.evaluate_of_realizedBy hsize htopology hcount hrealized
      hcomputes hkeys
  have hlength : outs.length = (circuit.outputs.map value).length := by
    rw [← houts, List.length_map, List.length_map]
  rw [houts] at hevaluate
  exact ⟨_, hcompute, hlength, hevaluate,
    translate_selectKeys hopposed hlength hbits,
    verifiedTranslate_selectKeys hopposed hlength⟩

end GarbledCircuits
