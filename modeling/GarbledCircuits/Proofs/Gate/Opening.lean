import GarbledCircuits.Proofs.Failure
import GarbledCircuits.Proofs.Gate.Encoding
import GarbledCircuits.Proofs.Table.Rows

/-!
# The row that a gate opens

Of a table, the evaluation of a gate looks at its shape and at one row.  Where
that row opens, no other row with the same payload does: the tag is computed
from the payload alone, and the row holds this tag already.
-/

namespace GarbledCircuits

open Outcome

/-- Where only the tag of a row is another, the row can still be read. -/
theorem Table.exists_row_of_other_tag
    {table other : Table} {index : Nat} {row : List UInt8}
    (hrow : table.row index = some row) (hsize : other.rowSize = table.rowSize)
    (hpayload : (other.row index).map withoutTag =
      (table.row index).map withoutTag)
    (hne : other.row index ≠ table.row index) :
    ∃ changed, other.row index = some changed ∧
      changed.length = row.length ∧ withoutTag changed = withoutTag row ∧
      changed ≠ row := by
  rw [hrow, Option.map_some, Option.map_eq_some_iff] at hpayload
  obtain ⟨changed, hchanged, hcut⟩ := hpayload
  refine ⟨changed, hchanged, ?_, hcut, ?_⟩
  · rw [length_of_row hchanged, length_of_row hrow, hsize]
  · intro heq
    rw [heq] at hchanged
    exact hne (hchanged.trans hrow.symm)

namespace GateWiring

variable {wiring : GateWiring} {scheme : Scheme} {table other : Table}
  {keys : List WireKey} {key : WireKey}

/-- Where a gate evaluates, it evaluates every table of the same shape by
opening the row at the same position in the same session. -/
theorem exists_session_of_evaluate
    (hevaluate : wiring.evaluate scheme table keys = .ok key) :
    ∃ (session : Session scheme) (row payload : List UInt8),
      table.row (position (signalBits keys)) = some row ∧
        row.length = scheme.cipherSize ∧
        session.decrypt row = .ok payload ∧
        ∀ (other : Table) (changed : List UInt8),
          other.rows = table.rows → other.rowSize = table.rowSize →
          other.row (position (signalBits keys)) = some changed →
            wiring.evaluate scheme other keys =
              GateError.ofCipher wiring.number (session.decrypt changed) >>=
                keyOfPayload wiring.number := by
  simp only [evaluate, bind_eq_ok_iff, exists_unit_iff] at hevaluate
  obtain ⟨hcount, hcapacity, hshape, session, hsession, hopen⟩ := hevaluate
  split at hopen
  next => simp [throw, throwThe, MonadExceptOf.throw] at hopen
  next row hrow =>
    obtain ⟨payload, hdecrypt, _⟩ := bind_eq_ok_iff.mp hopen
    obtain ⟨_, hrowSize⟩ := checkShape_eq_ok_iff.mp hshape
    refine ⟨session, row, payload, hrow,
      (Table.length_of_row hrow).trans hrowSize,
      mapError_eq_ok_iff.mp hdecrypt, ?_⟩
    intro other changed hrows hsize hchanged
    have hother : checkShape wiring.number other wiring.rows
        scheme.cipherSize = .ok () := by
      rw [checkShape_eq_ok_iff, hrows, hsize]
      exact checkShape_eq_ok_iff.mp hshape
    simp only [evaluate, hcount, hcapacity, hother, hsession, ok_bind,
      hchanged]

theorem evaluate_of_same_row
    (hevaluate : wiring.evaluate scheme table keys = .ok key)
    (hrows : other.rows = table.rows) (hsize : other.rowSize = table.rowSize)
    (hsame : other.row (position (signalBits keys)) =
      table.row (position (signalBits keys))) :
    wiring.evaluate scheme other keys = .ok key := by
  obtain ⟨session, row, _, hrow, _, _, hopen⟩ :=
    exists_session_of_evaluate hevaluate
  rw [hopen other row hrows hsize (hsame.trans hrow),
    ← hopen table row rfl rfl hrow]
  exact hevaluate

theorem evaluate_of_other_tag
    (hevaluate : wiring.evaluate scheme table keys = .ok key)
    (hrows : other.rows = table.rows) (hsize : other.rowSize = table.rowSize)
    (hpayload : (other.row (position (signalBits keys))).map withoutTag =
      (table.row (position (signalBits keys))).map withoutTag)
    (hne : other.row (position (signalBits keys)) ≠
      table.row (position (signalBits keys))) :
    wiring.evaluate scheme other keys =
      .error (.cipher wiring.number .integrityCheckFailed) := by
  obtain ⟨session, row, payload, hrow, _, hdecrypt, hopen⟩ :=
    exists_session_of_evaluate hevaluate
  obtain ⟨changed, hchanged, hlength, hcut, hother⟩ :=
    Table.exists_row_of_other_tag hrow hsize hpayload hne
  rw [hopen other changed hrows hsize hchanged,
    Session.decrypt_of_other_tag hdecrypt hlength hcut hother]
  rfl

end GateWiring

end GarbledCircuits
