import GarbledCircuits.Garbled.Garble
import GarbledCircuits.Proofs.Circuit.Computation
import GarbledCircuits.Proofs.Wire.Store

/-!
# Issued keys

Every circuit input, and all outputs of a gate together, are registered with
one drawn pair, whose signal bits differ.  Registration fails rather than
replace a pair, so at the end every group of wires still has its own.  As the
wires of a circuit are driven once, registration never fails, and exactly the
wires of the circuit are registered.
-/

namespace GarbledCircuits

open Outcome

theorem WordStream.length_drawWires (stream : WordStream) (count : Nat) :
    (stream.drawWires count).1.length = count := by
  induction count generalizing stream with
  | zero => rfl
  | succ count ih => simp [drawWires, ih]

/-- Drawn pairs are ready to be registered. -/
theorem WordStream.opposed_of_mem_drawWires
    {stream : WordStream} {count : Nat} {entry : KeyPair × Bool}
    (hentry : entry ∈ (stream.drawWires count).1) :
    entry.1.Opposed ∧ entry.2 = entry.1.signalBit := by
  induction count generalizing stream with
  | zero => cases hentry
  | succ count ih =>
      rcases List.mem_cons.mp hentry with rfl | hrest
      · exact ⟨drawPair_opposed _ _, stream.drawWire_signalBit.symm⟩
      · exact ih hrest

namespace KeyStore

variable {store next : KeyStore}

theorem initAll_eq_ok
    {wires : List WireId} {pair : KeyPair} {bit : Bool}
    (hstore : store.WellFormed)
    (hinit : store.initAll (wires, pair, bit) = .ok next) :
    next.WellFormed ∧ store.ExtendedBy next ∧
      ∀ wire ∈ wires, next.wires[wire]? = some ⟨pair, bit⟩ := by
  induction wires generalizing store with
  | nil =>
      cases hinit
      exact ⟨hstore, .refl _, by simp⟩
  | cons first rest ih =>
      obtain ⟨middle, hfirst, hrest⟩ := bind_eq_ok_iff.mp hinit
      obtain ⟨hnext, hextended, hwires⟩ := ih (hstore.afterInit hfirst) hrest
      have hbefore := extendedBy_of_init hfirst
      refine ⟨hnext, fun wire keys hkeys =>
        hextended wire keys (hbefore wire keys hkeys), ?_⟩
      intro wire hwire
      rcases List.mem_cons.mp hwire with rfl | hmem
      · apply hextended
        rw [getElem?_of_init hfirst, if_pos rfl]
      · exact hwires wire hmem

theorem foldlM_initAll_eq_ok
    {groups : List (List WireId × (KeyPair × Bool))}
    (hstore : store.WellFormed)
    (hrun : groups.foldlM initAll store = .ok next) :
    next.WellFormed ∧ store.ExtendedBy next ∧
      ∀ entry ∈ groups, ∀ wire ∈ entry.1,
        next.wires[wire]? = some ⟨entry.2.1, entry.2.2⟩ := by
  induction groups generalizing store with
  | nil =>
      cases hrun
      exact ⟨hstore, .refl _, by simp⟩
  | cons first rest ih =>
      obtain ⟨middle, hfirst, hrest⟩ := bind_eq_ok_iff.mp hrun
      obtain ⟨hmiddle, hbefore, hwires⟩ := initAll_eq_ok hstore hfirst
      obtain ⟨hnext, hextended, hothers⟩ := ih hmiddle hrest
      refine ⟨hnext, fun wire keys hkeys =>
        hextended wire keys (hbefore wire keys hkeys), ?_⟩
      intro entry hentry wire hwire
      rcases List.mem_cons.mp hentry with rfl | hmem
      · exact hextended wire _ (hwires wire hwire)
      · exact hothers entry hmem wire hwire

/-! ## Registration succeeds -/

theorem getElem?_of_initAll_of_notMem
    {wires : List WireId} {pair : KeyPair} {bit : Bool}
    (hinit : store.initAll (wires, pair, bit) = .ok next) {other : WireId}
    (hother : other ∉ wires) : next.wires[other]? = store.wires[other]? := by
  induction wires generalizing store with
  | nil =>
      cases hinit
      rfl
  | cons first rest ih =>
      obtain ⟨middle, hfirst, hrest⟩ := bind_eq_ok_iff.mp hinit
      have hne : first ≠ other := fun heq =>
        hother (heq ▸ List.mem_cons_self ..)
      have hnotRest : other ∉ rest := fun hmem =>
        hother (List.mem_cons_of_mem _ hmem)
      rw [ih hrest hnotRest, getElem?_of_init hfirst, if_neg hne]

theorem getElem?_of_foldlM_initAll_of_notMem
    {groups : List (List WireId × (KeyPair × Bool))}
    (hrun : groups.foldlM initAll store = .ok next) {other : WireId}
    (hother : other ∉ groups.flatMap Prod.fst) :
    next.wires[other]? = store.wires[other]? := by
  induction groups generalizing store with
  | nil =>
      cases hrun
      rfl
  | cons first rest ih =>
      obtain ⟨middle, hfirst, hrest⟩ := bind_eq_ok_iff.mp hrun
      rw [List.flatMap_cons, List.mem_append, not_or] at hother
      rw [ih hrest hother.2, getElem?_of_initAll_of_notMem hfirst hother.1]

theorem exists_initAll
    {wires : List WireId} {pair : KeyPair} {bit : Bool}
    (hopposed : pair.Opposed) (hbit : bit = pair.signalBit)
    (hnodup : wires.Nodup) (hnew : ∀ wire ∈ wires, store.wires[wire]? = none) :
    ∃ next, store.initAll (wires, pair, bit) = .ok next := by
  induction wires generalizing store with
  | nil => exact ⟨store, rfl⟩
  | cons first rest ih =>
      obtain ⟨hfirst, hrest⟩ := List.nodup_cons.mp hnodup
      have hinit := init_eq_ok_iff.mpr ⟨hopposed, hbit,
        hnew first (List.mem_cons_self ..), rfl⟩
      obtain ⟨next, hnext⟩ := ih hrest (by
        intro wire hwire
        have hne : first ≠ wire := fun heq => hfirst (heq ▸ hwire)
        rw [getElem?_of_init hinit, if_neg hne]
        exact hnew wire (List.mem_cons_of_mem _ hwire))
      exact ⟨next, bind_eq_ok_iff.mpr ⟨_, hinit, hnext⟩⟩

theorem exists_foldlM_initAll
    {groups : List (List WireId × (KeyPair × Bool))}
    (hpairs : ∀ entry ∈ groups,
      entry.2.1.Opposed ∧ entry.2.2 = entry.2.1.signalBit)
    (hnodup : (groups.flatMap Prod.fst).Nodup)
    (hnew : ∀ wire ∈ groups.flatMap Prod.fst, store.wires[wire]? = none) :
    ∃ next, groups.foldlM initAll store = .ok next := by
  induction groups generalizing store with
  | nil => exact ⟨store, rfl⟩
  | cons first rest ih =>
      rw [List.flatMap_cons] at hnodup hnew
      obtain ⟨hfirst, hrest, hdisjoint⟩ := List.nodup_append.mp hnodup
      obtain ⟨hopposed, hbit⟩ := hpairs first (List.mem_cons_self ..)
      obtain ⟨middle, hmiddle⟩ := exists_initAll hopposed hbit hfirst
        fun wire hwire => hnew wire (List.mem_append_left _ hwire)
      obtain ⟨next, hnext⟩ := ih
        (fun entry hentry => hpairs entry (List.mem_cons_of_mem _ hentry))
        hrest (by
          intro wire hwire
          rw [getElem?_of_initAll_of_notMem hmiddle fun hmem =>
            hdisjoint wire hmem wire hwire rfl]
          exact hnew wire (List.mem_append_right _ hwire))
      exact ⟨next, bind_eq_ok_iff.mpr ⟨middle, hmiddle, hnext⟩⟩

end KeyStore

namespace Circuit

variable {circuit : Circuit} {stream : WordStream} {store : KeyStore}

/-- The wires of a group share one registered pair. -/
theorem issueKeys_eq_ok
    (hissue : (circuit.issueKeys stream).1 = .ok store) :
    store.WellFormed ∧ ∀ group ∈ circuit.pairGroups,
      ∃ keys, ∀ wire ∈ group, store.wires[wire]? = some keys := by
  obtain ⟨hstore, _, hgroups⟩ :=
    KeyStore.foldlM_initAll_eq_ok KeyStore.wellFormed_empty hissue
  refine ⟨hstore, ?_⟩
  intro group hgroup
  obtain ⟨index, hindex, rfl⟩ := List.mem_iff_getElem.mp hgroup
  have hdrawn := stream.length_drawWires circuit.pairGroups.length
  have hentry : (circuit.pairGroups[index],
      (stream.drawWires circuit.pairGroups.length).1[index]) ∈
        circuit.pairGroups.zip
          (stream.drawWires circuit.pairGroups.length).1 := by
    rw [List.mem_iff_getElem]
    exact ⟨index, by rw [List.length_zip]; omega, by simp⟩
  exact ⟨_, fun wire hwire => hgroups _ hentry wire hwire⟩

theorem exists_keys_of_mem_gates
    (hissue : (circuit.issueKeys stream).1 = .ok store) {gate : Gate}
    (hgate : gate ∈ circuit.gates) :
    ∃ keys, ∀ wire ∈ gate.outputs, store.wires[wire]? = some keys := by
  obtain ⟨_, hgroups⟩ := issueKeys_eq_ok hissue
  exact hgroups gate.outputs
    (List.mem_append_right _ (List.mem_map.mpr ⟨gate, hgate, rfl⟩))

theorem flatten_pairGroups (circuit : Circuit) :
    circuit.pairGroups.flatten = circuit.wires := by
  rw [pairGroups, List.flatten_append, wires, drivenWires, List.flatMap_map,
    ← List.flatMap_def, ← List.flatMap_def, List.flatMap_singleton']

theorem flatMap_fst_zip_pairGroups (circuit : Circuit) (stream : WordStream) :
    (circuit.pairGroups.zip (stream.drawWires
        circuit.pairGroups.length).1).flatMap Prod.fst = circuit.wires := by
  rw [List.flatMap_def, List.map_fst_zip, flatten_pairGroups]
  rw [stream.length_drawWires]

theorem mem_wires_of_issueKeys
    (hissue : (circuit.issueKeys stream).1 = .ok store) {wire : WireId} :
    wire ∈ store.wires ↔ wire ∈ circuit.wires := by
  obtain ⟨_, hgroups⟩ := issueKeys_eq_ok hissue
  constructor
  · intro hmem
    by_contra hwire
    rw [← circuit.flatMap_fst_zip_pairGroups stream] at hwire
    have hnone :=
      KeyStore.getElem?_of_foldlM_initAll_of_notMem hissue hwire
    rw [mem_iff_exists_getElem?, hnone] at hmem
    simp [KeyStore.empty] at hmem
  · intro hwire
    rw [← flatten_pairGroups, List.mem_flatten] at hwire
    obtain ⟨group, hgroup, hin⟩ := hwire
    obtain ⟨keys, hkeys⟩ := hgroups group hgroup
    exact mem_of_getElem? (hkeys wire hin)

/-- Keys can be issued for every circuit from every stream. -/
theorem exists_issueKeys (circuit : Circuit) (stream : WordStream) :
    ∃ store, (circuit.issueKeys stream).1 = .ok store := by
  apply KeyStore.exists_foldlM_initAll
  · intro entry hentry
    exact WordStream.opposed_of_mem_drawWires (List.of_mem_zip hentry).2
  · rw [flatMap_fst_zip_pairGroups]
    exact circuit.wired.nodup_driven
  · intro wire _
    simp [KeyStore.empty]

theorem garble_eq_garbleUnder
    {executor : Executor} {scheme : Scheme}
    (hissue : (circuit.issueKeys stream).1 = .ok store) :
    (circuit.garble executor scheme stream).1 =
      circuit.garbleUnder executor scheme store := by
  have hgarble : (circuit.garble executor scheme stream).1 = (do
      let store ← Stop.ofExcept
        (CircuitError.ofWire (circuit.issueKeys stream).1)
      circuit.garbleUnder executor scheme store) :=
    rfl
  rw [hgarble, hissue]
  rfl

theorem exists_issueKeys_of_garble
    {executor : Executor} {scheme : Scheme} {garbled : GarbledCircuit}
    {secrets : Secrets}
    (hgarble : (circuit.garble executor scheme stream).1 =
      .ok (garbled, secrets)) :
    ∃ store, (circuit.issueKeys stream).1 = .ok store ∧
      circuit.garbleUnder executor scheme store = .ok (garbled, secrets) := by
  obtain ⟨store, hissue, hunder⟩ := bind_eq_ok_iff.mp hgarble
  rw [Stop.ofExcept_eq_ok_iff, CircuitError.ofWire, mapError_eq_ok_iff]
    at hissue
  exact ⟨store, hissue, hunder⟩

end Circuit

end GarbledCircuits
