import GarbledCircuits.Proofs.Outcome
import GarbledCircuits.Wire.Store
import Mathlib.Tactic

/-!
# Registered wires

Every registered wire has an opposed pair and the signal bit of that pair.
Registration keeps this and never changes a wire that is registered already.
-/

namespace GarbledCircuits

open Outcome

namespace KeyStore

/-- Registered pairs are opposed, with the stated signal bit. -/
def WellFormed (store : KeyStore) : Prop :=
  ∀ (wire : WireId) (keys : WireKeys), store.wires[wire]? = some keys →
    keys.pair.Opposed ∧ keys.signalBit = keys.pair.signalBit

@[ext] theorem ext {store other : KeyStore}
    (hwires : ∀ wire : WireId, store.wires[wire]? = other.wires[wire]?) :
    store = other := by
  cases store
  cases other
  congr 1
  exact Std.ExtTreeMap.ext_getElem? hwires

theorem contains_eq_isSome {store : KeyStore} {wire : WireId} :
    store.contains wire = store.wires[wire]?.isSome :=
  Std.ExtTreeMap.contains_eq_isSome_getElem?

theorem contains_eq_false_iff {store : KeyStore} {wire : WireId} :
    store.contains wire = false ↔ store.wires[wire]? = none := by
  rw [contains_eq_isSome, Option.isSome_eq_false_iff,
    Option.isNone_iff_eq_none]

theorem get_eq_ok_iff {store : KeyStore} {wire : WireId} {keys : WireKeys} :
    store.get wire = .ok keys ↔ store.wires[wire]? = some keys := by
  unfold get
  split <;> simp_all

theorem pair_eq_ok_iff {store : KeyStore} {wire : WireId} {pair : KeyPair} :
    store.pair wire = .ok pair ↔
      ∃ keys, store.wires[wire]? = some keys ∧ keys.pair = pair := by
  simp only [KeyStore.pair, map_eq_ok_iff, get_eq_ok_iff]

theorem WellFormed.opposed
    {store : KeyStore} (hstore : store.WellFormed) {wire : WireId}
    {pair : KeyPair} (hpair : store.pair wire = .ok pair) : pair.Opposed := by
  obtain ⟨keys, hkeys, rfl⟩ := pair_eq_ok_iff.mp hpair
  exact (hstore wire keys hkeys).1

theorem mapM_pair_eq_ok_iff
    {store : KeyStore} {wires : List WireId} {pairs : List KeyPair} :
    wires.mapM store.pair = .ok pairs ↔
      ∃ entries, wires.mapM store.get = .ok entries ∧
        entries.map WireKeys.pair = pairs :=
  mapM_map_eq_ok_iff

theorem WellFormed.of_mapM_get
    {store : KeyStore} (hstore : store.WellFormed) {wires : List WireId}
    {entries : List WireKeys} (hentries : wires.mapM store.get = .ok entries) :
    ∀ entry ∈ entries,
      entry.pair.Opposed ∧ entry.signalBit = entry.pair.signalBit := by
  rw [mapM_eq_ok_iff] at hentries
  intro entry hentry
  obtain ⟨index, hindex, rfl⟩ := List.mem_iff_getElem.mp hentry
  have hget := hentries.get (by rw [hentries.length_eq]; exact hindex) hindex
  exact hstore _ _ (get_eq_ok_iff.mp hget)

theorem wellFormed_empty : KeyStore.empty.WellFormed := by
  intro wire keys hkeys
  simp [empty] at hkeys

end KeyStore

/-! ## Registering a wire -/

/-- The keys differ, and carry the signal bit and its opposite. -/
structure WireKeys.Consistent (keys : WireKeys) : Prop where
  key_ne : keys.pair.key0 ≠ keys.pair.key1
  key0 : keys.pair.key0.signalBit = keys.signalBit
  key1 : keys.pair.key1.signalBit = !keys.signalBit

theorem WireKeys.consistent_iff {keys : WireKeys} :
    keys.Consistent ↔
      keys.pair.Opposed ∧ keys.signalBit = keys.pair.signalBit := by
  constructor
  · intro hkeys
    refine ⟨?_, hkeys.key0.symm⟩
    rw [KeyPair.Opposed, hkeys.key0, hkeys.key1]
    exact (Bool.not_ne_self _).symm
  · rintro ⟨hopposed, hbit⟩
    refine ⟨?_, hbit.symm, ?_⟩
    · intro hequal
      exact hopposed (by rw [hequal])
    · rw [hbit]
      exact Bool.eq_not.mpr hopposed.symm

namespace Registration

variable {registration : Registration} {store next : KeyStore}
  {keys : WireKeys}

/-- The bits are checked after the keys were found to differ. -/
theorem consistent_iff_of_ne
    (hne : registration.pair.key0 ≠ registration.pair.key1) :
    registration.keys.Consistent ↔
      ¬(registration.pair.key0.signalBit ≠ registration.signalBit ∨
        registration.pair.key1.signalBit = registration.signalBit) := by
  rw [not_or, not_not]
  constructor
  · intro hkeys
    refine ⟨hkeys.key0, ?_⟩
    rw [← ne_eq, ← Bool.eq_not]
    exact hkeys.key1
  · rintro ⟨hbit, hother⟩
    exact ⟨hne, hbit, Bool.eq_not.mpr hother⟩

theorem run_call_of_equal
    (hequal : registration.pair.key0 = registration.pair.key1) :
    registration.call.run store =
      .error (.identicalKeys registration.wire) store := by
  simp [call, hequal]

theorem run_call_of_not_consistent
    (hne : registration.pair.key0 ≠ registration.pair.key1)
    (hkeys : ¬ registration.keys.Consistent) :
    registration.call.run store =
      .error (.inconsistentSignalBit registration.wire
        registration.signalBit) store := by
  rw [consistent_iff_of_ne hne, not_not] at hkeys
  simp [call, hne, hkeys]

/-- Of consistent keys, only the wire is left to be checked. -/
theorem run_call_of_consistent (hkeys : registration.keys.Consistent) :
    registration.call.run store =
      if store.contains registration.wire then
        .error (.wireAlreadyInitialized registration.wire) store
      else .ok registration.keys
        ⟨store.wires.insert registration.wire registration.keys⟩ := by
  have hne : registration.pair.key0 ≠ registration.pair.key1 := hkeys.key_ne
  rw [consistent_iff_of_ne hne] at hkeys
  by_cases hold : store.contains registration.wire = true
  · simp [call, hne, hkeys, hold]
  · simp [call, -bind_pure_comp, hne, hkeys, hold]

theorem run_call_eq_ok_iff :
    registration.call.run store = .ok keys next ↔
      registration.keys.Consistent ∧
        store.contains registration.wire = false ∧
        keys = registration.keys ∧
        next = ⟨store.wires.insert registration.wire registration.keys⟩ := by
  constructor
  · intro hrun
    by_cases hequal : registration.pair.key0 = registration.pair.key1
    · rw [run_call_of_equal hequal] at hrun
      cases hrun
    by_cases hkeys : registration.keys.Consistent
    · rw [run_call_of_consistent hkeys] at hrun
      split_ifs at hrun with hold
      cases hrun
      exact ⟨hkeys, Bool.eq_false_iff.mpr hold, rfl, rfl⟩
    · rw [run_call_of_not_consistent hequal hkeys] at hrun
      cases hrun
  · rintro ⟨hkeys, hnew, rfl, rfl⟩
    rw [run_call_of_consistent hkeys, hnew]
    rfl

end Registration

namespace KeyStore

/-- A wire is registered exactly if its pair carries the stated signal bit and
the wire is new. -/
theorem init_eq_ok_iff
    {store next : KeyStore} {wire : WireId} {pair : KeyPair} {bit : Bool} :
    store.init wire pair bit = .ok next ↔
      pair.Opposed ∧ bit = pair.signalBit ∧ store.wires[wire]? = none ∧
        next = ⟨store.wires.insert wire ⟨pair, bit⟩⟩ := by
  rw [init, stateAfter_eq_ok_iff]
  simp only [Registration.run_call_eq_ok_iff, WireKeys.consistent_iff,
    contains_eq_false_iff, exists_eq_left, exists_and_left, and_assoc]
  rfl

theorem getElem?_of_init
    {store next : KeyStore} {wire : WireId} {pair : KeyPair} {bit : Bool}
    (hinit : store.init wire pair bit = .ok next) (other : WireId) :
    next.wires[other]? =
      if wire = other then some ⟨pair, bit⟩ else store.wires[other]? := by
  obtain ⟨_, _, _, rfl⟩ := init_eq_ok_iff.mp hinit
  simp [Std.ExtTreeMap.getElem?_insert]

theorem WellFormed.afterInit
    {store next : KeyStore} (hstore : store.WellFormed) {wire : WireId}
    {pair : KeyPair} {bit : Bool}
    (hinit : store.init wire pair bit = .ok next) : next.WellFormed := by
  intro other keys hkeys
  rw [getElem?_of_init hinit] at hkeys
  obtain ⟨hopposed, hbit, _⟩ := init_eq_ok_iff.mp hinit
  split_ifs at hkeys with heq
  · cases hkeys
    exact ⟨hopposed, hbit⟩
  · exact hstore other keys hkeys

/-- The stores that registrations lead to from the empty one. -/
inductive Built : KeyStore → Prop
  | empty : Built .empty
  | init {store next : KeyStore} {wire : WireId} {pair : KeyPair} {bit : Bool}
      (hstore : Built store) (hinit : store.init wire pair bit = .ok next) :
      Built next

theorem Built.insert
    {store : KeyStore} (hstore : store.Built) {wire : WireId} {pair : KeyPair}
    (hopposed : pair.Opposed) (hnew : store.wires[wire]? = none) :
    Built ⟨store.wires.insert wire ⟨pair, pair.signalBit⟩⟩ :=
  .init hstore (init_eq_ok_iff.mpr ⟨hopposed, rfl, hnew, rfl⟩)

theorem Built.wellFormed {store : KeyStore} (hstore : store.Built) :
    store.WellFormed := by
  induction hstore with
  | empty => exact wellFormed_empty
  | init _ hinit ih => exact ih.afterInit hinit

theorem contains_iff_exists_pair {store : KeyStore} {wire : WireId} :
    store.contains wire = true ↔ ∃ pair, store.pair wire = .ok pair := by
  rw [contains_eq_isSome, Option.isSome_iff_exists]
  constructor
  · intro hkeys
    obtain ⟨keys, hkeys⟩ := hkeys
    exact ⟨keys.pair, pair_eq_ok_iff.mpr ⟨keys, hkeys, rfl⟩⟩
  · intro hpair
    obtain ⟨pair, hpair⟩ := hpair
    obtain ⟨keys, hkeys, _⟩ := pair_eq_ok_iff.mp hpair
    exact ⟨keys, hkeys⟩

/-! ## Stores that grow -/

def ExtendedBy (store next : KeyStore) : Prop :=
  ∀ (wire : WireId) (keys : WireKeys), store.wires[wire]? = some keys →
    next.wires[wire]? = some keys

theorem ExtendedBy.refl (store : KeyStore) : store.ExtendedBy store :=
  fun _ _ hkeys => hkeys

theorem extendedBy_of_init
    {store next : KeyStore} {wire : WireId} {pair : KeyPair} {bit : Bool}
    (hinit : store.init wire pair bit = .ok next) : store.ExtendedBy next := by
  intro other keys hkeys
  obtain ⟨_, _, hnone, _⟩ := init_eq_ok_iff.mp hinit
  rw [getElem?_of_init hinit]
  split_ifs with heq
  · subst heq
    rw [hnone] at hkeys
    cases hkeys
  · exact hkeys

def pairOf (store : KeyStore) (wire : WireId) : KeyPair :=
  (store.wires[wire]?.map WireKeys.pair).getD default

theorem pair_eq_ok_pairOf
    {store : KeyStore} {wire : WireId} {keys : WireKeys}
    (hkeys : store.wires[wire]? = some keys) :
    store.pair wire = .ok (store.pairOf wire) := by
  rw [pair_eq_ok_iff]
  exact ⟨keys, hkeys, by simp [pairOf, hkeys]⟩

theorem pair_eq_ok_of_mem
    {store : KeyStore} {wire : WireId} (hwire : wire ∈ store.wires) :
    store.pair wire = .ok (store.pairOf wire) := by
  rw [Std.ExtTreeMap.mem_iff_isSome_getElem?, Option.isSome_iff_exists]
    at hwire
  obtain ⟨keys, hkeys⟩ := hwire
  exact pair_eq_ok_pairOf hkeys

theorem mapM_pair_eq_ok_of_forall_mem
    {store : KeyStore} {wires : List WireId}
    (hwires : ∀ wire ∈ wires, wire ∈ store.wires) :
    wires.mapM store.pair = .ok (wires.map store.pairOf) :=
  mapM_eq_ok_map fun wire hwire => pair_eq_ok_of_mem (hwires wire hwire)

theorem pairOf_eq_of_pair
    {store : KeyStore} {wire : WireId} {pair : KeyPair}
    (hpair : store.pair wire = .ok pair) : store.pairOf wire = pair := by
  obtain ⟨keys, hkeys, rfl⟩ := pair_eq_ok_iff.mp hpair
  simp [pairOf, hkeys]

theorem WellFormed.getElem?_eq_pairOf
    {store : KeyStore} (hstore : store.WellFormed) {wire : WireId}
    {keys : WireKeys} (hkeys : store.wires[wire]? = some keys) :
    store.wires[wire]? =
      some ⟨store.pairOf wire, (store.pairOf wire).signalBit⟩ := by
  have hpair : store.pairOf wire = keys.pair := by simp [pairOf, hkeys]
  have hbit := (hstore wire keys hkeys).2
  rw [hpair, ← hbit, hkeys]

theorem map_pairOf_of_mapM_pair
    {store : KeyStore} {wires : List WireId} {pairs : List KeyPair}
    (hpairs : wires.mapM store.pair = .ok pairs) :
    wires.map store.pairOf = pairs := by
  rw [← List.forall₂_eq_eq_eq, List.forall₂_map_left_iff]
  exact (mapM_eq_ok_iff.mp hpairs).imp fun _ _ hpair =>
    pairOf_eq_of_pair hpair

theorem WellFormed.opposed_of_mapM_pair
    {store : KeyStore} (hstore : store.WellFormed) {wires : List WireId}
    {pairs : List KeyPair} (hpairs : wires.mapM store.pair = .ok pairs) :
    ∀ pair ∈ pairs, pair.Opposed := by
  intro pair hpair
  obtain ⟨wire, _, hwire⟩ := exists_of_mem_result_of_mapM hpairs hpair
  exact hstore.opposed hwire

end KeyStore

end GarbledCircuits
