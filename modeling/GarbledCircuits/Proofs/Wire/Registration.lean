import GarbledCircuits.Proofs.Wire.Store

/-!
# Runs of registrations

A store that calls were made on has the pair of the one call that succeeded
for a wire, for as long as there are calls, and as many wires as there were
calls that succeeded.
-/

namespace GarbledCircuits

namespace KeyStore

/-- Everything that is read of a wire is of the given keys. -/
structure Holds (store : KeyStore) (wire : WireId) (keys : WireKeys) :
    Prop where
  get : store.get wire = .ok keys
  pair : store.pair wire = .ok keys.pair
  signalBit : store.signalBit wire = .ok keys.signalBit
  contains : store.contains wire = true

/-- Nothing can be read of a wire. -/
structure Lacks (store : KeyStore) (wire : WireId) : Prop where
  get : store.get wire = .error (.wireNotFound wire)
  pair : store.pair wire = .error (.wireNotFound wire)
  signalBit : store.signalBit wire = .error (.wireNotFound wire)
  contains : store.contains wire = false

theorem holds_iff {store : KeyStore} {wire : WireId} {keys : WireKeys} :
    store.Holds wire keys ↔ store.wires[wire]? = some keys := by
  constructor
  · intro hholds
    exact get_eq_ok_iff.mp hholds.get
  · intro hkeys
    have hget : store.get wire = .ok keys := get_eq_ok_iff.mpr hkeys
    refine ⟨hget, ?_, ?_, ?_⟩
    · rw [KeyStore.pair, hget]
      rfl
    · rw [KeyStore.signalBit, hget]
      rfl
    · rw [contains_eq_isSome, hkeys]
      rfl

theorem lacks_iff {store : KeyStore} {wire : WireId} :
    store.Lacks wire ↔ store.wires[wire]? = none := by
  constructor
  · intro hlacks
    exact contains_eq_false_iff.mp hlacks.contains
  · intro hnone
    have hget : store.get wire = .error (.wireNotFound wire) := by
      rw [KeyStore.get, hnone]
    refine ⟨hget, ?_, ?_, contains_eq_false_iff.mpr hnone⟩
    · rw [KeyStore.pair, hget]
      rfl
    · rw [KeyStore.signalBit, hget]
      rfl

end KeyStore

namespace Registration

/-! ## One call -/

/-- Why a call is refused: the first of the reasons that there are. -/
inductive Refused (registration : Registration) (store : KeyStore) :
    WireError → Prop
  | identicalKeys
      (hequal : registration.pair.key0 = registration.pair.key1) :
      Refused registration store (.identicalKeys registration.wire)
  | inconsistentSignalBit
      (hne : registration.pair.key0 ≠ registration.pair.key1)
      (hbits : ¬ registration.keys.Consistent) :
      Refused registration store
        (.inconsistentSignalBit registration.wire registration.signalBit)
  | wireAlreadyInitialized
      (hkeys : registration.keys.Consistent)
      (hold : store.contains registration.wire = true) :
      Refused registration store (.wireAlreadyInitialized registration.wire)

variable {registration : Registration} {store next : KeyStore}
  {keys : WireKeys} {cause : WireError}

theorem run_call_eq_error_iff :
    registration.call.run store = .error cause next ↔
      registration.Refused store cause ∧ next = store := by
  constructor
  · intro hrun
    by_cases hequal : registration.pair.key0 = registration.pair.key1
    · rw [run_call_of_equal hequal] at hrun
      cases hrun
      exact ⟨.identicalKeys hequal, rfl⟩
    by_cases hkeys : registration.keys.Consistent
    · cases hold : store.contains registration.wire with
      | false =>
          rw [run_call_of_consistent hkeys, hold] at hrun
          cases hrun
      | true =>
          rw [run_call_of_consistent hkeys, hold] at hrun
          cases hrun
          exact ⟨.wireAlreadyInitialized hkeys hold, rfl⟩
    · rw [run_call_of_not_consistent hequal hkeys] at hrun
      cases hrun
      exact ⟨.inconsistentSignalBit hequal hkeys, rfl⟩
  · rintro ⟨hrefused, rfl⟩
    cases hrefused with
    | identicalKeys hequal => exact run_call_of_equal hequal
    | inconsistentSignalBit hne hkeys =>
        exact run_call_of_not_consistent hne hkeys
    | wireAlreadyInitialized hkeys hold =>
        rw [run_call_of_consistent hkeys, hold]
        rfl

/-- What a call answers. -/
def answer (store : KeyStore) (registration : Registration) :
    Except WireError WireKeys :=
  match registration.call.run store with
  | .ok keys _ => .ok keys
  | .error cause _ => .error cause

/-- What a call leaves, also where it fails. -/
def leaves (store : KeyStore) (registration : Registration) : KeyStore :=
  match registration.call.run store with
  | .ok _ next => next
  | .error _ next => next

theorem answer_eq_ok_iff :
    registration.answer store = .ok keys ↔
      registration.keys.Consistent ∧
        store.contains registration.wire = false ∧
        keys = registration.keys := by
  have hrun : registration.answer store = .ok keys ↔
      ∃ next, registration.call.run store = .ok keys next := by
    unfold answer
    cases registration.call.run store <;> simp
  simp [hrun, run_call_eq_ok_iff]

theorem leaves_of_answer_eq_ok
    (hanswer : registration.answer store = .ok keys) :
    registration.leaves store =
      ⟨store.wires.insert registration.wire registration.keys⟩ := by
  obtain ⟨hkeys, hnew, rfl⟩ := answer_eq_ok_iff.mp hanswer
  rw [leaves, run_call_eq_ok_iff.mpr ⟨hkeys, hnew, rfl, rfl⟩]

theorem leaves_of_answer_eq_error
    (hanswer : registration.answer store = .error cause) :
    registration.leaves store = store := by
  unfold answer at hanswer
  unfold leaves
  cases hrun : registration.call.run store with
  | ok keys next => simp [hrun] at hanswer
  | error other next => exact (run_call_eq_error_iff.mp hrun).2

/-! ## Calls in turn -/

/-- The answers to calls that are made one after the other. -/
def answersFrom (store : KeyStore) :
    List Registration → List (Except WireError WireKeys)
  | [] => []
  | registration :: rest =>
      registration.answer store :: answersFrom (registration.leaves store) rest

def answers (calls : List Registration) : List (Except WireError WireKeys) :=
  answersFrom .empty calls

/-- What calls leave of a new store. -/
def after (calls : List Registration) : KeyStore :=
  calls.foldl leaves .empty

/-- The call at an index succeeds. -/
def GrantedAt (calls : List Registration) (index : Nat)
    (registration : Registration) : Prop :=
  calls[index]? = some registration ∧
    (answers calls)[index]? = some (.ok registration.keys)

variable {calls : List Registration} {wire : WireId} {index : Nat}

theorem answersFrom_append (calls others : List Registration) :
    answersFrom store (calls ++ others) =
      answersFrom store calls ++
        answersFrom (calls.foldl leaves store) others := by
  induction calls generalizing store with
  | nil => rfl
  | cons call rest ih =>
      rw [List.cons_append, answersFrom, answersFrom, ih, List.cons_append]
      rfl

theorem answers_append_singleton (calls : List Registration)
    (last : Registration) :
    answers (calls ++ [last]) = answers calls ++ [last.answer (after calls)] :=
  answersFrom_append calls [last]

theorem after_append (calls others : List Registration) :
    after (calls ++ others) = others.foldl leaves (after calls) :=
  List.foldl_append

theorem after_append_singleton (calls : List Registration)
    (last : Registration) :
    after (calls ++ [last]) = last.leaves (after calls) :=
  after_append calls [last]

@[simp] theorem length_answers (calls : List Registration) :
    (answers calls).length = calls.length := by
  induction calls using List.reverseRecOn with
  | nil => rfl
  | append_singleton calls last ih =>
      simp [answers_append_singleton, ih]

theorem GrantedAt.index_lt (hgranted : GrantedAt calls index registration) :
    index < calls.length :=
  (List.getElem?_eq_some_iff.mp hgranted.1).1

/-- Of calls and one more, those succeed that did before, and the last one
where it finds its wire free. -/
theorem grantedAt_append_singleton_iff {last : Registration} :
    GrantedAt (calls ++ [last]) index registration ↔
      GrantedAt calls index registration ∨
        index = calls.length ∧ registration = last ∧
          last.answer (after calls) = .ok last.keys := by
  unfold GrantedAt
  rw [answers_append_singleton]
  rcases Nat.lt_trichotomy index calls.length with hlt | rfl | hgt
  · rw [List.getElem?_append_left hlt,
      List.getElem?_append_left (by rwa [length_answers])]
    simp [hlt.ne]
  · have hnone : calls[calls.length]? = none := List.getElem?_eq_none le_rfl
    have hlast : (answers calls ++ [last.answer (after calls)])[calls.length]? =
        some (last.answer (after calls)) := by
      rw [← length_answers calls, List.getElem?_concat_length]
    rw [List.getElem?_concat_length, hlast, hnone]
    simp only [Option.some.injEq, reduceCtorEq, false_and, false_or, true_and]
    constructor
    · rintro ⟨rfl, hanswer⟩
      exact ⟨rfl, hanswer⟩
    · rintro ⟨rfl, hanswer⟩
      exact ⟨rfl, hanswer⟩
  · have hnone : (calls ++ [last])[index]? = none :=
      List.getElem?_eq_none (by simpa using hgt)
    have hold : calls[index]? = none := List.getElem?_eq_none hgt.le
    simp [hnone, hold, hgt.ne']

theorem getElem?_leaves (store : KeyStore) (registration : Registration)
    (wire : WireId) :
    (registration.leaves store).wires[wire]? =
      if registration.wire = wire ∧
          registration.answer store = .ok registration.keys then
        some registration.keys
      else store.wires[wire]? := by
  cases hanswer : registration.answer store with
  | ok keys =>
      obtain ⟨_, _, rfl⟩ := answer_eq_ok_iff.mp hanswer
      simp [leaves_of_answer_eq_ok hanswer, Std.ExtTreeMap.getElem?_insert]
  | error cause => simp [leaves_of_answer_eq_error hanswer]

theorem getElem?_of_answer_eq_ok
    (hanswer : registration.answer store = .ok keys) :
    store.wires[registration.wire]? = none :=
  KeyStore.contains_eq_false_iff.mp (answer_eq_ok_iff.mp hanswer).2.1

theorem extendedBy_leaves (store : KeyStore) (registration : Registration) :
    store.ExtendedBy (registration.leaves store) := by
  intro wire keys hkeys
  rw [getElem?_leaves, if_neg, hkeys]
  rintro ⟨rfl, hanswer⟩
  rw [getElem?_of_answer_eq_ok hanswer] at hkeys
  cases hkeys

/-- What calls have put into a store stays through later calls. -/
theorem extendedBy_foldl_leaves (store : KeyStore)
    (calls : List Registration) :
    store.ExtendedBy (calls.foldl leaves store) := by
  induction calls generalizing store with
  | nil => exact .refl store
  | cons call rest ih =>
      intro wire keys hkeys
      exact ih _ wire keys (extendedBy_leaves store call wire keys hkeys)

/-- A call that succeeds has put its pair into the store. -/
theorem GrantedAt.getElem?_after
    (hgranted : GrantedAt calls index registration) :
    (after calls).wires[registration.wire]? = some registration.keys := by
  induction calls using List.reverseRecOn with
  | nil => exact absurd hgranted.index_lt (Nat.not_lt_zero _)
  | append_singleton calls last ih =>
      rw [after_append_singleton]
      rcases grantedAt_append_singleton_iff.mp hgranted with
        hold | ⟨_, rfl, hanswer⟩
      · exact extendedBy_leaves _ last _ _ (ih hold)
      · rw [getElem?_leaves, if_pos ⟨rfl, hanswer⟩]

/-- A call for a wire that one succeeded for before does not. -/
theorem GrantedAt.answer_ne_ok {next : Registration}
    (hgranted : GrantedAt calls index registration)
    (hwire : next.wire = registration.wire) :
    next.answer (after calls) ≠ .ok keys := by
  intro hanswer
  have hnone := getElem?_of_answer_eq_ok hanswer
  rw [hwire, hgranted.getElem?_after] at hnone
  cases hnone

/-- A wire has keys in the store exactly if a call for it succeeded with
them. -/
theorem getElem?_after_eq_some_iff :
    (after calls).wires[wire]? = some keys ↔
      ∃ index registration, GrantedAt calls index registration ∧
        registration.wire = wire ∧ registration.keys = keys := by
  constructor
  · intro hkeys
    induction calls using List.reverseRecOn with
    | nil => simp [after, KeyStore.empty] at hkeys
    | append_singleton calls last ih =>
        rw [after_append_singleton, getElem?_leaves] at hkeys
        simp only [grantedAt_append_singleton_iff]
        split_ifs at hkeys with hlast
        · exact ⟨calls.length, last, .inr ⟨rfl, rfl, hlast.2⟩, hlast.1,
            Option.some.inj hkeys⟩
        · obtain ⟨index, registration, hgranted, hfound⟩ := ih hkeys
          exact ⟨index, registration, .inl hgranted, hfound⟩
  · rintro ⟨index, registration, hgranted, rfl, rfl⟩
    exact hgranted.getElem?_after

/-- Two calls for one wire do not both succeed. -/
theorem GrantedAt.index_unique {other : Nat} {later : Registration}
    (hgranted : GrantedAt calls index registration)
    (hlater : GrantedAt calls other later)
    (hwire : later.wire = registration.wire) : other = index := by
  induction calls using List.reverseRecOn with
  | nil => exact absurd hgranted.index_lt (Nat.not_lt_zero _)
  | append_singleton calls last ih =>
      rw [grantedAt_append_singleton_iff] at hgranted hlater
      rcases hgranted with hfirst | ⟨rfl, rfl, hanswer⟩
      · rcases hlater with hsecond | ⟨_, rfl, hanswer⟩
        · exact ih hfirst hsecond
        · exact absurd hanswer (hfirst.answer_ne_ok hwire)
      · rcases hlater with hsecond | ⟨rfl, _, _⟩
        · exact absurd hanswer (hsecond.answer_ne_ok hwire.symm)
        · rfl

theorem size_leaves (store : KeyStore) (registration : Registration) :
    (registration.leaves store).size =
      store.size + if (registration.answer store).isOk then 1 else 0 := by
  cases hanswer : registration.answer store with
  | ok keys =>
      have hnone := getElem?_of_answer_eq_ok hanswer
      have hnew : registration.wire ∉ store.wires := by
        rw [Std.ExtTreeMap.mem_iff_isSome_getElem?, hnone]
        exact Bool.false_ne_true
      rw [leaves_of_answer_eq_ok hanswer]
      simp [KeyStore.size, Std.ExtTreeMap.size_insert, hnew, Except.isOk,
        Except.toBool]
  | error cause =>
      simp [leaves_of_answer_eq_error hanswer, Except.isOk, Except.toBool]

/-- There are as many wires in the store as calls that succeeded. -/
theorem size_after (calls : List Registration) :
    (after calls).size = (answers calls).countP Except.isOk := by
  induction calls using List.reverseRecOn with
  | nil => rfl
  | append_singleton calls last ih =>
      rw [after_append_singleton, size_leaves, ih, answers_append_singleton,
        List.countP_append, List.countP_singleton]

/-- A pair that a call put into the store is one that its bits are true of. -/
theorem GrantedAt.consistent (hgranted : GrantedAt calls index registration) :
    registration.keys.Consistent := by
  induction calls using List.reverseRecOn with
  | nil => exact absurd hgranted.index_lt (Nat.not_lt_zero _)
  | append_singleton calls last ih =>
      rcases grantedAt_append_singleton_iff.mp hgranted with
        hold | ⟨_, rfl, hanswer⟩
      · exact ih hold
      · exact (answer_eq_ok_iff.mp hanswer).1

/-- Whatever calls were made on a new store, it has for every wire what the one
call brought that succeeded for it, and nothing for other wires; its size
counts these calls, and every pair carries its bit.  The next call succeeds
exactly if its pair carries its bit and its wire is new, and changes nothing
otherwise; what the store has, it keeps through all later calls. -/
theorem store_has_what_was_granted (calls : List Registration) :
    let store := after calls
    (∀ wire keys, store.get wire = .ok keys → keys.Consistent) ∧
      (∀ (registration : Registration) keys next,
        registration.call.run store = .ok keys next ↔
          registration.keys.Consistent ∧
            store.contains registration.wire = false ∧
            keys = registration.keys ∧
            next = after (calls ++ [registration])) ∧
      (∀ (registration : Registration) cause next,
        registration.call.run store = .error cause next ↔
          registration.Refused store cause ∧ next = store) ∧
      (∀ wire keys later, store.get wire = .ok keys →
        (after (calls ++ later)).get wire = .ok keys) ∧
      store.size = (answers calls).countP Except.isOk ∧
      ∀ wire,
        (∃ index registration, GrantedAt calls index registration ∧
          registration.wire = wire ∧
          (∀ other (later : Registration), GrantedAt calls other later →
            later.wire = wire → other = index) ∧
          store.Holds wire registration.keys) ∨
        ((∀ index (registration : Registration),
            GrantedAt calls index registration → registration.wire ≠ wire) ∧
          store.Lacks wire) := by
  intro store
  refine ⟨?_, ?_, ?_, ?_, size_after calls, ?_⟩
  · intro wire keys hget
    obtain ⟨index, registration, hgranted, _, rfl⟩ :=
      getElem?_after_eq_some_iff.mp (KeyStore.get_eq_ok_iff.mp hget)
    exact hgranted.consistent
  · intro registration keys next
    rw [run_call_eq_ok_iff, after_append_singleton]
    apply and_congr_right
    intro hkeys
    apply and_congr_right
    intro hnew
    rw [leaves_of_answer_eq_ok (answer_eq_ok_iff.mpr ⟨hkeys, hnew, rfl⟩)]
  · intro registration cause next
    exact run_call_eq_error_iff
  · intro wire keys later hget
    rw [KeyStore.get_eq_ok_iff] at hget ⊢
    rw [after_append]
    exact extendedBy_foldl_leaves store later wire keys hget
  · intro wire
    cases hkeys : store.wires[wire]? with
    | some keys =>
        obtain ⟨index, registration, hgranted, rfl, rfl⟩ :=
          getElem?_after_eq_some_iff.mp hkeys
        refine .inl ⟨index, registration, hgranted, rfl, ?_,
          KeyStore.holds_iff.mpr hkeys⟩
        intro other later hlater hwire
        exact hgranted.index_unique hlater hwire
    | none =>
        refine .inr ⟨?_, KeyStore.lacks_iff.mpr hkeys⟩
        intro index registration hgranted hwire
        rw [← hwire, hgranted.getElem?_after] at hkeys
        cases hkeys

/-! ## One wire in four calls -/

/-- The third call is the first that the bits are right in. -/
def fourCalls : List Registration :=
  [⟨5, ⟨⟨6⟩, ⟨7⟩⟩, true⟩, ⟨5, ⟨⟨6⟩, ⟨6⟩⟩, false⟩, ⟨5, ⟨⟨6⟩, ⟨7⟩⟩, false⟩,
    ⟨5, ⟨⟨8⟩, ⟨9⟩⟩, false⟩]

theorem store_has_what_was_granted_fourCalls :
    answers fourCalls =
        [.error (.inconsistentSignalBit 5 true), .error (.identicalKeys 5),
          .ok ⟨⟨⟨6⟩, ⟨7⟩⟩, false⟩, .error (.wireAlreadyInitialized 5)] ∧
      (after fourCalls).size = 1 ∧
      (after fourCalls).get 5 = .ok ⟨⟨⟨6⟩, ⟨7⟩⟩, false⟩ ∧
      (⟨⟨⟨6⟩, ⟨7⟩⟩, false⟩ : WireKeys).Consistent ∧
      (after (fourCalls ++ fourCalls)).get 5 = .ok ⟨⟨⟨6⟩, ⟨7⟩⟩, false⟩ := by
  have hanswers : answers fourCalls =
      [.error (.inconsistentSignalBit 5 true), .error (.identicalKeys 5),
        .ok ⟨⟨⟨6⟩, ⟨7⟩⟩, false⟩, .error (.wireAlreadyInitialized 5)] := by
    decide +kernel
  have hget : (after fourCalls).get 5 = .ok ⟨⟨⟨6⟩, ⟨7⟩⟩, false⟩ := by
    decide +kernel
  obtain ⟨hconsistent, _, _, hkept, hsize, _⟩ :=
    store_has_what_was_granted fourCalls
  rw [hanswers] at hsize
  exact ⟨hanswers, hsize, hget, hconsistent 5 _ hget, hkept 5 _ _ hget⟩

end Registration

end GarbledCircuits
