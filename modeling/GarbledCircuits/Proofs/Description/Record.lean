import GarbledCircuits.Description.Record
import GarbledCircuits.Proofs.Description.Decoder

/-!
# What records are read from

A record is read from values with names: those that an object gives, or the
items of an array under the names of the record in turn.  Fields of different
names are read independently of each other, so a record decodes exactly if
each of its fields does.
-/

namespace GarbledCircuits

open Json (Reading)
open Outcome

/-! ## Named values -/

/-- The values of an object under the texts of their names. -/
def nameFields (literals : List (List Char × Reading)) :
    Except DescriptionError (List (String × Reading)) :=
  literals.mapM fun (literal, value) => do
    return (← Decoder.textOf literal, value)

theorem nameFields_cons_eq_ok_iff
    {literal : List Char} {value : Reading}
    {literals : List (List Char × Reading)}
    {fields : List (String × Reading)} :
    nameFields ((literal, value) :: literals) = .ok fields ↔
      ∃ name, Decoder.textOf literal = .ok name ∧
        ∃ others, nameFields literals = .ok others ∧
          (name, value) :: others = fields := by
  simp only [nameFields, List.mapM_cons, bind_eq_ok_iff, pure_eq_ok_iff]
  constructor
  · rintro ⟨_, ⟨name, hname, rfl⟩, others, hothers, rfl⟩
    exact ⟨name, hname, others, hothers, rfl⟩
  · rintro ⟨name, hname, others, hothers, rfl⟩
    exact ⟨_, ⟨name, hname, rfl⟩, others, hothers, rfl⟩

theorem nameFields_ofFields (fields : List (String × Json)) :
    nameFields (Reading.ofFields fields) =
      .ok (fields.map fun (name, value) => (name, .ofJson value)) := by
  induction fields with
  | nil => rfl
  | cons field fields ih =>
      obtain ⟨name, value⟩ := field
      exact nameFields_cons_eq_ok_iff.mpr
        ⟨name, Decoder.textOf_encode name, _, ih, rfl⟩

/-- The values of a name, in their order. -/
def valuesOf (name : String) (fields : List (String × Reading)) :
    List Reading :=
  (fields.filter fun field => field.1 = name).map Prod.snd

@[simp] theorem valuesOf_nil (name : String) : valuesOf name [] = [] := rfl

@[simp] theorem valuesOf_cons
    (name other : String) (reading : Reading)
    (fields : List (String × Reading)) :
    valuesOf name ((other, reading) :: fields) =
      if other = name then reading :: valuesOf name fields
      else valuesOf name fields := by
  by_cases hname : other = name <;> simp [valuesOf, hname]

/-- There is one value of a name, and it decodes. -/
def Gives (fields : List (String × Reading)) (name : String)
    (decoder : Decoder α) (value : α) : Prop :=
  ∃ reading, valuesOf name fields = [reading] ∧ decoder reading = .ok value

/-- There is no value of a name, or one that is null or decodes. -/
def MayGive (fields : List (String × Reading)) (name : String)
    (decoder : Decoder α) (value : Option α) : Prop :=
  valuesOf name fields = [] ∧ value = none ∨
    Gives fields name decoder.optional value

namespace Record

variable {record : Record α} {names : List String}
  {fields : List (String × Reading)} {value : α}

def stepNamed (record : Record α) (state : record.State) :
    String × Reading → Except DescriptionError record.State
  | (name, value) => (record.give state name value).getD (.ok state)

def collect (record : Record α) (fields : List (String × Reading)) :
    Except DescriptionError α := do
  let state ← fields.foldlM record.stepNamed record.start
  record.finish state

theorem foldlM_step_eq_ok_iff
    {literals : List (List Char × Reading)} {state final : record.State} :
    literals.foldlM record.step state = .ok final ↔
      ∃ fields, nameFields literals = .ok fields ∧
        fields.foldlM record.stepNamed state = .ok final := by
  induction literals generalizing state with
  | nil => simp [nameFields, pure_eq_ok_iff]
  | cons field literals ih =>
      obtain ⟨literal, value⟩ := field
      simp only [List.foldlM_cons, step, bind_eq_ok_iff, ih,
        nameFields_cons_eq_ok_iff]
      constructor
      · rintro ⟨next, ⟨name, hname, hnext⟩, others, hothers, hfinal⟩
        refine ⟨_, ⟨name, hname, others, hothers, rfl⟩, ?_⟩
        exact bind_eq_ok_iff.mpr ⟨next, hnext, hfinal⟩
      · rintro ⟨_, ⟨name, hname, others, hothers, rfl⟩, hrun⟩
        obtain ⟨next, hnext, hfinal⟩ := bind_eq_ok_iff.mp hrun
        exact ⟨next, ⟨name, hname, hnext⟩, others, hothers, hfinal⟩

theorem ofFields_eq_ok_iff {literals : List (List Char × Reading)} :
    record.ofFields literals = .ok value ↔
      ∃ fields, nameFields literals = .ok fields ∧
        record.collect fields = .ok value := by
  simp only [ofFields, collect, bind_eq_ok_iff, foldlM_step_eq_ok_iff]
  tauto

/-! ## One field -/

section

variable {name : String} {decoder : Decoder α}
  {unnamed untaken : Except DescriptionError α}

def giveOnce (name : String) (decoder : Decoder α) (state : Option α) :
    String × Reading → Except DescriptionError (Option α)
  | (other, reading) =>
      if other ≠ name then .ok state
      else if state.isSome then Decoder.malformed
      else some <$> decoder reading

theorem stepNamed_field :
    (field name decoder unnamed untaken).stepNamed =
      giveOnce name decoder := by
  funext state ⟨other, reading⟩
  simp only [stepNamed, field, giveOnce]
  split_ifs <;> rfl

theorem foldlM_giveOnce_some_eq_ok_iff {given : α} {final : Option α} :
    fields.foldlM (giveOnce name decoder) (some given) = .ok final ↔
      valuesOf name fields = [] ∧ some given = final := by
  induction fields with
  | nil => simp [valuesOf_nil, pure_eq_ok_iff]
  | cons field fields ih =>
      obtain ⟨other, reading⟩ := field
      rw [List.foldlM_cons, valuesOf_cons, bind_eq_ok_iff]
      by_cases hname : other = name
      · simp [giveOnce, hname, Decoder.malformed]
      · simpa [giveOnce, hname] using ih

theorem foldlM_giveOnce_none_eq_ok_iff {final : Option α} :
    fields.foldlM (giveOnce name decoder) none = .ok final ↔
      valuesOf name fields = [] ∧ none = final ∨
        ∃ value, Gives fields name decoder value ∧ some value = final := by
  induction fields with
  | nil => simp [Gives, valuesOf_nil, pure_eq_ok_iff]
  | cons field fields ih =>
      obtain ⟨other, reading⟩ := field
      rw [List.foldlM_cons, bind_eq_ok_iff]
      by_cases hname : other = name
      · subst hname
        have hgive : giveOnce other decoder none (other, reading) =
            (decoder reading).map some := by
          simp [giveOnce]
          rfl
        simp only [hgive, map_eq_ok_iff, Gives, valuesOf_cons, if_true]
        constructor
        · rintro ⟨_, ⟨value, hvalue, rfl⟩, hrest⟩
          obtain ⟨hnone, hfinal⟩ := foldlM_giveOnce_some_eq_ok_iff.mp hrest
          exact Or.inr ⟨value, ⟨reading, by rw [hnone], hvalue⟩, hfinal⟩
        · rintro (⟨hnone, _⟩ | ⟨value, ⟨_, hone, hvalue⟩, hfinal⟩)
          · cases hnone
          · obtain ⟨rfl, hnone⟩ := List.cons.inj hone
            exact ⟨some value, ⟨value, hvalue, rfl⟩,
              foldlM_giveOnce_some_eq_ok_iff.mpr ⟨hnone, hfinal⟩⟩
      · simpa [giveOnce, hname, Gives] using ih

theorem collect_field_eq_ok_iff :
    (field name decoder unnamed untaken).collect fields = .ok value ↔
      valuesOf name fields = [] ∧ unnamed = .ok value ∨
        Gives fields name decoder value := by
  have hrun : (field name decoder unnamed untaken).collect fields =
      (fields.foldlM (giveOnce name decoder) none >>= fun state =>
        state.elim unnamed .ok) := by
    rw [collect, stepNamed_field]
    rfl
  rw [hrun, bind_eq_ok_iff]
  simp only [foldlM_giveOnce_none_eq_ok_iff]
  constructor
  · rintro ⟨_, ⟨hnone, rfl⟩ | ⟨given, hgives, rfl⟩, hfinish⟩
    · exact Or.inl ⟨hnone, hfinish⟩
    · cases hfinish
      exact Or.inr hgives
  · rintro (⟨hnone, hunnamed⟩ | hgives)
    · exact ⟨none, Or.inl ⟨hnone, rfl⟩, hunnamed⟩
    · exact ⟨some value, Or.inr ⟨value, hgives, rfl⟩, rfl⟩

theorem collect_required_eq_ok_iff :
    (required name decoder).collect fields = .ok value ↔
      Gives fields name decoder value := by
  simp [required, collect_field_eq_ok_iff, Decoder.malformed]

theorem collect_omissible_eq_ok_iff {value : Option α} :
    (omissible name decoder).collect fields = .ok value ↔
      MayGive fields name decoder value := by
  rw [omissible, collect_field_eq_ok_iff, MayGive]
  simp [eq_comm]

end

/-! ## Fields of different names -/

/-- The record takes exactly the fields of some names, and an array gives them
in the order of the names. -/
structure HasNames (record : Record α) (names : List String) : Prop where
  give : ∀ state name reading,
    (record.give state name reading).isSome ↔ name ∈ names
  take : ∀ items value rest, record.take items = .ok (value, rest) ↔
    record.collect (names.zip items) = .ok value ∧
      items.drop names.length = rest

variable {other : Record β} {others : List String}

theorem HasNames.stepNamed_of_not_mem
    (hnames : record.HasNames names) {name : String} (hname : name ∉ names)
    (state : record.State) (reading : Reading) :
    record.stepNamed state (name, reading) = .ok state := by
  have hnone : record.give state name reading = none := by
    rwa [← Option.not_isSome_iff_eq_none, hnames.give]
  rw [stepNamed, hnone]
  rfl

theorem HasNames.foldlM_stepNamed_of_not_mem
    (hnames : record.HasNames names)
    (hforeign : ∀ field ∈ fields, field.1 ∉ names) (state : record.State) :
    fields.foldlM record.stepNamed state = .ok state := by
  induction fields with
  | nil => rfl
  | cons field fields ih =>
      rw [List.forall_mem_cons] at hforeign
      rw [List.foldlM_cons,
        hnames.stepNamed_of_not_mem hforeign.1 state field.2]
      exact ih hforeign.2

theorem stepNamed_and_eq_ok_iff
    (hnames : record.HasNames names) (hothers : other.HasNames others)
    (hdisjoint : names.Disjoint others) {field : String × Reading}
    {state next : record.State} {rest remaining : other.State} :
    (record.and other).stepNamed (state, rest) field =
        .ok (next, remaining) ↔
      record.stepNamed state field = .ok next ∧
        other.stepNamed rest field = .ok remaining := by
  obtain ⟨name, reading⟩ := field
  -- A field goes to the part that has its name, and the other passes over it.
  by_cases hname : name ∈ names
  · obtain ⟨given, hgiven⟩ :=
      Option.isSome_iff_exists.mp ((hnames.give state name reading).mpr hname)
    rw [hothers.stepNamed_of_not_mem (hdisjoint hname)]
    simp only [stepNamed, and, hgiven]
    cases given <;> simp [Except.map]
  · have hnone : record.give state name reading = none := by
      rwa [← Option.not_isSome_iff_eq_none, hnames.give]
    simp only [stepNamed, and, hnone]
    cases hgive : other.give rest name reading with
    | none => simp
    | some given => cases given <;> simp [Except.map]

theorem foldlM_stepNamed_and_eq_ok_iff
    (hnames : record.HasNames names) (hothers : other.HasNames others)
    (hdisjoint : names.Disjoint others)
    {state next : (record.and other).State} :
    fields.foldlM (record.and other).stepNamed state = .ok next ↔
      fields.foldlM record.stepNamed state.1 = .ok next.1 ∧
        fields.foldlM other.stepNamed state.2 = .ok next.2 := by
  induction fields generalizing state with
  | nil =>
      simp only [List.foldlM_nil, pure_eq_ok_iff]
      exact Prod.ext_iff
  | cons field fields ih =>
      simp only [List.foldlM_cons, bind_eq_ok_iff, ih]
      constructor
      · rintro ⟨middle, hstep, hnext, hremaining⟩
        obtain ⟨hfirst, hsecond⟩ :=
          (stepNamed_and_eq_ok_iff hnames hothers hdisjoint).mp hstep
        exact ⟨⟨middle.1, hfirst, hnext⟩, middle.2, hsecond, hremaining⟩
      · rintro ⟨⟨middle, hfirst, hnext⟩, between, hsecond, hremaining⟩
        exact ⟨(middle, between),
          (stepNamed_and_eq_ok_iff hnames hothers hdisjoint).mpr
            ⟨hfirst, hsecond⟩, hnext, hremaining⟩

theorem collect_and_eq_ok_iff
    (hnames : record.HasNames names) (hothers : other.HasNames others)
    (hdisjoint : names.Disjoint others) {second : β} :
    (record.and other).collect fields = .ok (value, second) ↔
      record.collect fields = .ok value ∧
        other.collect fields = .ok second := by
  simp only [collect, bind_eq_ok_iff,
    foldlM_stepNamed_and_eq_ok_iff hnames hothers hdisjoint]
  constructor
  · rintro ⟨state, ⟨hfirst, hsecond⟩, hfinish⟩
    obtain ⟨_, hvalue, hpair⟩ := bind_eq_ok_iff.mp hfinish
    obtain ⟨_, hother, hpair⟩ := bind_eq_ok_iff.mp hpair
    cases hpair
    exact ⟨⟨state.1, hfirst, hvalue⟩, state.2, hsecond, hother⟩
  · rintro ⟨⟨state, hfirst, hvalue⟩, rest, hsecond, hother⟩
    exact ⟨(state, rest), ⟨hfirst, hsecond⟩,
      bind_eq_ok_iff.mpr ⟨value, hvalue,
        bind_eq_ok_iff.mpr ⟨second, hother, rfl⟩⟩⟩

theorem collect_map_eq_ok_iff {f : α → β} {result : β} :
    (record.map f).collect fields = .ok result ↔
      ∃ value, record.collect fields = .ok value ∧ f value = result := by
  have hrun : (record.map f).collect fields =
      f <$> record.collect fields := by
    change (fields.foldlM record.stepNamed record.start >>= fun state =>
      f <$> record.finish state) = _
    rw [collect]
    cases fields.foldlM record.stepNamed record.start with
    | error cause => rfl
    | ok state => rfl
  rw [hrun]
  exact map_eq_ok_iff

/-! ## Items of an array -/

theorem hasNames_field
    (name : String) (decoder : Decoder α)
    (absent : Except DescriptionError α) :
    (field name decoder absent absent).HasNames [name] where
  give := by
    intro state other reading
    by_cases hname : other = name
    · by_cases hgiven : state.isSome <;> simp [field, hname, hgiven]
    · simp [field, hname]
  take := by
    intro items value rest
    rw [collect_field_eq_ok_iff]
    cases items with
    | nil =>
        cases absent <;> simp [field, Gives, valuesOf_nil, Except.map]
    | cons item items =>
        have htake : (field name decoder absent absent).take (item :: items) =
            (decoder item).map (·, items) := by
          cases hitem : decoder item <;> simp [field, hitem] <;> rfl
        rw [htake, map_eq_ok_iff]
        simp [Gives, valuesOf_nil]

theorem take_map_eq_ok_iff
    {f : α → β} {items rest : List Reading} {result : β} :
    (record.map f).take items = .ok (result, rest) ↔
      ∃ value, record.take items = .ok (value, rest) ∧ f value = result := by
  change (record.take items >>= fun taken => pure (f taken.1, taken.2)) =
    _ ↔ _
  simp only [bind_eq_ok_iff, pure_eq_ok_iff, Prod.exists, Prod.mk.injEq]
  constructor
  · rintro ⟨value, _, htake, hresult, rfl⟩
    exact ⟨value, htake, hresult⟩
  · rintro ⟨value, htake, hresult⟩
    exact ⟨value, rest, htake, hresult, rfl⟩

theorem take_and_eq_ok_iff
    {items rest : List Reading} {second : β} :
    (record.and other).take items = .ok ((value, second), rest) ↔
      ∃ middle, record.take items = .ok (value, middle) ∧
        other.take middle = .ok (second, rest) := by
  change (record.take items >>= fun first => other.take first.2 >>=
    fun second => pure ((first.1, second.1), second.2)) = _ ↔ _
  simp only [bind_eq_ok_iff, pure_eq_ok_iff, Prod.exists, Prod.mk.injEq]
  constructor
  · rintro ⟨_, middle, hfirst, _, _, hsecond, ⟨rfl, rfl⟩, rfl⟩
    exact ⟨middle, hfirst, hsecond⟩
  · rintro ⟨middle, hfirst, hsecond⟩
    exact ⟨value, middle, hfirst, second, rest, hsecond, ⟨rfl, rfl⟩, rfl⟩

theorem HasNames.map (hnames : record.HasNames names) (f : α → β) :
    (record.map f).HasNames names where
  give := hnames.give
  take := by
    intro items result rest
    simp only [collect_map_eq_ok_iff, take_map_eq_ok_iff, hnames.take]
    tauto

theorem zip_append_drop (names others : List String) (items : List Reading) :
    (names ++ others).zip items =
      names.zip items ++ others.zip (items.drop names.length) := by
  induction names generalizing items with
  | nil => simp
  | cons name names ih =>
      cases items with
      | nil => simp
      | cons item items => simp [ih]

theorem HasNames.collect_append_left
    (hnames : record.HasNames names) (hdisjoint : names.Disjoint others)
    (items : List Reading) :
    record.collect (fields ++ others.zip items) = record.collect fields := by
  have hforeign : ∀ field ∈ others.zip items, field.1 ∉ names := by
    intro field hfield hname
    exact hdisjoint hname (List.of_mem_zip hfield).1
  rw [collect, collect, List.foldlM_append]
  simp only [hnames.foldlM_stepNamed_of_not_mem hforeign]
  cases fields.foldlM record.stepNamed record.start <;> rfl

theorem HasNames.collect_append_right
    (hothers : other.HasNames others) (hdisjoint : names.Disjoint others)
    (items : List Reading) :
    other.collect (names.zip items ++ fields) = other.collect fields := by
  have hforeign : ∀ field ∈ names.zip items, field.1 ∉ others := by
    intro field hfield hname
    exact hdisjoint (List.of_mem_zip hfield).1 hname
  rw [collect, List.foldlM_append,
    hothers.foldlM_stepNamed_of_not_mem hforeign]
  rfl

theorem HasNames.and
    (hnames : record.HasNames names) (hothers : other.HasNames others)
    (hdisjoint : names.Disjoint others) :
    (record.and other).HasNames (names ++ others) where
  give := by
    intro state name reading
    rw [List.mem_append, ← hnames.give state.1 name reading,
      ← hothers.give state.2 name reading]
    simp only [Record.and]
    cases record.give state.1 name reading <;> simp
  take := by
    rintro items ⟨value, second⟩ rest
    rw [zip_append_drop, collect_and_eq_ok_iff hnames hothers hdisjoint,
      hnames.collect_append_left hdisjoint,
      hothers.collect_append_right hdisjoint]
    simp only [take_and_eq_ok_iff, hnames.take, hothers.take,
      List.length_append, ← List.drop_drop]
    constructor
    · rintro ⟨_, ⟨hfirst, rfl⟩, hsecond, hrest⟩
      exact ⟨⟨hfirst, hsecond⟩, hrest⟩
    · rintro ⟨⟨hfirst, hsecond⟩, hrest⟩
      exact ⟨_, ⟨hfirst, rfl⟩, hsecond, hrest⟩

/-! ## Whole records -/

/-- The named values that a record of some names is read from. -/
def fieldsUnder (names : List String) :
    Reading → Except DescriptionError (List (String × Reading))
  | .object literals => nameFields literals
  | .array items =>
      if items.length ≤ names.length then .ok (names.zip items)
      else Decoder.malformed
  | _ => Decoder.malformed

theorem HasNames.ofItems_eq_ok_iff
    (hnames : record.HasNames names) {items : List Reading} :
    record.ofItems items = .ok value ↔
      items.length ≤ names.length ∧
        record.collect (names.zip items) = .ok value := by
  simp only [ofItems, bind_eq_ok_iff, Prod.exists, hnames.take]
  constructor
  · rintro ⟨found, rest, ⟨hcollect, hrest⟩, hend⟩
    cases rest with
    | nil =>
        rw [← pure_eq_ok_iff.mp hend]
        exact ⟨List.drop_eq_nil_iff.mp hrest, hcollect⟩
    | cons item rest => cases hend
  · rintro ⟨hlength, hcollect⟩
    exact ⟨value, [], ⟨hcollect, List.drop_eq_nil_iff.mpr hlength⟩, rfl⟩

theorem HasNames.decode_eq_ok_iff
    (hnames : record.HasNames names) {reading : Reading} :
    record.decode reading = .ok value ↔
      ∃ fields, fieldsUnder names reading = .ok fields ∧
        record.collect fields = .ok value := by
  fun_cases decode record reading with
  | case1 literals => exact ofFields_eq_ok_iff
  | case2 items =>
      rw [hnames.ofItems_eq_ok_iff, fieldsUnder]
      by_cases hlength : items.length ≤ names.length
      · simp [hlength]
      · simp [hlength, Decoder.malformed]
  | case3 literals =>
      simp [fieldsUnder, Decoder.afterCut_ne_ok, Decoder.malformed]
  | case4 items =>
      simp [fieldsUnder, Decoder.afterCut_ne_ok, Decoder.malformed]
  | case5 hobject harray =>
      cases reading <;> simp_all [fieldsUnder, Decoder.malformed]

/-! ## What holds of a record that is read -/

/-- The record is read exactly if a relation holds between the named values
and the record. -/
structure Reads (record : Record α) (names : List String)
    (Holds : List (String × Reading) → α → Prop) : Prop extends
    record.HasNames names where
  collect_iff : ∀ fields value,
    record.collect fields = .ok value ↔ Holds fields value

variable {Holds : List (String × Reading) → α → Prop}
  {Others : List (String × Reading) → β → Prop}

theorem reads_required (name : String) (decoder : Decoder α) :
    (required name decoder).Reads [name] fun fields value =>
      Gives fields name decoder value where
  toHasNames := hasNames_field name decoder _
  collect_iff := fun _ _ => collect_required_eq_ok_iff

theorem reads_omissible (name : String) (decoder : Decoder α) :
    (omissible name decoder).Reads [name] fun fields value =>
      MayGive fields name decoder value where
  toHasNames := hasNames_field name decoder.optional _
  collect_iff := fun _ _ => collect_omissible_eq_ok_iff

theorem Reads.and
    (hreads : record.Reads names Holds) (hothers : other.Reads others Others)
    (hdisjoint : names.Disjoint others) :
    (record.and other).Reads (names ++ others) fun fields value =>
      Holds fields value.1 ∧ Others fields value.2 where
  toHasNames := hreads.toHasNames.and hothers.toHasNames hdisjoint
  collect_iff := by
    intro fields value
    rw [← hreads.collect_iff, ← hothers.collect_iff]
    exact collect_and_eq_ok_iff hreads.toHasNames hothers.toHasNames hdisjoint

/-- A record under another form, from which it can be had back. -/
theorem Reads.map
    (hreads : record.Reads names Holds) {f : α → β} {g : β → α}
    (hleft : ∀ value, g (f value) = value)
    (hright : ∀ result, f (g result) = result) :
    (record.map f).Reads names fun fields result =>
      Holds fields (g result) where
  toHasNames := hreads.toHasNames.map f
  collect_iff := by
    intro fields result
    rw [collect_map_eq_ok_iff, ← hreads.collect_iff]
    constructor
    · rintro ⟨value, hcollect, rfl⟩
      rwa [hleft]
    · intro hcollect
      exact ⟨g result, hcollect, hright result⟩

theorem Reads.decode_eq_ok_iff
    (hreads : record.Reads names Holds) {reading : Reading} :
    record.decode reading = .ok value ↔
      ∃ fields, fieldsUnder names reading = .ok fields ∧
        Holds fields value := by
  simp only [hreads.toHasNames.decode_eq_ok_iff, hreads.collect_iff]

end Record

end GarbledCircuits
