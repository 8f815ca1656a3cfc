import Downset.Proofs.Json.Document
import Downset.Proofs.Scenario.Forms
import Mathlib.Data.Option.Basic

/-!
# The format of scenarios

The documents that are read as a scenario, with all that a reader puts up with: unknown fields in
the content of `put` and `get` but nowhere else, contents given as lists, and a missing key in an
object but not in a list. No other document is read, and fields can stand in any order. A literal
that leaves half a surrogate pair is no text, so that it can name no field and give no key or value.
-/

namespace Downset

open Json

/-- Just one field has the name, and this is what it holds. -/
def Json.Once (name : String) (content : Document) (fields : List Field) : Prop :=
  (some name, content) ∈ fields ∧ (fields.map Prod.fst).count (some name) = 1

theorem Json.once_iff {name : String} {content : Document} {fields : List Field} :
    Once name content fields ↔ contents name fields = [content] :=
  contents_eq_singleton_iff.symm

namespace Step

/-- The fields tell the key of a step: one of them gives it or is null, or none is there for it. -/
inductive KeyReadFrom : Option String → List Field → Prop
  | once {key : Option String} {fields : List Field} (given : Once "key" (keyDocument key) fields) :
      KeyReadFrom key fields
  | leftOut {fields : List Field} (absent : some "key" ∉ fields.map Prod.fst) :
      KeyReadFrom none fields

/-- The documents that are read as a step. -/
inductive ReadFrom : Step → Document → Prop
  | name {step : Step} {name : String} (unit : (step, name) ∈ unitNames) :
      ReadFrom step (.text name)
  | null {step : Step} {name : String} (unit : (step, name) ∈ unitNames) :
      ReadFrom step (.object [(some name, .null)])
  | put {key : Option String} {value : String} {fields : List Field}
      (named : ∀ field ∈ fields, field.1.isSome) (givenKey : KeyReadFrom key fields)
      (givenValue : Once "value" (.text value) fields) :
      ReadFrom (put key value) (.object [(some "put", .object fields)])
  | putList (key : Option String) (value : String) :
      ReadFrom (put key value) (.object [(some "put", .array [keyDocument key, .text value])])
  | get {key : Option String} {fields : List Field} (named : ∀ field ∈ fields, field.1.isSome)
      (givenKey : KeyReadFrom key fields) :
      ReadFrom (get key) (.object [(some "get", .object fields)])
  | getList (key : Option String) :
      ReadFrom (get key) (.object [(some "get", .array [keyDocument key])])

variable {step : Step} {document : Document} {key : Option String} {name value : String}
  {fields : List Field}

theorem unit?_eq_some_iff : unit? name = some step ↔ (step, name) ∈ unitNames := by
  constructor
  · intro h
    unfold unit? at h
    split_ifs at h <;> cases h <;> simp_all [unitNames]
  · intro h
    exact (unit?_of_mem h).1

theorem readsWritten_key : ReadsWritten readKey? keyDocument := by
  have hnull : ∀ key : String, Document.text key ≠ .null := by
    simp [Document.text]
  intro document key
  rw [readKey?, readsWritten_text.nullable hnull]
  cases key <;> rfl

theorem keyReadFrom_iff :
    optional? "key" readKey? none fields = some key ↔ KeyReadFrom key fields := by
  rw [optional?_eq_some_iff, contents_eq_nil_iff]
  simp only [readsWritten_key _ _, ← once_iff]
  constructor
  · rintro (⟨_, given, rfl⟩ | ⟨absent, rfl⟩)
    · exact .once given
    · exact .leftOut absent
  · rintro (given | absent)
    · exact .inl ⟨_, given, rfl⟩
    · exact .inr ⟨absent, rfl⟩

theorem putOfFields?_eq_some_iff : putOfFields? fields = some step ↔
    (∀ field ∈ fields, field.1.isSome) ∧ ∃ key, KeyReadFrom key fields ∧
      ∃ value, Once "value" (.text value) fields ∧ put key value = step := by
  have hvalue : ∀ value, required? "value" Document.text? fields = some value ↔
      Once "value" (.text value) fields := by
    simp [required?_eq_some_iff, readsWritten_text _ _, once_iff]
  simp [putOfFields?, Option.bind_eq_some_iff, Option.guard_eq_some', keyReadFrom_iff, hvalue]

theorem getOfFields?_eq_some_iff : getOfFields? fields = some step ↔
    (∀ field ∈ fields, field.1.isSome) ∧ ∃ key, KeyReadFrom key fields ∧ get key = step := by
  simp [getOfFields?, Option.bind_eq_some_iff, Option.guard_eq_some', keyReadFrom_iff]

theorem putOfDocument?_eq_some_iff : putOfDocument? document = some step ↔
    (∃ fields, document = .object fields ∧ putOfFields? fields = some step) ∨
      ∃ key value, document = .array [keyDocument key, .text value] ∧ put key value = step := by
  match document with
  | .object fields => simp [putOfDocument?]
  | .array [first, second] =>
    simp [putOfDocument?, Option.bind_eq_some_iff, readsWritten_key _ _, readsWritten_text _ _,
      and_assoc]
  | .null | .bool _ | .number _ | .string _ | .array [] | .array [_] | .array (_ :: _ :: _ :: _) =>
    simp [putOfDocument?]

theorem getOfDocument?_eq_some_iff : getOfDocument? document = some step ↔
    (∃ fields, document = .object fields ∧ getOfFields? fields = some step) ∨
      ∃ key, document = .array [keyDocument key] ∧ get key = step := by
  match document with
  | .object fields => simp [getOfDocument?]
  | .array [first] =>
    simp [getOfDocument?, Option.bind_eq_some_iff, readsWritten_key _ _]
  | .null | .bool _ | .number _ | .string _ | .array [] | .array (_ :: _ :: _) =>
    simp [getOfDocument?]

/-- Whatever is read as a step has one of the forms. -/
theorem readFrom_of_ofDocument? (h : ofDocument? document = some step) : step.ReadFrom document := by
  match document with
  | .string (some name) => exact .name (unit?_eq_some_iff.1 h)
  | .object [(some name, content)] =>
    simp only [ofDocument?] at h
    split_ifs at h with hput hget
    · subst hput
      rcases putOfDocument?_eq_some_iff.1 h with ⟨fields, rfl, h⟩ | ⟨key, value, rfl, rfl⟩
      · obtain ⟨named, key, givenKey, value, givenValue, rfl⟩ := putOfFields?_eq_some_iff.1 h
        exact .put named givenKey givenValue
      · exact .putList key value
    · subst hget
      rcases getOfDocument?_eq_some_iff.1 h with ⟨fields, rfl, h⟩ | ⟨key, rfl, rfl⟩
      · obtain ⟨named, key, givenKey, rfl⟩ := getOfFields?_eq_some_iff.1 h
        exact .get named givenKey
      · exact .getList key
    · cases content with
      | null => exact .null (unit?_eq_some_iff.1 h)
      | _ => cases h
  | .null | .bool _ | .number _ | .array _ | .string none | .object [] | .object [(none, _)]
  | .object (_ :: _ :: _) => simp [ofDocument?] at h

theorem ofDocument?_of_readFrom (h : step.ReadFrom document) : ofDocument? document = some step := by
  cases h with
  | name unit => exact unit?_eq_some_iff.2 unit
  | null unit => exact ofDocument?_null unit
  | put named givenKey givenValue =>
    exact putOfFields?_eq_some_iff.2 ⟨named, _, givenKey, _, givenValue, rfl⟩
  | putList key value =>
    exact putOfDocument?_eq_some_iff.2 (.inr ⟨key, value, rfl, rfl⟩)
  | get named givenKey => exact getOfFields?_eq_some_iff.2 ⟨named, _, givenKey, rfl⟩
  | getList key => exact getOfDocument?_eq_some_iff.2 (.inr ⟨key, rfl, rfl⟩)

theorem ofDocument?_eq_some_iff : ofDocument? document = some step ↔ step.ReadFrom document :=
  ⟨readFrom_of_ofDocument?, ofDocument?_of_readFrom⟩

end Step

/-! ## Scenarios -/

namespace Scenario

def PartReadFrom (scenario : Scenario) : Part → Document → Prop
  | .steps, content =>
    ∃ documents, content = .array documents ∧ List.Forall₂ Step.ReadFrom scenario.steps documents
  | part, content => scenario.GivesPart part content

/-- Each field is read as a part of the scenario, no two have the same name, and what no field is
there for holds nothing. -/
structure FieldsReadFrom (scenario : Scenario) (fields : List Field) : Prop where
  nodup : (fields.map Prod.fst).Nodup
  given : ∀ field ∈ fields, ∃ part : Part, field.1 = some part.name ∧
    scenario.PartReadFrom part field.2
  leftOut : ∀ part : Part, some part.name ∉ fields.map Prod.fst → scenario.LacksPart part

/-- The documents that are read as a scenario. The items of a list are read like the contents of the
fields in their order. -/
inductive ReadFrom (scenario : Scenario) : Document → Prop
  | object {fields : List Field} (given : scenario.FieldsReadFrom fields) :
      ReadFrom scenario (.object fields)
  | list {items : List Document} (short : items.length ≤ fieldNames.length)
      (given : scenario.FieldsReadFrom ((fieldNames.map some).zip items)) :
      ReadFrom scenario (.array items)

variable {scenario : Scenario} {document : Document} {fields : List Field}

/-- A part of the scenario is found among the fields. -/
def FindsPart (scenario : Scenario) (fields : List Field) : Part → Prop
  | .rows => optional? "rows" (Document.list? (Document.list? Document.text?)) [] fields =
      some scenario.rows
  | .edges => optional? "edges" (Document.list? Document.textPair?) [] fields = some scenario.edges
  | .query => optional? "query" (Document.nullable? (Document.list? Document.text?)) none fields =
      some scenario.query
  | .querySuffix => optional? "query_suffix" (Document.nullable? Document.text?) none fields =
      some scenario.querySuffix
  | .steps => optional? "steps" (Document.list? Step.ofDocument?) [] fields = some scenario.steps

theorem known_iff {name : Literal} :
    name.any fieldNames.contains = true ↔ ∃ part : Part, name = some part.name := by
  cases name with
  | none => simp
  | some name =>
    have hname : name ∈ fieldNames ↔ ∃ part : Part, part.name = name := by
      simp [← Part.map_name_all, Part.mem_all]
    simp [hname, eq_comm]

theorem ofFields?_eq_some_iff : ofFields? fields = some scenario ↔
    (∀ field ∈ fields, ∃ part : Part, field.1 = some part.name) ∧
      ∀ part, scenario.FindsPart fields part := by
  simp only [ofFields?, Option.bind_eq_bind, Option.bind_eq_some_iff, Option.guard_eq_some',
    List.all_eq_true, known_iff]
  constructor
  · rintro ⟨-, known, rows, hrows, edges, hedges, query, hquery, suffix, hsuffix, steps, hsteps, ⟨⟩⟩
    refine ⟨known, fun part => ?_⟩
    cases part with
    | rows => exact hrows
    | edges => exact hedges
    | query => exact hquery
    | querySuffix => exact hsuffix
    | steps => exact hsteps
  · rintro ⟨known, found⟩
    exact ⟨(), known, _, found .rows, _, found .edges, _, found .query, _, found .querySuffix, _,
      found .steps, rfl⟩

/-- A part is found in the only field of its name, or there is no such field and it holds nothing. -/
def TakesPart (scenario : Scenario) (fields : List Field) (part : Part) : Prop :=
  (∃ content, contents part.name fields = [content] ∧ scenario.PartReadFrom part content) ∨
    contents part.name fields = [] ∧ scenario.LacksPart part

theorem optional?_iff_takesPart {α : Type} {read : Document → Option α} {absent value : α} (part : Part)
    (hread : ∀ content, read content = some value ↔ scenario.PartReadFrom part content)
    (hlacks : value = absent ↔ scenario.LacksPart part) :
    optional? part.name read absent fields = some value ↔ scenario.TakesPart fields part := by
  rw [optional?_eq_some_iff, eq_comm (a := absent), hlacks]
  simp only [hread, TakesPart]

theorem findsPart_iff (part : Part) :
    scenario.FindsPart fields part ↔ scenario.TakesPart fields part := by
  have htexts : ReadsWritten (Document.list? Document.text?) .texts := readsWritten_text.list
  cases part with
  | rows =>
    apply optional?_iff_takesPart .rows
    · exact fun content => htexts.list content _
    · exact .rfl
  | edges =>
    apply optional?_iff_takesPart .edges
    · exact fun content => readsWritten_textPair.list content _
    · exact .rfl
  | query =>
    apply optional?_iff_takesPart .query
    · exact fun content => htexts.nullable (by simp [Document.texts]) content _
    · exact .rfl
  | querySuffix =>
    apply optional?_iff_takesPart .querySuffix
    · exact fun content => readsWritten_text.nullable (by simp [Document.text]) content _
    · exact .rfl
  | steps =>
    apply optional?_iff_takesPart .steps
    · simp only [list?_eq_some_iff, Step.ofDocument?_eq_some_iff, PartReadFrom, implies_true]
    · exact .rfl

theorem fieldsReadFrom_of_takes (known : ∀ field ∈ fields, ∃ part : Part, field.1 = some part.name)
    (takes : ∀ part, scenario.TakesPart fields part) : scenario.FieldsReadFrom fields where
  nodup := by
    rw [List.nodup_iff_count_le_one]
    intro name
    by_cases hname : name ∈ fields.map Prod.fst
    · obtain ⟨field, hfield, rfl⟩ := List.mem_map.1 hname
      obtain ⟨part, hpart⟩ := known field hfield
      rw [hpart, ← length_contents]
      rcases takes part with ⟨_, hcontents, -⟩ | ⟨hcontents, -⟩ <;> simp [hcontents]
    · simp [List.count_eq_zero_of_not_mem hname]
  given := by
    rintro ⟨_, content⟩ hfield
    obtain ⟨part, rfl⟩ := known _ hfield
    have hmem : content ∈ contents part.name fields := mem_contents.2 hfield
    rcases takes part with ⟨only, hcontents, hread⟩ | ⟨hcontents, -⟩
    · rw [hcontents, List.mem_singleton] at hmem
      exact ⟨part, rfl, hmem ▸ hread⟩
    · simp [hcontents] at hmem
  leftOut part habsent := by
    rcases takes part with ⟨_, hcontents, -⟩ | ⟨-, hlacks⟩
    · simp [contents_eq_nil_iff.2 habsent] at hcontents
    · exact hlacks

theorem FieldsReadFrom.takes (h : scenario.FieldsReadFrom fields) (part : Part) :
    scenario.TakesPart fields part := by
  by_cases hname : some part.name ∈ fields.map Prod.fst
  · obtain ⟨⟨_, content⟩, hfield, rfl⟩ := List.mem_map.1 hname
    obtain ⟨other, hother, hread⟩ := h.given _ hfield
    obtain rfl : part = other := Part.some_name_injective hother
    exact .inl ⟨content, contents_eq_singleton h.nodup hfield, hread⟩
  · exact .inr ⟨contents_eq_nil_iff.2 hname, h.leftOut part hname⟩

theorem fieldsReadFrom_iff : ofFields? fields = some scenario ↔ scenario.FieldsReadFrom fields := by
  simp only [ofFields?_eq_some_iff, findsPart_iff]
  constructor
  · rintro ⟨known, takes⟩
    exact fieldsReadFrom_of_takes known takes
  · intro h
    refine ⟨fun field hfield => ?_, h.takes⟩
    obtain ⟨part, hpart, -⟩ := h.given field hfield
    exact ⟨part, hpart⟩

theorem ofDocument?_eq_some_iff : ofDocument? document = some scenario ↔ scenario.ReadFrom document := by
  constructor
  · intro h
    match document with
    | .object fields => exact .object (fieldsReadFrom_iff.1 h)
    | .array items =>
      rw [ofDocument?] at h
      split_ifs at h with hshort
      exact .list hshort (fieldsReadFrom_iff.1 h)
    | .null | .bool _ | .number _ | .string _ => simp [ofDocument?] at h
  · intro h
    cases h with
    | object given => exact fieldsReadFrom_iff.2 given
    | list short given =>
      rw [ofDocument?, if_pos short]
      exact fieldsReadFrom_iff.2 given

/-! ## The documents that stand for a scenario -/

theorem GivesPart.readFrom {part : Part} {content : Document} (h : scenario.GivesPart part content) :
    scenario.PartReadFrom part content := by
  cases part with
  | steps =>
    obtain ⟨documents, rfl, heach⟩ := h
    exact ⟨documents, rfl, heach.imp fun _ _ hstep =>
      Step.readFrom_of_ofDocument? (Step.ofDocument?_of_writtenAs hstep)⟩
  | _ => exact h

theorem GivenBy.readFrom (h : scenario.GivenBy fields) : scenario.FieldsReadFrom fields where
  nodup := h.nodup
  given field hfield := by
    obtain ⟨part, hname, hpart⟩ := h.given field hfield
    exact ⟨part, hname, hpart.readFrom⟩
  leftOut := h.leftOut

theorem ofDocument?_of_writtenAs (h : scenario.WrittenAs document) :
    ofDocument? document = some scenario := by
  rw [ofDocument?_eq_some_iff]
  cases h with
  | object given => exact .object given.readFrom
  | @list parts cut items inOrder given leftOut =>
    have hlength : items.length ≤ fieldNames.length := by
      rw [← Part.map_name_all, List.length_map, inOrder, List.length_append, given.length_eq]
      exact Nat.le_add_right _ _
    exact .list hlength (givenBy_zip inOrder given leftOut).readFrom

/-! ## Nothing else is read -/

/-- A document is read as a scenario if and only if it has one of its forms. In whatever order fields
stand, and if it comes as a text, it is read as the same scenario. -/
theorem reads_its_format (document : Document) :
    (∀ scenario, ofDocument? document = some scenario ↔ scenario.ReadFrom document) ∧
    (∀ other, document.Rearranged other → ofDocument? other = ofDocument? document) ∧
    ∀ text, document.SpelledBy (Text.trim text) → read? text = ofDocument? document := by
  refine ⟨fun scenario => ofDocument?_eq_some_iff, ?_, ?_⟩
  · intro other h
    exact (ignoresOrder_ofDocument? document other h).symm
  · intro text h
    rw [read?, Document.read?_of_spelled h]
    rfl

/-- A put with a note, which is passed over wherever it stands. -/
theorem reads_its_format_note :
    let steps (fields : List (String × Document)) : Document :=
      .ofFields [("steps", .array [.ofFields [("put", .ofFields fields)]])]
    let document := steps [("note", .null), ("value", .text "x")]
    let scenario : Scenario := { steps := [.put none "x"] }
    ofDocument? (steps [("value", .text "x"), ("note", .null)]) = some scenario ∧
      read? document.compact = some scenario := by
  intro steps document scenario
  obtain ⟨hread, horder, htext⟩ := reads_its_format document
  have hdocument : ofDocument? document = some scenario := by
    rw [hread]
    refine .object ⟨by simp, ?_, ?_⟩
    · rintro _ (_ | ⟨_, ⟨⟩⟩)
      refine ⟨.steps, rfl, _, rfl, .cons ?_ .nil⟩
      exact .put (by simp) (.leftOut (by simp)) ⟨by simp, by simp⟩
    · intro part habsent
      cases part with
      | steps => exact absurd List.mem_cons_self habsent
      | _ => rfl
  have hmoved : document.Rearranged (steps [("value", .text "x"), ("note", .null)]) := by
    refine .object (.refl _) rfl (.cons (.array (.cons ?_ .nil)) .nil)
    refine .object (.refl _) rfl (.cons ?_ .nil)
    exact .object (.swap _ _ _) rfl (.cons (.same _) (.cons (.same _) .nil))
  have hfields : ∀ field ∈ [("note", Document.null), ("value", .text "x")], field.2.Spellable := by
    simp [spellable_null, spellable_text]
  have hput : ∀ field ∈ [("put", Document.ofFields [("note", .null), ("value", .text "x")])],
      field.2.Spellable :=
    List.forall_mem_singleton.2 (spellable_ofFields hfields)
  have hspellable : document.Spellable :=
    spellable_ofFields <| List.forall_mem_singleton.2 <|
      spellable_array <| List.forall_mem_singleton.2 <| spellable_ofFields hput
  have hspelled := hspellable.spelledBy_compact
  have htrim : Text.trim document.compact = document.compact := by
    simpa using Text.trim_eq (List.forall_mem_nil _) (List.forall_mem_nil _) hspelled.trimmed
  exact ⟨(horder _ hmoved).trans hdocument, (htext _ (htrim ▸ hspelled)).trans hdocument⟩

/-- Only two of the fields may hold null. -/
example : ofDocument? (.object [(some "rows", .null)]) = none := rfl

/-- A list may not leave the key out. -/
example : Step.ofDocument? (.object [(some "put", .array [.text "x"])]) = none := rfl

end Scenario

end Downset
