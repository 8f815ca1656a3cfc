import Downset.Proofs.Scenario.Rearranged

/-!
# The forms of a scenario

A scenario can be given as an object, with its parts in any order and without those that hold
nothing, or as a list of its parts up to some place behind which all parts hold nothing. Its steps
have several forms too. Reading any of these documents gives the scenario back.
-/

namespace Downset

open Json

/-! ## Steps -/

namespace Step

def unitNames : List (Step × String) :=
  [(makeReadable, "make_readable"), (makeWritable, "make_writable"),
    (makeWritableAndClear, "make_writable_and_clear"), (dot, "dot")]

/-- The fields by which a step gives its key: a missing key is null, or is left out. -/
inductive KeyGivenBy : Option String → List Field → Prop
  | key (key : String) : KeyGivenBy (some key) [(some "key", Document.text key)]
  | null : KeyGivenBy none [(some "key", Document.null)]
  | leftOut : KeyGivenBy none []

/-- The documents that stand for a step. -/
inductive WrittenAs : Step → Document → Prop
  | put {key : Option String} {value : String} {keyFields fields : List Field}
      (given : KeyGivenBy key keyFields)
      (anyOrder : fields.Perm (keyFields ++ [(some "value", Document.text value)])) :
      WrittenAs (put key value) (.object [(some "put", .object fields)])
  | get {key : Option String} {fields : List Field} (given : KeyGivenBy key fields) :
      WrittenAs (get key) (.object [(some "get", .object fields)])
  | name {step : Step} {name : String} (unit : (step, name) ∈ unitNames) :
      WrittenAs step (.text name)
  | object {step : Step} {name : String} (unit : (step, name) ∈ unitNames) :
      WrittenAs step (.object [(some name, .null)])

variable {step : Step} {document : Document} {key : Option String} {name value : String}
  {keyFields fields : List Field}

theorem unit?_of_mem (h : (step, name) ∈ unitNames) :
    unit? name = some step ∧ name ≠ "put" ∧ name ≠ "get" := by
  have hall : ∀ unit ∈ unitNames, unit? unit.2 = some unit.1 ∧ unit.2 ≠ "put" ∧ unit.2 ≠ "get" := by
    decide
  exact hall _ h

theorem ofDocument?_null (h : (step, name) ∈ unitNames) :
    ofDocument? (.object [(some name, .null)]) = some step := by
  obtain ⟨hunit, hput, hget⟩ := unit?_of_mem h
  simp [ofDocument?, hput, hget, hunit]

/-- Whichever document stands for a step, reading it gives the step. -/
theorem ofDocument?_of_writtenAs (h : step.WrittenAs document) : ofDocument? document = some step := by
  cases h with
  | put given anyOrder =>
    apply (ignoresOrder_content _ _ (.of_perm anyOrder)).trans
    cases given <;> rfl
  | get given => cases given <;> rfl
  | name unit => exact (unit?_of_mem unit).1
  | object unit => exact ofDocument?_null unit

theorem writtenAs_toDocument (step : Step) : step.WrittenAs step.toDocument := by
  have hgiven : ∀ key, KeyGivenBy key [(some "key", keyDocument key)]
    | some key => .key key
    | none => .null
  cases step with
  | put key value => exact .put (hgiven key) (.refl _)
  | get key => exact .get (hgiven key)
  | makeReadable | makeWritable | makeWritableAndClear | dot => exact .name (by decide)

end Step

/-! ## Scenarios -/

namespace Scenario

inductive Part
  | rows
  | edges
  | query
  | querySuffix
  | steps
  deriving DecidableEq

namespace Part

def name : Part → String
  | rows => "rows"
  | edges => "edges"
  | query => "query"
  | querySuffix => "query_suffix"
  | steps => "steps"

def all : List Part := [rows, edges, query, querySuffix, steps]

theorem mem_all (part : Part) : part ∈ all := by
  cases part <;> decide

theorem nodup_all : all.Nodup := by decide

theorem map_name_all : all.map name = fieldNames := rfl

theorem some_name_injective : Function.Injective fun part : Part => some part.name := by
  have hall : ∀ part ∈ all, ∀ other ∈ all, some part.name = some other.name → part = other := by
    decide
  exact fun part other => hall part part.mem_all other other.mem_all

end Part

/-- The document stands for a part of the scenario. -/
def GivesPart (scenario : Scenario) : Part → Document → Prop
  | .rows, content => content = .array (scenario.rows.map Document.texts)
  | .edges, content => content = .array (scenario.edges.map fun edge => .texts [edge.1, edge.2])
  | .query, content => content = scenario.query.elim .null Document.texts
  | .querySuffix, content => content = scenario.querySuffix.elim .null Document.text
  | .steps, content =>
    ∃ documents, content = .array documents ∧ List.Forall₂ Step.WrittenAs scenario.steps documents

def LacksPart (scenario : Scenario) : Part → Prop
  | .rows => scenario.rows = []
  | .edges => scenario.edges = []
  | .query => scenario.query = none
  | .querySuffix => scenario.querySuffix = none
  | .steps => scenario.steps = []

/-- Each field gives a part of the scenario, no two give the same part, and what is not given
holds nothing. -/
structure GivenBy (scenario : Scenario) (fields : List Field) : Prop where
  nodup : (fields.map Prod.fst).Nodup
  given : ∀ field ∈ fields, ∃ part : Part, field.1 = some part.name ∧ scenario.GivesPart part field.2
  leftOut : ∀ part : Part, some part.name ∉ fields.map Prod.fst → scenario.LacksPart part

/-- The documents that stand for a scenario. -/
inductive WrittenAs (scenario : Scenario) : Document → Prop
  | object {fields : List Field} (given : scenario.GivenBy fields) :
      WrittenAs scenario (.object fields)
  | list {parts cut : List Part} {items : List Document} (inOrder : Part.all = parts ++ cut)
      (given : List.Forall₂ scenario.GivesPart parts items)
      (leftOut : ∀ part ∈ cut, scenario.LacksPart part) : WrittenAs scenario (.array items)

variable {scenario : Scenario} {document : Document} {parts cut : List Part}
  {items : List Document} {fields : List Field}

/-- A list gives its parts like the object that names them. -/
theorem givenBy_zip (horder : Part.all = parts ++ cut)
    (hgiven : List.Forall₂ scenario.GivesPart parts items)
    (hcut : ∀ part ∈ cut, scenario.LacksPart part) :
    scenario.GivenBy ((fieldNames.map some).zip items) := by
  obtain ⟨hlength, hgives⟩ := List.forall₂_iff_zip.1 hgiven
  have hzip : (fieldNames.map some).zip items =
      (parts.map fun part => some part.name).zip items := by
    calc (fieldNames.map some).zip items
        = ((parts ++ cut).map fun part => some part.name).zip (items ++ []) := by
          rw [← Part.map_name_all, horder, List.map_map, List.append_nil]
          rfl
      _ = (parts.map fun part => some part.name).zip items := by
          rw [List.map_append, List.zip_append (by rw [List.length_map, hlength]),
            List.zip_nil_right, List.append_nil]
  have hnames : ((fieldNames.map some).zip items).map Prod.fst =
      parts.map fun part => some part.name := by
    rw [hzip, List.map_fst_zip (by simp [hlength])]
  refine ⟨?_, ?_, ?_⟩
  · have hsublist : parts.Sublist Part.all := horder ▸ List.sublist_append_left parts cut
    rw [hnames]
    exact (Part.nodup_all.sublist hsublist).map Part.some_name_injective
  · rw [hzip, List.zip_map_left]
    intro field hmem
    obtain ⟨⟨part, content⟩, hpair, rfl⟩ := List.mem_map.1 hmem
    exact ⟨part, rfl, hgives hpair⟩
  · intro part habsent
    rw [hnames, List.mem_map_of_injective Part.some_name_injective] at habsent
    have hmem : part ∈ parts ++ cut := horder ▸ part.mem_all
    exact hcut part ((List.mem_append.1 hmem).resolve_left habsent)

/-- A scenario has a document that stands for it, with all its parts. -/
theorem writtenAs_toDocument (scenario : Scenario) : scenario.WrittenAs scenario.toDocument := by
  rw [toDocument, Document.ofFields]
  refine .object ⟨?_, ?_, fun part habsent => ?_⟩
  · have hnodup : (Part.all.map fun part => some part.name).Nodup :=
      Part.nodup_all.map Part.some_name_injective
    exact hnodup
  · simp only [List.map_cons, List.map_nil, List.forall_mem_cons, List.not_mem_nil, false_implies,
      implies_true, and_true]
    exact ⟨⟨.rows, rfl, rfl⟩, ⟨.edges, rfl, rfl⟩, ⟨.query, rfl, rfl⟩, ⟨.querySuffix, rfl, rfl⟩,
      ⟨.steps, rfl, _, rfl, List.forall₂_map_right_iff.2
        (List.forall₂_same.2 fun step _ => step.writtenAs_toDocument)⟩⟩
  · have hmem : some part.name ∈ Part.all.map fun part => some part.name :=
      List.mem_map_of_mem part.mem_all
    exact absurd hmem habsent

end Scenario

end Downset
