import Downset.Json.Document
import Mathlib.Data.List.Forall2
import Mathlib.Data.List.Nodup

/-!
# What readers of documents find

A field of an object is found by its name wherever it stands, if no other field has that name. A
list is read if each of its items is.
-/

namespace Downset.Json

variable {α : Type} {name : String} {content : Document} {fields : List Field}
  {read : Document → Option α} {value absent : α}

theorem contents_cons (field : Field) (fields : List Field) :
    contents name (field :: fields) =
      if field.1 = some name then field.2 :: contents name fields else contents name fields := by
  by_cases h : field.1 = some name <;> simp [contents, h]

theorem mem_contents : content ∈ contents name fields ↔ (some name, content) ∈ fields := by
  simp [contents]

theorem length_contents :
    (contents name fields).length = (fields.map Prod.fst).count (some name) := by
  induction fields with
  | nil => rfl
  | cons field fields ih =>
    by_cases h : field.1 = some name <;> simp [contents_cons, h, ih]

theorem contents_eq_nil_iff : contents name fields = [] ↔ some name ∉ fields.map Prod.fst := by
  rw [← List.length_eq_zero_iff, length_contents, List.count_eq_zero]

theorem contents_eq_singleton_iff : contents name fields = [content] ↔
    (some name, content) ∈ fields ∧ (fields.map Prod.fst).count (some name) = 1 := by
  rw [← mem_contents, ← length_contents, List.length_eq_one_iff]
  constructor
  · intro h
    rw [h]
    exact ⟨List.mem_singleton_self _, content, rfl⟩
  · rintro ⟨hmem, only, h⟩
    rw [h, List.mem_singleton] at hmem
    rw [h, hmem]

theorem contents_eq_singleton (hnodup : (fields.map Prod.fst).Nodup)
    (hmem : (some name, content) ∈ fields) : contents name fields = [content] :=
  contents_eq_singleton_iff.2
    ⟨hmem, List.count_eq_one_of_mem hnodup (List.mem_map_of_mem hmem)⟩

theorem optional?_eq_some_iff : optional? name read absent fields = some value ↔
    (∃ content, contents name fields = [content] ∧ read content = some value) ∨
      contents name fields = [] ∧ absent = value := by
  rw [optional?]
  match contents name fields with
  | [] => simp
  | [content] => simp
  | _ :: _ :: _ => simp

theorem required?_eq_some_iff : required? name read fields = some value ↔
    ∃ content, contents name fields = [content] ∧ read content = some value := by
  rw [required?]
  match contents name fields with
  | [] => simp
  | [content] => simp
  | _ :: _ :: _ => simp

theorem mapM_eq_some_iff {values : List α} {items : List Document} : items.mapM read = some values ↔
    List.Forall₂ (fun value item => read item = some value) values items := by
  induction items generalizing values with
  | nil => simp [eq_comm]
  | cons item items ih =>
    simp [List.forall₂_cons_right_iff, Option.bind_eq_some_iff, ih, eq_comm (b := values)]

theorem list?_map {write : α → Document} (h : ∀ value, read (write value) = some value)
    (values : List α) : Document.list? read (.array (values.map write)) = some values := by
  rw [Document.list?, mapM_eq_some_iff, List.forall₂_map_right_iff]
  exact List.forall₂_same.2 fun value _ => h value

theorem text?_text (text : String) : (Document.text text).text? = some text := rfl

theorem list?_texts (texts : List String) :
    Document.list? Document.text? (.texts texts) = some texts :=
  list?_map text?_text texts

/-! ## Readers that accept what is written, and nothing else -/

/-- A document is read as a value only if it is what is written for the value. -/
def ReadsWritten {α : Type} (read : Document → Option α) (write : α → Document) : Prop :=
  ∀ document value, read document = some value ↔ document = write value

variable {write : α → Document}

theorem readsWritten_text : ReadsWritten Document.text? .text := by
  intro document value
  cases document <;> simp [Document.text?, Document.text]

theorem list?_eq_some_iff {document : Document} {values : List α} :
    Document.list? read document = some values ↔ ∃ items, document = .array items ∧
      List.Forall₂ (fun value item => read item = some value) values items := by
  cases document <;> simp [Document.list?, mapM_eq_some_iff]

theorem ReadsWritten.list (h : ReadsWritten read write) :
    ReadsWritten (Document.list? read) fun values => .array (values.map write) := by
  intro document values
  rw [list?_eq_some_iff]
  have hitems : ∀ items, List.Forall₂ (fun value item => read item = some value) values items ↔
      items = values.map write := by
    simp only [h _ _]
    induction values with
    | nil => simp
    | cons value values ih => simp [List.forall₂_cons_left_iff, ih]
  simp [hitems]

theorem ReadsWritten.nullable (h : ReadsWritten read write) (hnull : ∀ value, write value ≠ .null) :
    ReadsWritten (Document.nullable? read) fun value => value.elim .null write := by
  intro document value
  cases value with
  | none => cases document <;> simp [Document.nullable?]
  | some value =>
    cases document with
    | null => simp [Document.nullable?, (hnull value).symm]
    | _ => simp [Document.nullable?, h _ _]

theorem readsWritten_textPair :
    ReadsWritten Document.textPair? fun pair => .texts [pair.1, pair.2] := by
  intro document pair
  match document with
  | .array [first, second] =>
    have hpair : Document.textPair? (.array [first, second]) = some pair ↔
        first.text? = some pair.1 ∧ second.text? = some pair.2 := by
      simp [Document.textPair?, Option.bind_eq_some_iff, Prod.ext_iff]
    simp [hpair, readsWritten_text _ _, Document.texts]
  | .null | .bool _ | .number _ | .string _ | .object _ | .array [] | .array [_]
  | .array (_ :: _ :: _ :: _) => simp [Document.textPair?, Document.texts]

end Downset.Json
