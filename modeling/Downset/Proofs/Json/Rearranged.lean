import Downset.Proofs.Json.Decode
import Mathlib.Data.List.Perm.Basic

/-!
# Documents whose fields stand in another order

Two documents may differ only in the order in which fields stand in their objects, at any depth.
Readers that find fields by name cannot tell such documents apart, whether they accept them or not.
-/

namespace Downset.Json

/-- The fields of the objects within the first document stand in another order in the second. Fields
of one name may change places too. -/
inductive Document.Rearranged : Document → Document → Prop
  | same (document : Document) : Rearranged document document
  | array {items items' : List Document} (each : List.Forall₂ Rearranged items items') :
      Rearranged (.array items) (.array items')
  | object {fields moved fields' : List Field} (order : fields.Perm moved)
      (names : moved.map Prod.fst = fields'.map Prod.fst)
      (each : List.Forall₂ Rearranged (moved.map Prod.snd) (fields'.map Prod.snd)) :
      Rearranged (.object fields) (.object fields')

/-- The reader answers the same for documents that differ in the order of fields only. -/
def IgnoresOrder {α : Type} (read : Document → α) : Prop :=
  ∀ document other, document.Rearranged other → read document = read other

variable {α : Type} {read : Document → Option α} {absent : α} {name : String}
  {items items' : List Document} {fields fields' : List Field}

theorem ignoresOrder_text? : IgnoresOrder Document.text? := by
  intro document other h
  cases h <;> rfl

theorem IgnoresOrder.mapM (hread : IgnoresOrder read)
    (h : List.Forall₂ Document.Rearranged items items') : items.mapM read = items'.mapM read := by
  induction h with
  | nil => rfl
  | cons hitem _ ih => simp [hread _ _ hitem, ih]

theorem IgnoresOrder.list? (hread : IgnoresOrder read) : IgnoresOrder (Document.list? read) := by
  intro document other h
  cases h with
  | same => rfl
  | array each => exact hread.mapM each
  | object => rfl

theorem IgnoresOrder.nullable? (hread : IgnoresOrder read) :
    IgnoresOrder (Document.nullable? read) := by
  intro document other h
  have heq : (read document).map some = (read other).map some :=
    congrArg _ (hread document other h)
  cases h with
  | same => rfl
  | array | object => exact heq

theorem ignoresOrder_textPair? : IgnoresOrder Document.textPair? := by
  intro document other h
  cases h with
  | same | object => rfl
  | array each =>
    match each with
    | .nil | .cons _ .nil | .cons _ (.cons _ (.cons _ _)) => rfl
    | .cons hfirst (.cons hsecond .nil) =>
      simp [Document.textPair?, ignoresOrder_text? _ _ hfirst, ignoresOrder_text? _ _ hsecond]

theorem Document.Rearranged.of_perm (h : fields.Perm fields') :
    (Document.object fields).Rearranged (.object fields') :=
  .object h rfl (List.forall₂_same.2 fun content _ => .same content)

theorem Document.Rearranged.exists_moved (h : (Document.object fields).Rearranged (.object fields')) :
    ∃ moved, fields.Perm moved ∧ moved.map Prod.fst = fields'.map Prod.fst ∧
      List.Forall₂ Rearranged (moved.map Prod.snd) (fields'.map Prod.snd) := by
  cases h with
  | same => exact ⟨fields, .refl _, rfl, List.forall₂_same.2 fun content _ => .same content⟩
  | object order names each => exact ⟨_, order, names, each⟩

theorem length_fields_rearranged (h : (Document.object fields).Rearranged (.object fields')) :
    fields.length = fields'.length := by
  obtain ⟨moved, horder, hnames, -⟩ := h.exists_moved
  simpa [horder.length_eq] using congrArg List.length hnames

/-- Where there is just one field, only its content can differ. -/
theorem rearranged_single {name' : Literal} {literal : Literal} {content content' : Document}
    (h : (Document.object [(literal, content)]).Rearranged (.object [(name', content')])) :
    literal = name' ∧ content.Rearranged content' := by
  obtain ⟨moved, horder, hnames, heach⟩ := h.exists_moved
  obtain rfl := List.singleton_perm.1 horder
  simpa using And.intro hnames heach

/-- Items that are given the same names in order become fields of documents that differ in order
only. -/
theorem rearranged_zip {names : List Literal}
    (h : List.Forall₂ Document.Rearranged items items') :
    (Document.object (names.zip items)).Rearranged (.object (names.zip items')) := by
  have hzip : (names.zip items).map Prod.fst = (names.zip items').map Prod.fst ∧
      List.Forall₂ Document.Rearranged ((names.zip items).map Prod.snd)
        ((names.zip items').map Prod.snd) := by
    induction h generalizing names with
    | nil => simp
    | cons hitem _ ih =>
      cases names with
      | nil => simp
      | cons name names => simpa [hitem] using ih
  exact .object (.refl _) hzip.1 hzip.2

theorem map_contents_rearranged (h : (Document.object fields).Rearranged (.object fields'))
    (hread : IgnoresOrder read) :
    ((contents name fields).map read).Perm ((contents name fields').map read) := by
  obtain ⟨moved, horder, hnames, heach⟩ := h.exists_moved
  have hmoved : (contents name moved).map read = (contents name fields').map read := by
    clear h horder
    induction moved generalizing fields' with
    | nil =>
      cases fields' with
      | nil => rfl
      | cons => cases hnames
    | cons field moved ih =>
      cases fields' with
      | nil => cases hnames
      | cons field' fields' =>
        obtain ⟨hname, hnames⟩ := List.cons.inj hnames
        obtain ⟨hcontent, heach⟩ := List.forall₂_cons.1 heach
        have hrest := ih hnames heach
        by_cases hfield : field.1 = some name
        · simp [contents_cons, ← hname, hfield, hread _ _ hcontent, hrest]
        · simp [contents_cons, ← hname, hfield, hrest]
  rw [← hmoved]
  exact ((horder.filter _).map _).map _

theorem all_names_rearranged (h : (Document.object fields).Rearranged (.object fields'))
    (holds : Literal → Bool) :
    (fields.all fun field => holds field.1) = fields'.all fun field => holds field.1 := by
  obtain ⟨moved, horder, hnames, -⟩ := h.exists_moved
  calc (fields.all fun field => holds field.1)
      = moved.all fun field => holds field.1 := horder.all_eq
    _ = (moved.map Prod.fst).all holds := List.all_map.symm
    _ = fields'.all fun field => holds field.1 := by rw [hnames, List.all_map]; rfl

theorem optional?_rearranged (h : (Document.object fields).Rearranged (.object fields'))
    (hread : IgnoresOrder read) :
    optional? name read absent fields = optional? name read absent fields' := by
  have hperm : ((contents name fields).map read).Perm ((contents name fields').map read) :=
    map_contents_rearranged h hread
  rw [optional?, optional?]
  generalize contents name fields = found at hperm
  generalize contents name fields' = found' at hperm
  have hlength : found.length = found'.length := by simpa using hperm.length_eq
  cases found with
  | nil =>
    obtain rfl : found' = [] := List.length_eq_zero_iff.1 hlength.symm
    rfl
  | cons content rest =>
    cases found' with
    | nil => cases hlength
    | cons content' rest' =>
      cases rest with
      | nil =>
        obtain rfl : rest' = [] := List.length_eq_zero_iff.1 (Nat.succ.inj hlength).symm
        simpa using hperm
      | cons =>
        cases rest' with
        | nil => cases Nat.succ.inj hlength
        | cons => rfl

theorem required?_eq : required? name read fields =
    (optional? name (fun content => (read content).map some) none fields).bind id := by
  rw [required?, optional?]
  cases contents name fields with
  | nil => rfl
  | cons content rest =>
    cases rest with
    | nil => cases h : read content <;> simp [h]
    | cons => rfl

theorem required?_rearranged (h : (Document.object fields).Rearranged (.object fields'))
    (hread : IgnoresOrder read) : required? name read fields = required? name read fields' := by
  rw [required?_eq, required?_eq, optional?_rearranged h]
  intro content other hcontent
  exact congrArg (Option.map some) (hread content other hcontent)

end Downset.Json
