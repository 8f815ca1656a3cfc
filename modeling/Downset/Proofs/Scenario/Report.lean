import Downset.Proofs.Json.Decode
import Downset.Proofs.Json.Pretty
import Downset.Scenario.Basic

/-!
# Reports read back

A report is printed as a document in lines. Reading the text gives the document, and from the
fields of the document the report is put together again; so no two reports are printed alike.
-/

namespace Downset

open Json

/-! ## Reports from documents -/

def QueryResult.ofDocument? : Document → Option QueryResult
  | .object fields => do
    return {
      key := ← required? "key" Document.text? fields
      values := ← required? "values" (Document.list? Document.text?) fields }
  | _ => none

/-- Only the drawings may be missing. -/
def Report.ofDocument? : Document → Option Report
  | .object fields => do
    return {
      topologicalOrder :=
        ← required? "topological_order" (Document.nullable? (Document.list? Document.text?)) fields
      results := ← required? "results" (Document.list? QueryResult.ofDocument?) fields
      dots := ← optional? "dots" (Document.list? Document.text?) [] fields }
  | _ => none

theorem QueryResult.ofDocument?_toDocument (result : QueryResult) :
    ofDocument? result.toDocument = some result := by
  simp [toDocument, Document.ofFields, ofDocument?, required?, contents, text?_text, list?_texts]

theorem QueryResult.spellable_toDocument (result : QueryResult) : result.toDocument.Spellable := by
  apply spellable_ofFields
  simp only [List.forall_mem_cons]
  exact ⟨spellable_text result.key, spellable_texts result.values, List.forall_mem_nil _⟩

namespace Report

variable (report : Report)

theorem nullable?_topologicalOrder :
    Document.nullable? (Document.list? Document.text?)
      (report.topologicalOrder.elim .null Document.texts) = some report.topologicalOrder := by
  cases report.topologicalOrder with
  | none => rfl
  | some keys => exact congrArg (Option.map some) (list?_texts keys)

theorem ofDocument?_toDocument : ofDocument? report.toDocument = some report := by
  have horder := nullable?_topologicalOrder report
  have hresults := list?_map QueryResult.ofDocument?_toDocument report.results
  have hdots := list?_texts report.dots
  rcases report with ⟨order, results, _ | ⟨dot, dots⟩⟩ <;>
    simp_all [toDocument, Document.ofFields, ofDocument?, required?, optional?, contents]

theorem spellable_toDocument : report.toDocument.Spellable := by
  have horder : (report.topologicalOrder.elim .null Document.texts).Spellable := by
    cases report.topologicalOrder with
    | none => exact spellable_null
    | some keys => exact spellable_texts keys
  have hresults : (Document.array (report.results.map QueryResult.toDocument)).Spellable :=
    spellable_array (List.forall_mem_map.2 fun result _ => result.spellable_toDocument)
  apply spellable_ofFields
  split
  · simp [horder, hresults]
  · simp [horder, hresults, spellable_texts]

/-- The names of the fields of a report. The drawings have a field only if there are any. -/
theorem names_toDocument :
    ∃ fields : List (String × Document), report.toDocument = .ofFields fields ∧
      fields.map Prod.fst =
        ["topological_order", "results"] ++ if report.dots = [] then [] else ["dots"] := by
  refine ⟨_, rfl, ?_⟩
  simp [apply_ite (List.map Prod.fst)]

theorem spelledBy_pretty : report.toDocument.SpelledBy report.pretty.toList := by
  rw [pretty, String.toList_ofList]
  exact report.toDocument.spelledBy_layout 0 report.spellable_toDocument

theorem read?_pretty : Document.read? report.pretty.toList = some report.toDocument :=
  Document.read?_of_spelled report.spelledBy_pretty

theorem toDocument_injective : Function.Injective toDocument := by
  intro report other h
  have hread := congrArg ofDocument? h
  rw [ofDocument?_toDocument, ofDocument?_toDocument] at hread
  exact Option.some.inj hread

theorem pretty_injective : Function.Injective pretty := by
  intro report other h
  have hread := congrArg (fun text => Document.read? text.toList) h
  simp only [read?_pretty] at hread
  exact toDocument_injective (Option.some.inj hread)

/-- The text of a report is a JSON text of a document that has the fields of the report and no
others, and the report is read back from the document. It does not matter that a line end is printed
behind the text. So no other report has the same text. -/
theorem printed_read_back :
    (∃ fields : List (String × Document),
      (Document.ofFields fields).SpelledBy report.pretty.toList ∧
      Document.read? report.pretty.toList = some (.ofFields fields) ∧
      Document.read? (report.pretty ++ "\n").toList = some (.ofFields fields) ∧
      ofDocument? (.ofFields fields) = some report ∧
      fields.map Prod.fst =
        ["topological_order", "results"] ++ if report.dots = [] then [] else ["dots"]) ∧
    ∀ other : Report, other.pretty = report.pretty ↔ other = report := by
  constructor
  · obtain ⟨fields, hfields, hnames⟩ := report.names_toDocument
    refine ⟨fields, ?_⟩
    rw [← hfields]
    have hgap : IsGap "\n".toList := List.forall_mem_singleton.2 (.inr (.inr (.inl rfl)))
    have hline : Document.read? (report.pretty ++ "\n").toList = some report.toDocument := by
      rw [String.toList_append]
      exact Document.read?_append_of_spelled report.spelledBy_pretty hgap
    exact ⟨report.spelledBy_pretty, report.read?_pretty, hline, report.ofDocument?_toDocument, hnames⟩
  · exact fun other => pretty_injective.eq_iff

end Report

end Downset
