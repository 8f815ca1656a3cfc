import Downset.Proofs.Json.Document
import Downset.Proofs.Scenario.Format

/-!
# Scenarios read back from text

A text of a scenario is any text of any document that stands for it, with any blanks around it.
Reading the text gives the scenario back, and every scenario has such a text.
-/

namespace Downset

open Json

namespace Step

theorem spellable_toDocument (step : Step) : step.toDocument.Spellable := by
  have hkey : ∀ key, (keyDocument key).Spellable
    | some key => spellable_text key
    | none => spellable_null
  cases step with
  | put key value =>
    refine spellable_ofFields (List.forall_mem_singleton.2 (spellable_ofFields ?_))
    simp only [List.forall_mem_cons]
    exact ⟨hkey key, spellable_text value, List.forall_mem_nil _⟩
  | get key =>
    refine spellable_ofFields (List.forall_mem_singleton.2 (spellable_ofFields ?_))
    exact List.forall_mem_singleton.2 (hkey key)
  | makeReadable | makeWritable | makeWritableAndClear | dot => exact spellable_text _

end Step

namespace Scenario

variable {scenario : Scenario} {document : Document} {before text after : List Char}

theorem spellable_toDocument (scenario : Scenario) : scenario.toDocument.Spellable := by
  have hquery : (scenario.query.elim .null Document.texts).Spellable := by
    cases scenario.query with
    | none => exact spellable_null
    | some keys => exact spellable_texts keys
  have hsuffix : (scenario.querySuffix.elim .null Document.text).Spellable := by
    cases scenario.querySuffix with
    | none => exact spellable_null
    | some suffix => exact spellable_text suffix
  refine spellable_ofFields ?_
  simp only [List.forall_mem_cons]
  refine ⟨?_, ?_, hquery, hsuffix, ?_, List.forall_mem_nil _⟩
  · exact spellable_array (List.forall_mem_map.2 fun row _ => spellable_texts row)
  · exact spellable_array (List.forall_mem_map.2 fun edge _ => spellable_texts [edge.1, edge.2])
  · exact spellable_array (List.forall_mem_map.2 fun step _ => step.spellable_toDocument)

/-- Every scenario can be written: its plainest form without space is one of its texts. -/
theorem exists_text (scenario : Scenario) :
    ∃ document text, scenario.WrittenAs document ∧ document.SpelledBy text :=
  ⟨scenario.toDocument, scenario.toDocument.compact, scenario.writtenAs_toDocument,
    scenario.spellable_toDocument.spelledBy_compact⟩

/-- Whichever document stands for a scenario, however it is written and whatever blanks are around
it, reading the text gives the scenario. -/
theorem read?_of_written (hdocument : scenario.WrittenAs document) (htext : document.SpelledBy text)
    (hbefore : ∀ c ∈ before, Text.isBlank c = true) (hafter : ∀ c ∈ after, Text.isBlank c = true) :
    read? (before ++ text ++ after) = some scenario := by
  have htrim : Text.trim (before ++ text ++ after) = text :=
    Text.trim_eq hbefore hafter htext.trimmed
  rw [read?, htrim, Document.read?_of_spelled htext]
  exact ofDocument?_of_writtenAs hdocument

/-- The one key that can be queried is a character that takes a surrogate pair to escape; the other
parts are left out, and there are blanks around the text that are none to JSON. -/
theorem read?_of_written_pair :
    read? (['\u3000'] ++ "\x7b\"query\":[\"\\ud83d\\ude00\"]\x7d".toList ++ ['\u0085']) =
      some { query := some ["😀"] } := by
  have hdocument : WrittenAs { query := some ["😀"] }
      (.object [(some "query", .texts ["😀"])]) := by
    refine .object ⟨by simp, ?_, ?_⟩
    · rintro _ (_ | ⟨_, ⟨⟩⟩)
      exact ⟨.query, rfl, rfl⟩
    · intro part habsent
      cases part with
      | query => exact absurd List.mem_cons_self habsent
      | _ => rfl
  have hgap : IsGap [] := fun _ hc => by cases hc
  have hhigh : UnitSpelledBy 0xd83d "d83d".toList :=
    @UnitSpelledBy.digits 13 8 3 13 _ _ _ _ (.inl rfl) (.inl rfl) (.inl rfl) (.inl rfl)
  have hlow : UnitSpelledBy 0xde00 "de00".toList :=
    @UnitSpelledBy.digits 13 14 0 0 _ _ _ _ (.inl rfl) (.inl rfl) (.inl rfl) (.inl rfl)
  have hpair : CharSpelledBy '😀' ('\\' :: 'u' :: "d83d".toList ++ '\\' :: 'u' :: "de00".toList) :=
    .pair (by decide) (by decide) (by decide) hhigh hlow
  have hchars : CharsSpelledBy "😀".toList "\\ud83d\\ude00".toList := .cons hpair .nil
  have hkey : (Token.string (some "😀")).SpelledBy "\"\\ud83d\\ude00\"".toList := .string hchars
  have htext : Document.SpelledBy (.object [(some "query", .texts ["😀"])])
      "\x7b\"query\":[\"\\ud83d\\ude00\"]\x7d".toList :=
    .more .beginObject hgap <| .more (spelledBy_text "query") hgap <| .more .colon hgap <|
      .more .beginArray hgap <| .more hkey hgap <| .more .endArray hgap <| .last .endObject
  exact read?_of_written hdocument htext (List.forall_mem_singleton.2 rfl)
    (List.forall_mem_singleton.2 rfl)

end Scenario

end Downset
