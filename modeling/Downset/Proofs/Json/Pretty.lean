import Downset.Json.Document
import Downset.Proofs.Json.Document

/-!
# Documents laid out are read back

The layout in lines puts line ends and indentation between tokens and nowhere else. So it is one of
the ways to write the document, and reading it gives the document back.
-/

namespace Downset.Json

theorem spelledBy_field {name : Literal} {content : Document} {text : List Char}
    (hname : (Token.string name).SpelledBy (spellLiteral name)) (hcontent : content.SpelledBy text) :
    TokensSpelledBy (.string name :: .colon :: content.tokens)
      (spellLiteral name ++ ':' :: ' ' :: text) := by
  have hspace : IsGap [' '] := List.forall_mem_singleton.2 (.inl rfl)
  exact .cons hname (.more .colon hspace hcontent)

theorem isGap_newline (depth : Nat) : IsGap (newline depth) := by
  intro c hc
  rcases List.mem_cons.1 hc with rfl | hc
  · exact .inr (.inr (.inl rfl))
  · exact .inl (List.eq_of_mem_replicate hc)

mutual

/-- At whatever depth it stands, a document is laid out in one of the ways to write it. -/
theorem Document.spelledBy_layout : ∀ (document : Document) (depth : Nat), document.Spellable →
    document.SpelledBy (document.layout depth)
  | .null, _, h | .bool _, _, h | .number _, _, h | .string _, _, h => by
    rw [Document.layout, Document.SpelledBy, Document.tokens]
    exact .last (h _ (by simp [Document.tokens]))
  | .array [], _, _ => by
    rw [Document.layout, Document.SpelledBy, Document.tokens, itemTokens]
    exact .cons .beginArray (.last .endArray)
  | .array (item :: items), depth, h => by
    have hitems : ∀ token ∈ itemTokens (item :: items), token.SpelledBy token.spelling := by
      intro token htoken
      apply h
      simp [Document.tokens, htoken]
    have hlines := spelledBy_itemLines (item :: items) (depth + 1) .beginArray hitems
      (List.cons_ne_nil _ _)
    have hall := hlines.append (isGap_newline depth) (.last .endArray)
    rw [Document.layout, Document.SpelledBy, Document.tokens]
    · simpa using hall
    · simp
  | .object [], _, _ => by
    rw [Document.layout, Document.SpelledBy, Document.tokens, fieldTokens]
    exact .cons .beginObject (.last .endObject)
  | .object (field :: fields), depth, h => by
    have hfields : ∀ token ∈ fieldTokens (field :: fields), token.SpelledBy token.spelling := by
      intro token htoken
      apply h
      simp [Document.tokens, htoken]
    have hlines := spelledBy_fieldLines (field :: fields) (depth + 1) .beginObject hfields
      (List.cons_ne_nil _ _)
    have hall := hlines.append (isGap_newline depth) (.last .endObject)
    rw [Document.layout, Document.SpelledBy, Document.tokens]
    · simpa using hall
    · simp

/-- The lines of items begin with a gap, so they can stand behind any token. -/
theorem spelledBy_itemLines : ∀ (items : List Document) (depth : Nat) {before : Token}
    {text : List Char}, before.SpelledBy text →
    (∀ token ∈ itemTokens items, token.SpelledBy token.spelling) → items ≠ [] →
      TokensSpelledBy (before :: itemTokens items) (text ++ itemLines depth items)
  | [], _, _, _, _, _, hne => absurd rfl hne
  | [item], depth, _, _, hbefore, h, _ => by
    rw [itemTokens] at h
    have hitem := item.spelledBy_layout depth h
    have hall := TokensSpelledBy.more hbefore (isGap_newline depth) hitem
    simpa [itemTokens, itemLines] using hall
  | item :: next :: items, depth, _, _, hbefore, h, _ => by
    simp only [itemTokens, List.forall_mem_append, List.forall_mem_cons] at h
    obtain ⟨hfirst, hcomma, hrest⟩ := h
    have hitem := item.spelledBy_layout depth hfirst
    have hitems := spelledBy_itemLines (next :: items) depth .comma hrest (List.cons_ne_nil _ _)
    have hall := TokensSpelledBy.more hbefore (isGap_newline depth) (hitem.append isGap_nil hitems)
    simpa [itemTokens, itemLines] using hall

theorem spelledBy_fieldLines : ∀ (fields : List Field) (depth : Nat) {before : Token}
    {text : List Char}, before.SpelledBy text →
    (∀ token ∈ fieldTokens fields, token.SpelledBy token.spelling) → fields ≠ [] →
      TokensSpelledBy (before :: fieldTokens fields) (text ++ fieldLines depth fields)
  | [], _, _, _, _, _, hne => absurd rfl hne
  | [(name, content)], depth, _, _, hbefore, h, _ => by
    simp only [fieldTokens, List.forall_mem_cons] at h
    obtain ⟨hname, _, hcontent⟩ := h
    have hfield := spelledBy_field hname (content.spelledBy_layout depth hcontent)
    have hall := TokensSpelledBy.more hbefore (isGap_newline depth) hfield
    simpa [fieldTokens, fieldLines] using hall
  | (name, content) :: next :: fields, depth, _, _, hbefore, h, _ => by
    simp only [fieldTokens, List.forall_mem_append, List.forall_mem_cons] at h
    obtain ⟨⟨hname, _, hcontent⟩, hcomma, hrest⟩ := h
    have hfield := spelledBy_field hname (content.spelledBy_layout depth hcontent)
    have hfields := spelledBy_fieldLines (next :: fields) depth .comma hrest (List.cons_ne_nil _ _)
    have hall := TokensSpelledBy.more hbefore (isGap_newline depth) (hfield.append isGap_nil hfields)
    simpa [fieldTokens, fieldLines] using hall

end

end Downset.Json
