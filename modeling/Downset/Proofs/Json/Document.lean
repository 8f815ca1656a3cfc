import Downset.Proofs.Json.Grammar

/-!
# Documents read back

No two tokens that could run into each other follow one another in a document, and its tokens lead
the reader from wherever a document is to come to the place where it is complete. So whichever way
a document is written, reading the text gives the document back.
-/

namespace Downset.Json

theorem apart_insert {before after : List Token} {token : Token} (hends : token.endsItself = true)
    (hbefore : before.IsChain Apart) (hafter : after.IsChain Apart) :
    (before ++ token :: after).IsChain Apart := by
  rw [List.isChain_append, List.isChain_cons]
  refine ⟨hbefore, ⟨fun _ _ => .inl hends, hafter⟩, ?_⟩
  rintro last _ next ⟨⟩
  exact .inr hends

theorem apart_cons {after : List Token} {token : Token} (hends : token.endsItself = true)
    (hafter : after.IsChain Apart) : (token :: after).IsChain Apart :=
  List.isChain_cons.2 ⟨fun _ _ => .inl hends, hafter⟩

mutual

theorem Document.apart_tokens : ∀ document : Document, document.tokens.IsChain Apart
  | .null | .bool _ | .number _ | .string _ => by
    rw [Document.tokens]
    exact .singleton _
  | .array items => by
    rw [Document.tokens]
    exact apart_cons rfl (apart_insert rfl (apart_itemTokens items) .nil)
  | .object fields => by
    rw [Document.tokens]
    exact apart_cons rfl (apart_insert rfl (apart_fieldTokens fields) .nil)

theorem apart_itemTokens : ∀ items : List Document, (itemTokens items).IsChain Apart
  | [] => by
    rw [itemTokens]
    exact .nil
  | [item] => by
    rw [itemTokens]
    exact item.apart_tokens
  | item :: next :: items => by
    rw [itemTokens]
    · exact apart_insert rfl item.apart_tokens (apart_itemTokens (next :: items))
    · simp

theorem apart_fieldTokens : ∀ fields : List Field, (fieldTokens fields).IsChain Apart
  | [] => by
    rw [fieldTokens]
    exact .nil
  | [(name, content)] => by
    rw [fieldTokens]
    exact apart_cons rfl (apart_cons rfl content.apart_tokens)
  | (name, content) :: next :: fields => by
    rw [fieldTokens]
    · exact apart_cons rfl (apart_cons rfl
        (apart_insert rfl content.apart_tokens (apart_fieldTokens (next :: fields))))
    · simp

end

section Places

variable {stack : List Frame} {item : Document} {items : List Document} {field : Field}
  {fields : List Field} {rest : List Token}

/-- No document begins with the end of an array, so no array does that has an item. -/
theorem exists_first_token :
    ∃ token rest, itemTokens (item :: items) = token :: rest ∧ token ≠ Token.endArray := by
  have hitem : ∃ token rest, item.tokens = token :: rest ∧ token ≠ Token.endArray := by
    cases item <;> simp [Document.tokens]
  obtain ⟨token, rest, htokens, hne⟩ := hitem
  cases items <;> simp [itemTokens, htokens, hne]

theorem foldlM_firstItem :
    (itemTokens (item :: items) ++ rest).foldlM Place.step (.firstItem stack) =
      (itemTokens (item :: items) ++ rest).foldlM Place.step (.value (.array [] :: stack)) := by
  obtain ⟨token, others, htokens, hne⟩ :
      ∃ token others, itemTokens (item :: items) = token :: others ∧ token ≠ Token.endArray :=
    exists_first_token
  rw [htokens, List.cons_append, List.foldlM_cons, List.foldlM_cons]
  cases token with
  | endArray => exact absurd rfl hne
  | _ => rfl

theorem foldlM_firstName :
    (fieldTokens (field :: fields) ++ rest).foldlM Place.step (.firstName stack) =
      (fieldTokens (field :: fields) ++ rest).foldlM Place.step (.name [] stack) := by
  cases fields <;> rfl

end Places

mutual

/-- Where a document is to come, its tokens complete it. -/
theorem Document.foldlM_tokens : ∀ (document : Document) (stack : List Frame),
    document.tokens.foldlM Place.step (.value stack) = some (.complete document stack)
  | .null, _ | .bool _, _ | .number _, _ | .string _, _ => by
    rw [Document.tokens]
    rfl
  | .array [], _ => by
    rw [Document.tokens, itemTokens]
    rfl
  | .array (item :: items), stack => by
    rw [Document.tokens, List.cons_append, List.foldlM_cons]
    exact foldlM_firstItem.trans (foldlM_itemTokens (item :: items) [] stack (List.cons_ne_nil _ _))
  | .object [], _ => by
    rw [Document.tokens, fieldTokens]
    rfl
  | .object (field :: fields), stack => by
    rw [Document.tokens, List.cons_append, List.foldlM_cons]
    exact foldlM_firstName.trans
      (foldlM_fieldTokens (field :: fields) [] stack (List.cons_ne_nil _ _))

theorem foldlM_itemTokens : ∀ (items done : List Document) (stack : List Frame), items ≠ [] →
    (itemTokens items ++ [Token.endArray]).foldlM Place.step (.value (.array done :: stack)) =
      some (.complete (.array (done.reverse ++ items)) stack)
  | [], _, _, hne => absurd rfl hne
  | [item], done, stack, _ => by
    rw [itemTokens, List.foldlM_append, item.foldlM_tokens]
    simp [Place.step]
  | item :: next :: items, done, stack, _ => by
    have hrest := foldlM_itemTokens (next :: items) (item :: done) stack (List.cons_ne_nil _ _)
    rw [itemTokens, List.append_assoc, List.foldlM_append, item.foldlM_tokens]
    · simpa [Place.step] using hrest
    · simp

theorem foldlM_fieldTokens : ∀ (fields done : List Field) (stack : List Frame), fields ≠ [] →
    (fieldTokens fields ++ [Token.endObject]).foldlM Place.step (.name done stack) =
      some (.complete (.object (done.reverse ++ fields)) stack)
  | [], _, _, hne => absurd rfl hne
  | [(name, content)], done, stack, _ => by
    have hcontent := content.foldlM_tokens (.object done name :: stack)
    simp [fieldTokens, Place.step, hcontent]
  | (name, content) :: next :: fields, done, stack, _ => by
    have hcontent := content.foldlM_tokens (.object done name :: stack)
    have hrest := foldlM_fieldTokens (next :: fields) ((name, content) :: done) stack
      (List.cons_ne_nil _ _)
    simpa [fieldTokens, Place.step, hcontent] using hrest

end

theorem ofTokens?_tokens (document : Document) : Document.ofTokens? document.tokens = some document := by
  simp [Document.ofTokens?, document.foldlM_tokens, Place.result?]

/-- However a document is written, reading the text gives the document, also with space behind. -/
theorem Document.read?_append_of_spelled {document : Document} {text after : List Char}
    (h : document.SpelledBy text) (hafter : IsGap after) :
    Document.read? (text ++ after) = some document := by
  have htokens : tokens? (text ++ after) = some document.tokens :=
    scanTokens_of_spelled h document.apart_tokens hafter
  simp [Document.read?, htokens, ofTokens?_tokens]

theorem Document.read?_of_spelled {document : Document} {text : List Char}
    (h : document.SpelledBy text) : Document.read? text = some document := by
  simpa using Document.read?_append_of_spelled h isGap_nil

/-! ## Written without space -/

section Compact

variable {token : Token} {tokens : List Token} {document : Document} {items : List Document}
  {fields : List (String × Document)}

theorem tokensSpelledBy_flatMap (hne : tokens ≠ [])
    (h : ∀ token ∈ tokens, token.SpelledBy token.spelling) :
    TokensSpelledBy tokens (tokens.flatMap Token.spelling) := by
  induction tokens with
  | nil => exact absurd rfl hne
  | cons token tokens ih =>
    obtain ⟨hfirst, hothers⟩ := List.forall_mem_cons.1 h
    cases tokens with
    | nil => simpa using TokensSpelledBy.last hfirst
    | cons next tokens => exact .cons hfirst (ih (List.cons_ne_nil _ _) hothers)

/-- All numbers of the document are well formed, and all its literals denote texts. -/
def Document.Spellable (document : Document) : Prop :=
  ∀ token ∈ document.tokens, token.SpelledBy token.spelling

theorem Document.Spellable.spelledBy_compact (h : document.Spellable) :
    document.SpelledBy document.compact := by
  refine tokensSpelledBy_flatMap ?_ h
  cases document <;> simp [Document.tokens]

theorem spelledBy_text (text : String) :
    (Token.string (some text)).SpelledBy (Token.string (some text)).spelling :=
  .string (charsSpelledBy_escape text.toList)

theorem spellable_null : Document.null.Spellable := by
  simp only [Document.Spellable, Document.tokens, List.forall_mem_singleton]
  exact .null

theorem spellable_text (text : String) : (Document.text text).Spellable := by
  simp only [Document.Spellable, Document.text, Document.tokens, List.forall_mem_singleton]
  exact spelledBy_text text

theorem spellable_itemTokens (h : ∀ item ∈ items, item.Spellable) :
    ∀ token ∈ itemTokens items, token.SpelledBy token.spelling := by
  induction items with
  | nil => simp [itemTokens]
  | cons item items ih =>
    obtain ⟨hitem, hitems⟩ := List.forall_mem_cons.1 h
    cases items with
    | nil =>
      rw [itemTokens]
      exact hitem
    | cons next items =>
      simp only [itemTokens, List.forall_mem_append, List.forall_mem_cons]
      exact ⟨hitem, .comma, ih hitems⟩

theorem spellable_array (h : ∀ item ∈ items, item.Spellable) : (Document.array items).Spellable := by
  simp only [Document.Spellable, Document.tokens, List.forall_mem_append, List.forall_mem_cons]
  exact ⟨⟨.beginArray, spellable_itemTokens h⟩, .endArray, List.forall_mem_nil _⟩

theorem spellable_texts (texts : List String) : (Document.texts texts).Spellable :=
  spellable_array (by simpa using fun text _ => spellable_text text)

theorem spellable_fieldTokens (h : ∀ field ∈ fields, field.2.Spellable) :
    ∀ token ∈ fieldTokens (fields.map fun field => (some field.1, field.2)),
      token.SpelledBy token.spelling := by
  induction fields with
  | nil => simp [fieldTokens]
  | cons field fields ih =>
    obtain ⟨hfield, hfields⟩ := List.forall_mem_cons.1 h
    cases fields with
    | nil =>
      simp only [List.map_cons, List.map_nil, fieldTokens, List.forall_mem_cons]
      exact ⟨spelledBy_text field.1, .colon, hfield⟩
    | cons next fields =>
      simp only [List.map_cons, fieldTokens, List.forall_mem_append, List.forall_mem_cons]
      exact ⟨⟨spelledBy_text field.1, .colon, hfield⟩, .comma, ih hfields⟩

theorem spellable_ofFields (h : ∀ field ∈ fields, field.2.Spellable) :
    (Document.ofFields fields).Spellable := by
  simp only [Document.Spellable, Document.ofFields, Document.tokens, List.forall_mem_append,
    List.forall_mem_cons]
  exact ⟨⟨.beginObject, spellable_fieldTokens h⟩, .endObject, List.forall_mem_nil _⟩

end Compact

end Downset.Json
