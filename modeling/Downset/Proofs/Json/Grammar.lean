import Downset.Json.Document
import Downset.Proofs.Json.Literals
import Downset.Proofs.Text.Delimited
import Mathlib.Data.List.Chain

/-!
# Texts of documents

A document is written token by token, with spaces, tabs and line ends between the tokens as one
likes. Two tokens that could run into each other never follow one another in a document, so that
the tokens are found again however the document is written.
-/

namespace Downset.Json

/-- The ways to write a token. -/
inductive Token.SpelledBy : Token → List Char → Prop
  | beginArray : SpelledBy .beginArray ['[']
  | endArray : SpelledBy .endArray [']']
  | beginObject : SpelledBy .beginObject ['{']
  | endObject : SpelledBy .endObject ['}']
  | colon : SpelledBy .colon [':']
  | comma : SpelledBy .comma [',']
  | null : SpelledBy .null "null".toList
  | true : SpelledBy (.bool true) "true".toList
  | false : SpelledBy (.bool false) "false".toList
  | number {digits : String} (wellFormed : isNumber digits.toList = true) :
      SpelledBy (.number digits) digits.toList
  | string {text : String} {body : List Char} (chars : CharsSpelledBy text.toList body) :
      SpelledBy (.string (some text)) ('"' :: body ++ ['"'])

/-- What may stand between two tokens. -/
def IsGap (gap : List Char) : Prop := ∀ c ∈ gap, c = ' ' ∨ c = '\t' ∨ c = '\n' ∨ c = '\r'

/-- The ways to write tokens one after another. -/
inductive TokensSpelledBy : List Token → List Char → Prop
  | last {token : Token} {text : List Char} (only : token.SpelledBy text) :
      TokensSpelledBy [token] text
  | more {token : Token} {tokens : List Token} {text gap rest : List Char}
      (first : token.SpelledBy text) (space : IsGap gap) (others : TokensSpelledBy tokens rest) :
      TokensSpelledBy (token :: tokens) (text ++ gap ++ rest)

/-- The ways to write a document, without space around it. -/
def Document.SpelledBy (document : Document) (text : List Char) : Prop :=
  TokensSpelledBy document.tokens text

section Together

variable {token : Token} {tokens tokens' : List Token} {text gap text' : List Char}

theorem isGap_nil : IsGap [] := fun _ hc => by cases hc

theorem TokensSpelledBy.cons (hfirst : token.SpelledBy text) (h : TokensSpelledBy tokens text') :
    TokensSpelledBy (token :: tokens) (text ++ text') := by
  simpa using TokensSpelledBy.more hfirst isGap_nil h

theorem TokensSpelledBy.append (h : TokensSpelledBy tokens text) (hgap : IsGap gap)
    (h' : TokensSpelledBy tokens' text') :
    TokensSpelledBy (tokens ++ tokens') (text ++ gap ++ text') := by
  induction h with
  | last only => exact .more only hgap h'
  | @more token tokens text space rest first hspace _ ih =>
    have hall := TokensSpelledBy.more first hspace ih
    simpa [List.append_assoc] using hall

end Together

/-! ## Finding the tokens again -/

def Token.endsItself : Token → Bool
  | .null | .bool _ | .number _ => false
  | _ => true

/-- Neither a word nor a number goes on here. -/
def Stops (text : List Char) : Prop :=
  ∀ c ∈ text.head?, isWordChar c = false ∧ isNumberChar c = false

section Scanning

variable {token : Token} {tokens read : List Token} {text gap rest after : List Char}

theorem isSpace_eq_false {c : Char} (h : isNumberChar c = true) : isSpace c = false := by
  refine Bool.eq_false_iff.2 fun hspace => ?_
  simp only [isSpace, Bool.or_eq_true, beq_iff_eq] at hspace
  rcases hspace with ((rfl | rfl) | rfl) | rfl <;> cases h

theorem stops_nil : Stops [] := fun _ h => by cases h

theorem stops_of_gap (h : IsGap gap) (hrest : Stops rest) : Stops (gap ++ rest) := by
  cases gap with
  | nil => exact hrest
  | cons first _ =>
    rintro _ ⟨⟩
    rcases h first List.mem_cons_self with rfl | rfl | rfl | rfl <;> decide

theorem stops_of_spelled (h : token.SpelledBy text) (hends : token.endsItself = true) :
    Stops (text ++ rest) := by
  cases h with
  | null | true | false | number => cases hends
  | string => rintro _ ⟨⟩; decide
  | _ => rintro _ ⟨⟩; decide

theorem TokensSpelledBy.stops (h : TokensSpelledBy tokens text)
    (hends : ∀ next ∈ tokens.head?, next.endsItself = true) : Stops (text ++ rest) := by
  cases h with
  | last only => exact stops_of_spelled only (hends _ rfl)
  | more first =>
    rw [List.append_assoc, List.append_assoc]
    exact stops_of_spelled first (hends _ rfl)

theorem nextToken?_of_word {c : Char} {tail : List Char} (hc : c = 'n' ∨ c = 't' ∨ c = 'f')
    (htail : tail.all isWordChar = true) (hrest : Stops rest) :
    nextToken? c (tail ++ rest) = (wordToken? (c :: tail)).map fun token => (token, rest) := by
  obtain ⟨htake, hdrop⟩ := Text.span_append (List.all_eq_true.1 htail) fun d hd => (hrest d hd).1
  rcases hc with rfl | rfl | rfl <;> simp [nextToken?, isNumberChar, htake, hdrop]

theorem nextToken?_of_number {c : Char} {tail : List Char} (h : isNumber (c :: tail) = true)
    (hrest : Stops rest) :
    nextToken? c (tail ++ rest) = some (.number (String.ofList (c :: tail)), rest) := by
  obtain ⟨hc, htail⟩ := List.forall_mem_cons.1 (isNumberChar_of_isNumber h)
  obtain ⟨htake, hdrop⟩ := Text.span_append htail fun d hd => (hrest d hd).2
  unfold nextToken?
  split
  case h_8 => simp [hc, htake, hdrop, h]
  all_goals cases hc

/-- The token is the next one found, whatever is allowed to follow it. -/
theorem nextToken?_of_spelled (h : token.SpelledBy text)
    (hrest : token.endsItself = false → Stops rest) :
    ∃ c tail, text = c :: tail ∧ isSpace c = false ∧
      nextToken? c (tail ++ rest) = some (token, rest) := by
  cases h with
  | null =>
    exact ⟨'n', "ull".toList, rfl, rfl, nextToken?_of_word (.inl rfl) rfl (hrest rfl)⟩
  | true =>
    exact ⟨'t', "rue".toList, rfl, rfl, nextToken?_of_word (.inr (.inl rfl)) rfl (hrest rfl)⟩
  | false =>
    exact ⟨'f', "alse".toList, rfl, rfl,
      nextToken?_of_word (.inr (.inr rfl)) rfl (hrest rfl)⟩
  | @number digits wellFormed =>
    cases htext : digits.toList with
    | nil =>
      rw [htext] at wellFormed
      cases wellFormed
    | cons c tail =>
      rw [htext] at wellFormed
      refine ⟨c, tail, rfl, ?_, ?_⟩
      · exact isSpace_eq_false (isNumberChar_of_isNumber wellFormed c List.mem_cons_self)
      · rw [nextToken?_of_number wellFormed (hrest rfl), ← htext, String.ofList_toList]
  | @string text body chars =>
    refine ⟨'"', body ++ ['"'], rfl, rfl, ?_⟩
    simp [nextToken?, scanLiteral_of_spelled chars]
  | _ => exact ⟨_, [], rfl, rfl, rfl⟩

theorem scanTokens_token (h : token.SpelledBy text)
    (hrest : token.endsItself = false → Stops rest) :
    scanTokens read (text ++ rest) = scanTokens (token :: read) rest := by
  obtain ⟨c, tail, rfl, hspace, hnext⟩ := nextToken?_of_spelled h hrest
  rw [List.cons_append, scanTokens]
  simp only [hspace, Bool.false_eq_true, if_false]
  split
  · next heq =>
    rw [hnext, Option.some.injEq, Prod.mk.injEq] at heq
    obtain ⟨rfl, rfl⟩ := heq
    rfl
  · next heq =>
    rw [hnext] at heq
    cases heq

theorem scanTokens_gap (h : IsGap gap) : scanTokens read (gap ++ rest) = scanTokens read rest := by
  induction gap with
  | nil => rfl
  | cons c gap ih =>
    have hspace : isSpace c = true := by
      rcases h c List.mem_cons_self with rfl | rfl | rfl | rfl <;> rfl
    rw [List.cons_append, scanTokens, if_pos hspace]
    exact ih fun other hother => h other (List.mem_cons_of_mem c hother)

/-- One of two tokens that follow each other shows where the first ends. -/
def Apart (token next : Token) : Prop := token.endsItself = true ∨ next.endsItself = true

theorem scanTokens_of_spelled (h : TokensSpelledBy tokens text) (hapart : tokens.IsChain Apart)
    (hafter : IsGap after) :
    scanTokens read (text ++ after) = some (read.reverse ++ tokens) := by
  induction h generalizing read with
  | @last token text only =>
    have hstops : Stops after := by
      simpa using stops_of_gap hafter stops_nil
    have hend : scanTokens (token :: read) after = scanTokens (token :: read) [] := by
      have hgap : scanTokens (token :: read) (after ++ []) = _ := scanTokens_gap hafter
      rwa [List.append_nil] at hgap
    rw [scanTokens_token only fun _ => hstops, hend, scanTokens, List.reverse_cons]
  | @more token tokens text gap rest first space others ih =>
    obtain ⟨hnext, hrest⟩ := List.isChain_cons.1 hapart
    -- Without a gap, a word or a number would take in what follows it, if that could be part of it.
    have hstops : token.endsItself = false → Stops (gap ++ (rest ++ after)) := by
      intro hends
      refine stops_of_gap space (others.stops fun next hmem => ?_)
      exact (hnext next hmem).resolve_left (Bool.eq_false_iff.1 hends)
    rw [List.append_assoc, List.append_assoc, scanTokens_token first hstops, scanTokens_gap space,
      ih hrest]
    simp

end Scanning

/-! ## The ends of a text -/

section Ends

variable {token : Token} {tokens : List Token} {text : List Char}

theorem isBlank_eq_false {c : Char} (h : isNumberChar c = true) : Text.isBlank c = false := by
  have hall : ∀ n ∈ Text.blankCodePoints, isNumberChar (Char.ofNat n) = false := by decide
  refine Bool.eq_false_iff.2 fun hblank => ?_
  have hnumber : isNumberChar (Char.ofNat c.toNat) = false :=
    hall _ (List.contains_iff_mem.1 hblank)
  rw [Char.ofNat_toNat, h] at hnumber
  cases hnumber

theorem Token.SpelledBy.trimmed (h : token.SpelledBy text) : Text.Trimmed text := by
  cases h with
  | @number digits wellFormed =>
    refine .of_all ?_ (List.all_eq_true.2 fun c hc => ?_)
    · intro hempty
      rw [hempty] at wellFormed
      cases wellFormed
    · rw [isBlank_eq_false (isNumberChar_of_isNumber wellFormed c hc)]
      rfl
  | @string _ body =>
    have hquote : Text.Trimmed ['"'] := .of_all (List.cons_ne_nil _ _) rfl
    exact hquote.append body hquote
  | _ => exact .of_all (List.cons_ne_nil _ _) rfl

theorem TokensSpelledBy.trimmed (h : TokensSpelledBy tokens text) : Text.Trimmed text := by
  induction h with
  | last only => exact only.trimmed
  | more first _ _ ih => exact first.trimmed.append _ ih

end Ends

end Downset.Json
