import Downset.Json.Lexer
import Mathlib.Data.List.TakeWhile
import Mathlib.Tactic.Tauto
import Mathlib.Tactic.SplitIfs

/-!
# How literals are written

A number literal consists of the characters by which a reader finds where it ends. Inside a string
literal a character stands for itself, unless it is the quote, the backslash or a control; some have
an escape of two characters; and each can be escaped by its code point in four hexadecimal digits, or
by a surrogate pair if it takes more. However a text is written, reading the literal gives the text
back.
-/

namespace Downset.Json

section Numbers

variable {text : List Char}

theorem isNumberChar_of_isDigit {c : Char} (h : c.isDigit = true) : isNumberChar c = true := by
  simp [isNumberChar, h]

theorem isNumberChar_of_isDigits (h : isDigits text = true) : ∀ c ∈ text, isNumberChar c = true := by
  cases text with
  | nil => cases h
  | cons first rest =>
    intro c hc
    exact isNumberChar_of_isDigit (List.all_eq_true.1 h c hc)

theorem isNumberChar_of_dropWhile
    (h : ∀ c ∈ text.dropWhile Char.isDigit, isNumberChar c = true) :
    ∀ c ∈ text, isNumberChar c = true := by
  intro c hc
  rw [← List.takeWhile_append_dropWhile (p := Char.isDigit) (l := text), List.mem_append] at hc
  rcases hc with hc | hc
  · exact isNumberChar_of_isDigit (List.mem_takeWhile_imp hc)
  · exact h c hc

theorem isNumberChar_of_isExponent (h : isExponent text = true) :
    ∀ c ∈ text, isNumberChar c = true := by
  have hmark : ∀ {c : Char}, (c == 'e' || c == 'E') = true → isNumberChar c = true := by
    intro c hc
    simp only [isNumberChar, Bool.or_eq_true] at hc ⊢
    tauto
  unfold isExponent at h
  split at h
  · simp
  all_goals
    rw [Bool.and_eq_true] at h
    simp only [List.forall_mem_cons]
  · exact ⟨hmark h.1, rfl, isNumberChar_of_isDigits h.2⟩
  · exact ⟨hmark h.1, rfl, isNumberChar_of_isDigits h.2⟩
  · exact ⟨hmark h.1, isNumberChar_of_isDigits h.2⟩

theorem isNumberChar_of_isFraction (h : isFraction text = true) :
    ∀ c ∈ text, isNumberChar c = true := by
  unfold isFraction at h
  split at h
  · rw [Bool.and_eq_true] at h
    rw [List.forall_mem_cons]
    exact ⟨rfl, isNumberChar_of_dropWhile (isNumberChar_of_isExponent h.2)⟩
  · exact isNumberChar_of_isExponent h

theorem isNumberChar_of_isMagnitude (h : isMagnitude text = true) :
    ∀ c ∈ text, isNumberChar c = true := by
  unfold isMagnitude at h
  split at h
  · rw [List.forall_mem_cons]
    exact ⟨rfl, isNumberChar_of_isFraction h⟩
  · rw [Bool.and_eq_true] at h
    rw [List.forall_mem_cons]
    exact ⟨isNumberChar_of_isDigit h.1,
      isNumberChar_of_dropWhile (isNumberChar_of_isFraction h.2)⟩
  · cases h

theorem isNumberChar_of_isNumber (h : isNumber text = true) : ∀ c ∈ text, isNumberChar c = true := by
  unfold isNumber at h
  split at h
  · rw [List.forall_mem_cons]
    exact ⟨rfl, isNumberChar_of_isMagnitude h⟩
  · exact isNumberChar_of_isMagnitude h

end Numbers

def DigitSpelledBy (n : Nat) (c : Char) : Prop :=
  "0123456789abcdef".toList[n]? = some c ∨ "0123456789ABCDEF".toList[n]? = some c

/-- A 16-bit unit as four hexadecimal digits. -/
inductive UnitSpelledBy : Nat → List Char → Prop
  | digits {a b c d : Nat} {a' b' c' d' : Char} (first : DigitSpelledBy a a')
      (second : DigitSpelledBy b b') (third : DigitSpelledBy c c') (fourth : DigitSpelledBy d d') :
      UnitSpelledBy (((a * 16 + b) * 16 + c) * 16 + d) [a', b', c', d']

/-- The escapes of two characters: what stands behind the backslash, and what it stands for. -/
def shortEscapes : List (Char × Char) :=
  [('"', '"'), ('\\', '\\'), ('/', '/'), ('b', '\x08'), ('f', '\x0c'), ('n', '\n'), ('r', '\r'),
    ('t', '\t')]

/-- The ways to write one character inside a string literal. -/
inductive CharSpelledBy : Char → List Char → Prop
  | plain {c : Char} (control : 0x20 ≤ c.toNat) (quote : c ≠ '"') (backslash : c ≠ '\\') :
      CharSpelledBy c [c]
  | short {name c : Char} (escape : (name, c) ∈ shortEscapes) : CharSpelledBy c ['\\', name]
  | unit {c : Char} {digits : List Char} (unit : UnitSpelledBy c.toNat digits) :
      CharSpelledBy c ('\\' :: 'u' :: digits)
  | pair {c : Char} {high low : Nat} {digits digits' : List Char} (large : 0x10000 ≤ c.toNat)
      (high_eq : high = 0xd800 + (c.toNat - 0x10000) / 0x400)
      (low_eq : low = 0xdc00 + (c.toNat - 0x10000) % 0x400)
      (first : UnitSpelledBy high digits) (second : UnitSpelledBy low digits') :
      CharSpelledBy c ('\\' :: 'u' :: digits ++ '\\' :: 'u' :: digits')

/-- The ways to write a text inside a string literal. -/
inductive CharsSpelledBy : List Char → List Char → Prop
  | nil : CharsSpelledBy [] []
  | cons {c : Char} {cs text rest : List Char} (first : CharSpelledBy c text)
      (others : CharsSpelledBy cs rest) : CharsSpelledBy (c :: cs) (text ++ rest)

section Digits

variable {n : Nat} {c : Char} {digits rest : List Char} {read : List Piece}

theorem hexDigit?_of_spelled (h : DigitSpelledBy n c) : hexDigit? c = some n := by
  have hall : ∀ n : Fin 16, hexDigit? "0123456789abcdef".toList[n] = some n.val ∧
      hexDigit? "0123456789ABCDEF".toList[n] = some n.val := by decide
  rcases h with h | h
  · obtain ⟨hn, rfl⟩ := List.getElem?_eq_some_iff.1 h
    exact (hall ⟨n, hn⟩).1
  · obtain ⟨hn, rfl⟩ := List.getElem?_eq_some_iff.1 h
    exact (hall ⟨n, hn⟩).2

theorem scanPieces_unit (h : UnitSpelledBy n digits) :
    scanPieces read ('\\' :: 'u' :: (digits ++ rest)) = scanPieces (.unit n :: read) rest := by
  cases h with
  | @digits a b c d a' b' c' d' first second third fourth =>
    have hunit : hexUnit? a' b' c' d' = some (((a * 16 + b) * 16 + c) * 16 + d) := by
      simp [hexUnit?, hexDigit?_of_spelled first, hexDigit?_of_spelled second,
        hexDigit?_of_spelled third, hexDigit?_of_spelled fourth]
    simp [scanPieces, hunit]

theorem not_surrogate (c : Char) :
    isHighSurrogate c.toNat = false ∧ isLowSurrogate c.toNat = false := by
  have hvalid : c.toNat < 0xd800 ∨ 0xdfff < c.toNat ∧ c.toNat < 0x110000 := c.valid
  simp only [isHighSurrogate, isLowSurrogate, Bool.and_eq_false_iff, decide_eq_false_iff_not]
  omega

theorem joinPieces_pair {high low : Nat} {joined : List Char} {pieces : List Piece}
    (hlarge : 0x10000 ≤ c.toNat) (hhigh : high = 0xd800 + (c.toNat - 0x10000) / 0x400)
    (hlow : low = 0xdc00 + (c.toNat - 0x10000) % 0x400) :
    joinPieces joined (.unit high :: .unit low :: pieces) = joinPieces (c :: joined) pieces := by
  have hvalid : c.toNat < 0xd800 ∨ 0xdfff < c.toNat ∧ c.toNat < 0x110000 := c.valid
  have hhigh' : isHighSurrogate high = true := by
    simp only [isHighSurrogate, Bool.and_eq_true, decide_eq_true_eq]
    omega
  have hlow' : isLowSurrogate low = true := by
    simp only [isLowSurrogate, Bool.and_eq_true, decide_eq_true_eq]
    omega
  have hchar : pairChar high low = c := by
    rw [pairChar, show 0x10000 + (high - 0xd800) * 0x400 + (low - 0xdc00) = c.toNat by omega,
      Char.ofNat_toNat]
  simp [joinPieces, hhigh', hlow', hchar]

end Digits

/-- Read as pieces and joined again, the text gives the characters, whatever was read before and
whatever follows. -/
def GivesBack (text cs : List Char) : Prop :=
  ∃ pieces : List Piece,
    (∀ read rest, scanPieces read (text ++ rest) = scanPieces (pieces.reverse ++ read) rest) ∧
    ∀ joined rest, joinPieces joined (pieces ++ rest) = joinPieces (cs.reverse ++ joined) rest

namespace GivesBack

variable {c : Char} {cs cs' text text' : List Char}

theorem nil : GivesBack [] [] := ⟨[], fun _ _ => rfl, fun _ _ => rfl⟩

theorem append (h : GivesBack text cs) (h' : GivesBack text' cs') :
    GivesBack (text ++ text') (cs ++ cs') := by
  obtain ⟨pieces, hscan, hjoin⟩ := h
  obtain ⟨pieces', hscan', hjoin'⟩ := h'
  refine ⟨pieces ++ pieces', fun read rest => ?_, fun joined rest => ?_⟩
  · simp [hscan, hscan']
  · simp [hjoin, hjoin']

theorem of_char (h : CharSpelledBy c text) : GivesBack text [c] := by
  cases h with
  | plain control quote backslash =>
    refine ⟨[.char c], fun read rest => ?_, fun joined rest => rfl⟩
    have hcontrol : ¬ c.toNat < 0x20 := by omega
    simp [scanPieces, backslash, hcontrol]
  | @short name _ escape =>
    refine ⟨[.char c], fun read rest => ?_, fun joined rest => rfl⟩
    simp only [shortEscapes, List.mem_cons, Prod.mk.injEq, List.not_mem_nil, or_false] at escape
    rcases escape with ⟨rfl, rfl⟩ | ⟨rfl, rfl⟩ | ⟨rfl, rfl⟩ | ⟨rfl, rfl⟩ | ⟨rfl, rfl⟩ | ⟨rfl, rfl⟩ |
      ⟨rfl, rfl⟩ | ⟨rfl, rfl⟩ <;> rfl
  | unit unit =>
    refine ⟨[.unit c.toNat], fun read rest => scanPieces_unit unit, fun joined rest => ?_⟩
    obtain ⟨hhigh, hlow⟩ := not_surrogate c
    simp [joinPieces.eq_def _ (.unit _ :: _), hhigh, hlow]
  | @pair _ high low _ _ large high_eq low_eq first second =>
    refine ⟨[.unit high, .unit low], fun read rest => ?_, fun joined rest => ?_⟩
    · simp [scanPieces_unit first, scanPieces_unit second]
    · exact joinPieces_pair large high_eq low_eq

theorem of_chars (h : CharsSpelledBy cs text) : GivesBack text cs := by
  induction h with
  | nil => exact nil
  | cons first _ ih => exact (of_char first).append ih

end GivesBack

/-- However a text is written in a string literal, reading the literal gives the text. -/
theorem scanLiteral_of_spelled {cs text rest : List Char} (h : CharsSpelledBy cs text) :
    scanLiteral (text ++ '"' :: rest) = some (some (String.ofList cs), rest) := by
  obtain ⟨pieces, hscan, hjoin⟩ := GivesBack.of_chars h
  have hpieces : joinPieces [] pieces = some cs := by
    have hall := hjoin [] []
    simpa [joinPieces] using hall
  simp [scanLiteral, hscan, scanPieces, hpieces]

/-! ## Written by escapes -/

theorem digitSpelledBy_digitChar {n : Nat} (h : n < 16) : DigitSpelledBy n (Nat.digitChar n) := by
  have hall : ∀ n : Fin 16, "0123456789abcdef".toList[n.val]? = some (Nat.digitChar n) := by decide
  exact .inl (hall ⟨n, h⟩)

theorem charSpelledBy_escape (c : Char) : CharSpelledBy c (escape c) := by
  unfold escape
  split_ifs with hquote hbackslash hback hfeed hline hreturn htab hcontrol
  · subst hquote
    exact .short (by decide)
  · subst hbackslash
    exact .short (by decide)
  · subst hback
    exact .short (by decide)
  · subst hfeed
    exact .short (by decide)
  · subst hline
    exact .short (by decide)
  · subst hreturn
    exact .short (by decide)
  · subst htab
    exact .short (by decide)
  · have hunit : UnitSpelledBy (((0 * 16 + 0) * 16 + c.toNat / 16) * 16 + c.toNat % 16)
        (['0', '0'] ++ hexByte c.toNat) :=
      .digits (.inl rfl) (.inl rfl) (digitSpelledBy_digitChar (by omega))
        (digitSpelledBy_digitChar (by omega))
    rw [show ((0 * 16 + 0) * 16 + c.toNat / 16) * 16 + c.toNat % 16 = c.toNat by omega] at hunit
    exact .unit hunit
  · exact .plain (by omega) hquote hbackslash

theorem charsSpelledBy_escape (cs : List Char) : CharsSpelledBy cs (cs.flatMap escape) := by
  induction cs with
  | nil => exact .nil
  | cons c cs ih => exact .cons (charSpelledBy_escape c) ih

end Downset.Json
