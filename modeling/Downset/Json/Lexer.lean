/-!
# From text to tokens

The pieces of which a JSON text consists, white space apart, how each is written, and how a
text is read token by token. A string literal denotes a text, unless it escapes one half of
a surrogate pair without the other; such a literal is well formed, but there is no text
that it stands for.
-/

namespace Downset.Json

/-- What a string literal denotes: a text, or nothing if it leaves half a surrogate pair. -/
abbrev Literal := Option String

inductive Token
  | beginArray
  | endArray
  | beginObject
  | endObject
  | colon
  | comma
  | null
  | bool (value : Bool)
  | number (digits : String)
  | string (literal : Literal)
  deriving DecidableEq, Repr

def hexByte (n : Nat) : List Char := [Nat.digitChar (n / 16), Nat.digitChar (n % 16)]

/-- How a character is written inside a string literal: as itself, but for the quote, the
backslash and the controls below the space. -/
def escape (c : Char) : List Char :=
  if c = '"' then ['\\', '"']
  else if c = '\\' then ['\\', '\\']
  else if c = '\x08' then ['\\', 'b']
  else if c = '\x0c' then ['\\', 'f']
  else if c = '\n' then ['\\', 'n']
  else if c = '\r' then ['\\', 'r']
  else if c = '\t' then ['\\', 't']
  else if c.toNat < 0x20 then ['\\', 'u', '0', '0'] ++ hexByte c.toNat
  else [c]

/-- How a string literal is written. One that denotes no text is written as a lone half of
a surrogate pair. -/
def spellLiteral : Literal → List Char
  | some text => '"' :: text.toList.flatMap escape ++ ['"']
  | none => "\"\\ud800\"".toList

def Token.spelling : Token → List Char
  | beginArray => ['[']
  | endArray => [']']
  | beginObject => ['{']
  | endObject => ['}']
  | colon => [':']
  | comma => [',']
  | null => "null".toList
  | bool true => "true".toList
  | bool false => "false".toList
  | number digits => digits.toList
  | string literal => spellLiteral literal

/-! ## Number literals

Which runs of characters are numbers: an optional minus sign, an integer without leading
zeros, and optionally a fraction and an exponent.
-/

def isNumberChar (c : Char) : Bool :=
  c.isDigit || c == '-' || c == '+' || c == '.' || c == 'e' || c == 'E'

def isDigits : List Char → Bool
  | [] => false
  | digits => digits.all Char.isDigit

def isExponent : List Char → Bool
  | [] => true
  | mark :: '+' :: digits => (mark == 'e' || mark == 'E') && isDigits digits
  | mark :: '-' :: digits => (mark == 'e' || mark == 'E') && isDigits digits
  | mark :: digits => (mark == 'e' || mark == 'E') && isDigits digits

/-- What may follow the integer of a number: a fraction, or not, and an exponent, or not. -/
def isFraction : List Char → Bool
  | '.' :: rest => isDigits (rest.takeWhile Char.isDigit) && isExponent (rest.dropWhile Char.isDigit)
  | rest => isExponent rest

def isMagnitude : List Char → Bool
  | '0' :: rest => isFraction rest
  | c :: rest => c.isDigit && isFraction (rest.dropWhile Char.isDigit)
  | [] => false

def isNumber : List Char → Bool
  | '-' :: rest => isMagnitude rest
  | literal => isMagnitude literal

/-! ## String literals

What stands between the quotes of a string literal is first read as a list of pieces:
characters, and the 16-bit units that four hexadecimal digits escape. Then units are put
together: two that form a surrogate pair are one character, and any other unit is the
character of its number, which the halves of surrogate pairs are not.
-/

def hexDigit? (c : Char) : Option Nat :=
  if '0' ≤ c ∧ c ≤ '9' then some (c.toNat - '0'.toNat)
  else if 'a' ≤ c ∧ c ≤ 'f' then some (c.toNat - 'a'.toNat + 10)
  else if 'A' ≤ c ∧ c ≤ 'F' then some (c.toNat - 'A'.toNat + 10)
  else none

def hexUnit? (a b c d : Char) : Option Nat := do
  return (((← hexDigit? a) * 16 + (← hexDigit? b)) * 16 + (← hexDigit? c)) * 16 + (← hexDigit? d)

/-- The character that a backslash and one character stand for. -/
def shortEscape? : Char → Option Char
  | '"' => some '"'
  | '\\' => some '\\'
  | '/' => some '/'
  | 'b' => some '\x08'
  | 'f' => some '\x0c'
  | 'n' => some '\n'
  | 'r' => some '\r'
  | 't' => some '\t'
  | _ => none

inductive Piece
  | char (c : Char)
  | unit (n : Nat)
  deriving DecidableEq, Repr

/-- The pieces up to the closing quote, put behind those read before, and what follows the
quote. The pieces read before come latest first. -/
def scanPieces (read : List Piece) : List Char → Option (List Piece × List Char)
  | '"' :: rest => some (read.reverse, rest)
  | '\\' :: 'u' :: a :: b :: c :: d :: rest =>
    match hexUnit? a b c d with
    | some n => scanPieces (.unit n :: read) rest
    | none => none
  | '\\' :: name :: rest =>
    match shortEscape? name with
    | some c => scanPieces (.char c :: read) rest
    | none => none
  | c :: rest => if c.toNat < 0x20 ∨ c = '\\' then none else scanPieces (.char c :: read) rest
  | [] => none

def isHighSurrogate (n : Nat) : Bool := 0xd800 ≤ n && n < 0xdc00

def isLowSurrogate (n : Nat) : Bool := 0xdc00 ≤ n && n < 0xe000

def pairChar (high low : Nat) : Char :=
  Char.ofNat (0x10000 + (high - 0xd800) * 0x400 + (low - 0xdc00))

/-- The characters of a list of pieces, put behind those joined before, if all surrogates
come in pairs. The characters joined before come latest first. -/
def joinPieces (joined : List Char) : List Piece → Option (List Char)
  | [] => some joined.reverse
  | .char c :: rest => joinPieces (c :: joined) rest
  | .unit n :: rest =>
    if isHighSurrogate n then
      match rest with
      | .unit low :: rest =>
        if isLowSurrogate low then joinPieces (pairChar n low :: joined) rest else none
      | _ => none
    else if isLowSurrogate n then none
    else joinPieces (Char.ofNat n :: joined) rest

/-- A string literal behind its opening quote, and what follows its closing quote. -/
def scanLiteral (text : List Char) : Option (Literal × List Char) :=
  (scanPieces [] text).map fun result => ((joinPieces [] result.1).map String.ofList, result.2)

theorem length_lt_of_scanPieces {read pieces : List Piece} {text rest : List Char}
    (h : scanPieces read text = some (pieces, rest)) : rest.length < text.length := by
  fun_induction scanPieces read text with
  | case1 => simp_all
  | case2 _ _ _ _ _ _ _ _ ih =>
    have := ih h
    simp only [List.length_cons]
    omega
  | case3 => simp at h
  | case4 _ _ _ _ _ _ ih =>
    have := ih h
    simp only [List.length_cons]
    omega
  | case5 => simp at h
  | case6 => simp at h
  | case7 _ _ _ _ _ _ _ ih =>
    have := ih h
    simp only [List.length_cons]
    omega
  | case8 => simp at h

theorem length_lt_of_scanLiteral {literal : Literal} {text rest : List Char}
    (h : scanLiteral text = some (literal, rest)) : rest.length < text.length := by
  obtain ⟨⟨pieces, rest'⟩, hp, heq⟩ := Option.map_eq_some_iff.1 h
  cases heq
  exact length_lt_of_scanPieces hp

/-! ## Tokens

Spaces, tabs and line ends between tokens are skipped; numbers and words extend as far as
their characters go.
-/

def isSpace (c : Char) : Bool := c == ' ' || c == '\t' || c == '\n' || c == '\r'

def isWordChar (c : Char) : Bool := 'a' ≤ c && c ≤ 'z'

def wordToken? (word : List Char) : Option Token :=
  if word = "null".toList then some .null
  else if word = "true".toList then some (.bool true)
  else if word = "false".toList then some (.bool false)
  else none

def nextToken? (c : Char) (rest : List Char) : Option (Token × List Char) :=
  match c with
  | '[' => some (.beginArray, rest)
  | ']' => some (.endArray, rest)
  | '{' => some (.beginObject, rest)
  | '}' => some (.endObject, rest)
  | ':' => some (.colon, rest)
  | ',' => some (.comma, rest)
  | '"' => (scanLiteral rest).map fun result => (.string result.1, result.2)
  | c =>
    if isNumberChar c then
      let digits := c :: rest.takeWhile isNumberChar
      if isNumber digits then some (.number (String.ofList digits), rest.dropWhile isNumberChar)
      else none
    else
      (wordToken? (c :: rest.takeWhile isWordChar)).map fun token =>
        (token, rest.dropWhile isWordChar)

theorem length_le_of_nextToken? {c : Char} {rest rest' : List Char} {token : Token}
    (h : nextToken? c rest = some (token, rest')) : rest'.length ≤ rest.length := by
  have hdrop (p : Char → Bool) : (rest.dropWhile p).length ≤ rest.length :=
    (List.dropWhile_sublist p).length_le
  unfold nextToken? at h
  split at h
  case h_7 =>
    obtain ⟨⟨literal, rest''⟩, hl, heq⟩ := Option.map_eq_some_iff.1 h
    cases heq
    exact Nat.le_of_lt (length_lt_of_scanLiteral hl)
  case h_8 =>
    split at h
    · dsimp only at h
      split at h
      · cases h
        exact hdrop _
      · cases h
    · obtain ⟨token, _, heq⟩ := Option.map_eq_some_iff.1 h
      cases heq
      exact hdrop _
  all_goals
    cases h
    exact Nat.le_refl _

def scanTokens (read : List Token) (text : List Char) : Option (List Token) :=
  match text with
  | [] => some read.reverse
  | c :: rest =>
    if isSpace c then scanTokens read rest
    else
      match _ : nextToken? c rest with
      | some (token, rest') => scanTokens (token :: read) rest'
      | none => none
termination_by text.length
decreasing_by
  · exact Nat.lt_succ_self _
  · exact Nat.lt_succ_of_le (length_le_of_nextToken? ‹_›)

def tokens? (text : List Char) : Option (List Token) := scanTokens [] text

end Downset.Json
