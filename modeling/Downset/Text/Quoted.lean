import Downset.Text.Characters

/-!
# Quoted text

A text is quoted by writing it between double quotes so that every character shows: a
backslash and a short name for the common controls, the quote and the backslash itself;
the code point in braces, in lower-case hexadecimal without leading zeros, for whatever
else is unprintable; every other character as itself. `Quotable` is the class of the keys
that messages and dumps can show in this way; numbers are shown in decimal.
-/

namespace Downset.Text

def escape (c : Char) : List Char :=
  if c = '\x00' then ['\\', '0']
  else if c = '\t' then ['\\', 't']
  else if c = '\n' then ['\\', 'n']
  else if c = '\r' then ['\\', 'r']
  else if c = '"' then ['\\', '"']
  else if c = '\\' then ['\\', '\\']
  else if isUnprintable c then ['\\', 'u', '{'] ++ Nat.toDigits 16 c.toNat ++ ['}']
  else [c]

/-- A text between double quotes, with everything escaped that needs it. -/
def quoted (text : List Char) : List Char := '"' :: text.flatMap escape ++ ['"']

end Downset.Text

namespace Downset

/-- Values that messages and dumps can show as one unambiguous text. -/
class Quotable (K : Type) where
  quote : K → String

export Quotable (quote)

instance : Quotable String := ⟨fun text => String.ofList (Text.quoted text.toList)⟩

instance : Quotable Int := ⟨fun
  | .ofNat n => n.repr
  | .negSucc n => "-" ++ (n + 1).repr⟩

end Downset
