import Downset.Json.Lexer

/-!
# JSON documents

A document is the tree that a JSON text describes. Fields of an object keep their order,
and a field that is repeated stays repeated: what that means is left to whoever reads the
tree. A tree has a list of tokens, and is built back from it by a machine with a stack of
the arrays and objects that are still open, so that nesting of any depth can be read.
-/

namespace Downset.Json

/-- The tree that a JSON text describes. -/
inductive Document
  | null
  | bool (value : Bool)
  | number (digits : String)
  | string (literal : Literal)
  | array (items : List Document)
  | object (fields : List (Literal × Document))

instance : Inhabited Document := ⟨.null⟩

abbrev Field := Literal × Document

namespace Document

def text (s : String) : Document := string (some s)

def texts (ss : List String) : Document := array (ss.map text)

def ofFields (fields : List (String × Document)) : Document :=
  object (fields.map fun field => (some field.1, field.2))

end Document

/-! ## The tokens of a document -/

mutual

def Document.tokens : Document → List Token
  | .null => [.null]
  | .bool value => [.bool value]
  | .number digits => [.number digits]
  | .string literal => [.string literal]
  | .array items => .beginArray :: itemTokens items ++ [.endArray]
  | .object fields => .beginObject :: fieldTokens fields ++ [.endObject]

def itemTokens : List Document → List Token
  | [] => []
  | [item] => item.tokens
  | item :: items => item.tokens ++ .comma :: itemTokens items

def fieldTokens : List Field → List Token
  | [] => []
  | [(name, content)] => .string name :: .colon :: content.tokens
  | (name, content) :: fields =>
    .string name :: .colon :: content.tokens ++ .comma :: fieldTokens fields

end

def Document.compact (document : Document) : List Char := document.tokens.flatMap Token.spelling

/-! ## Documents from tokens -/

/-- An array or object that is still open, with what it holds so far, latest first; an
object also with the name of the field whose content is to come. -/
inductive Frame
  | array (items : List Document)
  | object (fields : List Field) (name : Literal)

/-- Where in a document the reader stands. The stack holds what is still open, innermost
first. -/
inductive Place
  | value (stack : List Frame)
  /-- An array was just opened: an item or its end is to come. -/
  | firstItem (stack : List Frame)
  /-- An object was just opened: a name or its end is to come. -/
  | firstName (stack : List Frame)
  | name (fields : List Field) (stack : List Frame)
  | colon (fields : List Field) (name : Literal) (stack : List Frame)
  /-- A document is complete: what goes on with the innermost open frame is to come. -/
  | complete (document : Document) (stack : List Frame)

namespace Place

/-- The place behind a token where a document is to come. -/
def beginDocument (stack : List Frame) : Token → Option Place
  | .null => some (complete .null stack)
  | .bool b => some (complete (.bool b) stack)
  | .number digits => some (complete (.number digits) stack)
  | .string literal => some (complete (.string literal) stack)
  | .beginArray => some (firstItem stack)
  | .beginObject => some (firstName stack)
  | _ => none

def step : Place → Token → Option Place
  | value stack, token => beginDocument stack token
  | firstItem stack, .endArray => some (complete (.array []) stack)
  | firstItem stack, token => beginDocument (.array [] :: stack) token
  | firstName stack, .endObject => some (complete (.object []) stack)
  | firstName stack, .string literal => some (colon [] literal stack)
  | name fields stack, .string literal => some (colon fields literal stack)
  | colon fields literal stack, .colon => some (value (.object fields literal :: stack))
  | complete item (.array items :: stack), .comma =>
    some (value (.array (item :: items) :: stack))
  | complete item (.array items :: stack), .endArray =>
    some (complete (.array (item :: items).reverse) stack)
  | complete content (.object fields literal :: stack), .comma =>
    some (name ((literal, content) :: fields) stack)
  | complete content (.object fields literal :: stack), .endObject =>
    some (complete (.object ((literal, content) :: fields).reverse) stack)
  | _, _ => none

def result? : Place → Option Document
  | complete document [] => some document
  | _ => none

end Place

def Document.ofTokens? (tokens : List Token) : Option Document := do
  let place ← tokens.foldlM Place.step (.value [])
  place.result?

def Document.read? (text : List Char) : Option Document := do
  let tokens ← tokens? text
  ofTokens? tokens

/-! ## Documents laid out in lines

Each item of an array and each field of an object stands on a line of its own, indented by
two spaces for each array or object around it. Empty arrays and objects stay on one line.
-/

def newline (depth : Nat) : List Char := '\n' :: List.replicate (2 * depth) ' '

mutual

/-- The text of a document inside as many arrays and objects. -/
def Document.layout (depth : Nat) : Document → List Char
  | .array [] => ['[', ']']
  | .array items => '[' :: itemLines (depth + 1) items ++ newline depth ++ [']']
  | .object [] => ['{', '}']
  | .object fields => '{' :: fieldLines (depth + 1) fields ++ newline depth ++ ['}']
  | .null => Token.null.spelling
  | .bool value => (Token.bool value).spelling
  | .number digits => (Token.number digits).spelling
  | .string literal => (Token.string literal).spelling

def itemLines (depth : Nat) : List Document → List Char
  | [] => []
  | [item] => newline depth ++ item.layout depth
  | item :: items => newline depth ++ item.layout depth ++ ',' :: itemLines depth items

def fieldLines (depth : Nat) : List Field → List Char
  | [] => []
  | [(name, content)] => newline depth ++ spellLiteral name ++ ':' :: ' ' :: content.layout depth
  | (name, content) :: fields =>
    newline depth ++ spellLiteral name ++ ':' :: ' ' :: content.layout depth ++
      ',' :: fieldLines depth fields

end

def Document.pretty (document : Document) : List Char := document.layout 0

/-! ## Reading parts of documents

A reader takes a document to a value, or to nothing if the document has the wrong form.
Readers of texts, lists and nullable values are put together from each other. The fields of
an object are read by name: one that has to be there, or one that may be absent. Neither
may be repeated.
-/

def Document.text? : Document → Option String
  | string literal => literal
  | _ => none

def Document.list? {α : Type} (read : Document → Option α) : Document → Option (List α)
  | array items => items.mapM read
  | _ => none

/-- Nothing for null, and else what is read. -/
def Document.nullable? {α : Type} (read : Document → Option α) : Document → Option (Option α)
  | null => some none
  | document => (read document).map some

def Document.textPair? : Document → Option (String × String)
  | array [first, second] => do return (← first.text?, ← second.text?)
  | _ => none

def contents (name : String) (fields : List Field) : List Document :=
  (fields.filter fun field => field.1 = some name).map Prod.snd

/-- What the only field of a name holds. There must be one. -/
def required? {α : Type} (name : String) (read : Document → Option α) (fields : List Field) :
    Option α :=
  match contents name fields with
  | [content] => read content
  | _ => none

/-- What the only field of a name holds, or something else if there is no such field. -/
def optional? {α : Type} (name : String) (read : Document → Option α) (absent : α)
    (fields : List Field) : Option α :=
  match contents name fields with
  | [] => some absent
  | [content] => read content
  | _ => none

end Downset.Json
