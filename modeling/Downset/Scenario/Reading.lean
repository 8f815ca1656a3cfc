import Downset.Json.Document
import Downset.Scenario.Basic
import Downset.Text.Characters

/-!
# Scenarios as JSON

The JSON form of a scenario is an object whose fields may come in any order and be left
out, or a list of their contents in a fixed order, cut off after any of them. A step is the
name of a step without content, or an object with the name of a step as its one field. The
content of `put` and `get` is again an object or a list. A scenario may have no other
fields and none twice. The content of `put` and `get` may have other fields, which are
passed over, but not its own fields twice. `toDocument` writes a scenario in its plainest
form, with all fields and the content of every step as an object.
-/

namespace Downset

open Json

/-! ## Steps -/

namespace Step

def unit? (name : String) : Option Step :=
  if name = "make_readable" then some makeReadable
  else if name = "make_writable" then some makeWritable
  else if name = "make_writable_and_clear" then some makeWritableAndClear
  else if name = "dot" then some dot
  else none

def readKey? : Document → Option (Option String) := Document.nullable? Document.text?

def putOfFields? (fields : List Field) : Option Step := do
  guard (fields.all fun field => field.1.isSome)
  return put (← optional? "key" readKey? none fields) (← required? "value" Document.text? fields)

def getOfFields? (fields : List Field) : Option Step := do
  guard (fields.all fun field => field.1.isSome)
  return get (← optional? "key" readKey? none fields)

def putOfDocument? : Document → Option Step
  | .object fields => putOfFields? fields
  | .array [key, value] => do return put (← readKey? key) (← value.text?)
  | _ => none

def getOfDocument? : Document → Option Step
  | .object fields => getOfFields? fields
  | .array [key] => do return get (← readKey? key)
  | _ => none

def ofDocument? : Document → Option Step
  | .string (some name) => unit? name
  | .object [(some name, content)] =>
    if name = "put" then putOfDocument? content
    else if name = "get" then getOfDocument? content
    else
      match content with
      | .null => unit? name
      | _ => none
  | _ => none

def keyDocument : Option String → Document
  | some key => .text key
  | none => .null

def toDocument : Step → Document
  | put key value =>
    .ofFields [("put", .ofFields [("key", keyDocument key), ("value", .text value)])]
  | get key => .ofFields [("get", .ofFields [("key", keyDocument key)])]
  | makeReadable => .text "make_readable"
  | makeWritable => .text "make_writable"
  | makeWritableAndClear => .text "make_writable_and_clear"
  | dot => .text "dot"

end Step

/-! ## Scenarios -/

namespace Scenario

/-- The names of the fields, in the order in which a list gives their contents. -/
def fieldNames : List String := ["rows", "edges", "query", "query_suffix", "steps"]

def ofFields? (fields : List Field) : Option Scenario := do
  guard (fields.all fun field => field.1.any fieldNames.contains)
  return {
    rows := ← optional? "rows" (Document.list? (Document.list? Document.text?)) [] fields
    edges := ← optional? "edges" (Document.list? Document.textPair?) [] fields
    query := ← optional? "query" (Document.nullable? (Document.list? Document.text?)) none fields
    querySuffix := ← optional? "query_suffix" (Document.nullable? Document.text?) none fields
    steps := ← optional? "steps" (Document.list? Step.ofDocument?) [] fields }

def ofDocument? : Document → Option Scenario
  | .object fields => ofFields? fields
  | .array items =>
    if items.length ≤ fieldNames.length then ofFields? ((fieldNames.map some).zip items) else none
  | _ => none

/-- The scenario that a text describes; white space around it is passed over. -/
def read? (text : List Char) : Option Scenario := do
  let document ← Document.read? (Text.trim text)
  ofDocument? document

def toDocument (scenario : Scenario) : Document :=
  .ofFields [
    ("rows", .array (scenario.rows.map Document.texts)),
    ("edges", .array (scenario.edges.map fun edge => .texts [edge.1, edge.2])),
    ("query", scenario.query.elim .null Document.texts),
    ("query_suffix", scenario.querySuffix.elim .null Document.text),
    ("steps", .array (scenario.steps.map Step.toDocument))]

end Scenario

end Downset
