/-!
Documents: trees of scalars, lists and records. A record keeps its fields in order, repeated names
included.
-/

namespace Chip8

inductive Document
  | null
  | truth (b : Bool)
  | natural (n : Nat)
  /-- A negative or fractional number. -/
  | number
  | text (s : String)
  /-- A scalar with a tag that names its type. -/
  | tagged (tag : String) (content : Document)
  | list (items : List Document)
  | record (fields : List (String × Document))
  /-- A list or record that is not looked into, or a record with a key that is no scalar. -/
  | unread
  deriving Inhabited

namespace Document

/-- How a document is written: as text with indentation, or in JSON. -/
inductive Format
  | text
  | json
  deriving DecidableEq

/-- What the tags of the standard types start with. -/
def standardTag : String := "tag:yaml.org,2002:"

def nullTag : String := standardTag ++ "null"

def integerTag : String := standardTag ++ "int"

/-- The name in a tag that is not one of a standard type. -/
def localName? (tag : String) : Option String :=
  match tag.toList with
  | '!' :: name => some (String.ofList name)
  | _ => none

/-- An unsigned number of at most 64 bits, whatever its tag. -/
def word64? : Document → Option Nat
  | .natural n => if n < UInt64.size then some n else none
  | .tagged _ (.natural n) => if n < UInt64.size then some n else none
  | _ => none

/-- The same, or nothing at all. A tag tells which of the two it is. -/
def optionalWord64? : Document → Option (Option Nat)
  | .null => some none
  | .tagged tag d =>
    if tag = nullTag then
      match d with
      | .null => some none
      | _ => none
    else (Document.tagged tag d).word64?.map some
  | d => d.word64?.map some

/-- The name of a choice: text, or a tag on nothing. In JSON a record of one field without value
stands for the name of the field. -/
def choice? (format : Format) : Document → Option String
  | .text name => some name
  | .tagged tag d =>
    match localName? tag, d with
    | some name, .null => some name
    | none, .text name => some name
    | _, _ => none
  | .record [(name, .null)] => if format = .json then some name else none
  | _ => none

end Document

end Chip8
