import Chip8.Document.Directive
import Chip8.Document.Scalar

/-!
The tokens of documents in text form. Indentation is shown by tokens where lists and records start
and end.
-/

namespace Chip8

inductive Token
  | directive (d : Directive)
  | documentStart
  | documentEnd
  /-- A list that starts with a dash. -/
  | indentedList
  /-- A record that starts with a key. -/
  | indentedRecord
  /-- The end of a list or record by indentation. -/
  | dedent
  | dash
  /-- Stands in front of a key. -/
  | key
  /-- The colon between a key and its value. -/
  | value
  | comma
  | listStart
  | listEnd
  | recordStart
  | recordEnd
  | anchor (name : List Char)
  | alias (name : List Char)
  | tag (t : Tag)
  | scalar (style : Scalar.Style) (text : String)

end Chip8
