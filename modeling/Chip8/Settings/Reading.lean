import Chip8.Document
import Chip8.Keypad
import Chip8.Settings

/-!
Settings in a document. A record may leave out any field, which then has its default, and may hold
fields of other names, which are ignored.
-/

namespace Chip8

namespace Settings

inductive Problem
  | unreadable
  | notRecord
  | repeatedField (name : String)
  | wrongType (name : String)
  deriving DecidableEq

def Problem.message : Problem → String
  | .unreadable => "cannot be read"
  | .notRecord => "expected a record of settings"
  | .repeatedField name => "duplicate field " ++ name
  | .wrongType name => "invalid value of field " ++ name

/-- The value of a field, or the default where it is missing. -/
def field {α : Type} (fields : List (String × Document)) (name : String) (default : α)
    (read? : Document → Option α) : Except Problem α :=
  match fields.filter fun f => f.1 == name with
  | [] => .ok default
  | [(_, d)] =>
    match read? d with
    | some a => .ok a
    | none => .error (.wrongType name)
  | _ => .error (.repeatedField name)

def size? : Document → Option (Nat × Nat)
  | .list [w, h] => do some (← w.word64?, ← h.word64?)
  | _ => none

def placement? (format : Document.Format) (d : Document) : Option Placement :=
  (d.choice? format).bind Placement.ofName?

/-- Reads settings from fields; whether a machine accepts their size is not checked here. -/
def ofFields (format : Document.Format) (fields : List (String × Document)) :
    Except Problem Settings := do
  let frequency ← field fields "clock_frequency" none Document.optionalWord64?
  let (width, height) ← field fields "display_size" (64, 32) size?
  let placement ← field fields "draw_mode" .linear (placement? format)
  let seed ← field fields "rng_seed" none Document.optionalWord64?
  .ok { frequency, width, height, placement, seed := seed.map UInt64.ofNat }

/-- The names of the fields, in the order of their values in a list. -/
def fieldNames : List String :=
  ["clock_frequency", "display_size", "draw_mode", "rng_seed"]

/-- The levels of a document that hold settings: the record and the list of width and height. -/
def depth : Nat := 2

/-- Reads settings from a record, or in JSON from a list of the values of the first fields. -/
def ofDocument (format : Document.Format) : Document → Except Problem Settings
  | .record fields => ofFields format fields
  | .list items =>
    if format = .json ∧ items.length ≤ fieldNames.length then
      ofFields format (fieldNames.zip items)
    else .error .notRecord
  | _ => .error .notRecord

end Settings

def Key.ofDocument? : Document → Option Key
  | .natural n => if h : n < 16 then some ⟨n, h⟩ else none
  | _ => none

end Chip8
