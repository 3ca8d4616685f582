import Chip8.Document.Scalar

/-!
Documents as they are written, where an alias stands for a node that may be anywhere in the
document, even around the alias. Such a document can be endless, so it is unfolded to a number of
levels.
-/

namespace Chip8

inductive Node
  | scalar (s : Scalar)
  | list (items : List Node)
  | record (fields : List (Node × Node))
  | alias (number : Nat)
  deriving Inhabited

namespace Node

def missing : Node :=
  .scalar .missing

/-- The node itself, or the one that an alias stands for. -/
def followed (shared : Nat → Option Node) : Node → Option Node
  | .alias number => shared number
  | n => some n

/-- The text of a scalar, which can name a field. -/
def name? (shared : Nat → Option Node) (n : Node) : Option String :=
  match n.followed shared with
  | some (.scalar s) => some s.text
  | _ => none

/-- The document with lists and records down to a number of levels. -/
def unfold (shared : Nat → Option Node) : Nat → Node → Document
  | 0, n =>
    match n.followed shared with
    | some (.scalar s) => s.document
    | _ => .unread
  | depth + 1, n =>
    match n.followed shared with
    | some (.scalar s) => s.document
    | some (.list items) => .list (items.map (unfold shared depth))
    | some (.record fields) =>
      match fields.mapM fun (key, value) =>
        (key.name? shared).map fun name => (name, unfold shared depth value) with
      | some fields => .record fields
      | none => .unread
    | _ => .unread

end Node

end Chip8
