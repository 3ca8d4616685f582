import Chip8.Document.Layout
import Chip8.Document.Node

/-!
Documents from tokens. Lists and records that are open stand on a stack; a value that is complete
goes to the innermost of them.
-/

namespace Chip8

namespace Draft

inductive ListShape
  | indented
  /-- In a record by indentation, with the dashes in the column of the keys. -/
  | aligned
  | bracketed
  deriving DecidableEq

inductive RecordShape
  | indented
  | bracketed
  /-- A single field in the brackets of a list. -/
  | pair
  deriving DecidableEq

/-- What an open record waits for. -/
inductive Awaited
  | key
  /-- A key that no token announces and that has no value. -/
  | loneKey
  | value (key : Node)

/-- A list or record that is open; what it holds stands in reverse. -/
inductive Frame
  | list (shape : ListShape) (items : List Node)
  | record (shape : RecordShape) (fields : List (Node × Node)) (awaited : Awaited)

def Frame.node : Frame → Node
  | .list _ items => .list items.reverse
  | .record _ fields _ => .record fields.reverse

/-- The nodes with anchors. An anchor is numbered by the names in use where it stands, and an alias
has the number that its name had last; it stands for the node that has this number at the end. -/
structure Anchors where
  numbers : List (List Char × Nat) := []
  count : Nat := 0
  /-- For each number the nodes before the last one that was given it. -/
  holders : List (Nat × Nat) := []
  /-- The nodes that are complete, by the nodes before them. -/
  nodes : List (Nat × Node) := []

namespace Anchors

def add (name : List Char) (a : Anchors) : Anchors :=
  let number := a.numbers.length
  { a with
    numbers := (name, number) :: a.numbers.filter (·.1 != name)
    count := a.count + 1
    holders := (number, a.count) :: a.holders.filter (·.1 != number) }

/-- Notes a complete node, unless its number is gone to another. -/
def complete (index : Nat) (n : Node) (a : Anchors) : Anchors :=
  if a.holders.any (·.2 == index) then { a with nodes := (index, n) :: a.nodes } else a

def node? (a : Anchors) (number : Nat) : Option Node :=
  (a.holders.lookup number).bind fun index => a.nodes.lookup index

end Anchors

end Draft

structure Draft where
  tokens : List Token
  /-- What is open, the innermost first; with an anchor also the nodes with anchors before it. -/
  frames : List (Draft.Frame × Option Nat) := []
  handles : List (List Char × List UInt8) := Tag.standardHandles
  anchors : Draft.Anchors := {}
  root : Option Node := none

namespace Draft

/-- Hands a node to the innermost list or record; without one it is the root. -/
def deliver (n : Node) (s : Draft) : Draft :=
  match s.frames with
  | [] => { s with root := some n }
  | (.list shape items, a) :: outer =>
    { s with frames := (.list shape (n :: items), a) :: outer }
  | (.record shape fields .key, a) :: outer =>
    { s with frames := (.record shape fields (.value n), a) :: outer }
  | (.record shape fields .loneKey, a) :: outer =>
    { s with frames := (.record shape ((n, .missing) :: fields) .key, a) :: outer }
  | (.record shape fields (.value key), a) :: outer =>
    { s with frames := (.record shape ((key, n) :: fields) .key, a) :: outer }

/-- Hands over a complete node, with the nodes with anchors before it if it has one. -/
def finished (index : Option Nat) (n : Node) (s : Draft) : Draft :=
  match index with
  | none => s.deliver n
  | some index => { s with anchors := s.anchors.complete index n }.deliver n

def close (s : Draft) : Draft :=
  match s.frames with
  | [] => s
  | (f, index) :: outer => { s with frames := outer }.finished index f.node

/-- Notes the anchor of a node that starts, if it has one. -/
def anchored (name : Option (List Char)) (s : Draft) : Option Nat × Draft :=
  match name with
  | none => (none, s)
  | some name => (some s.anchors.count, { s with anchors := s.anchors.add name })

def opened (f : Frame) (name : Option (List Char)) (s : Draft) : Draft :=
  let (index, s) := s.anchored name
  { s with frames := (f, index) :: s.frames }

def scalar (sc : Scalar) (name : Option (List Char)) (s : Draft) : Draft :=
  let (index, s) := s.anchored name
  s.finished index (.scalar sc)

/-- Splits off an anchor and a tag, in either order and both optional. -/
def properties : List Token → Option (List Char) × Option Tag × List Token
  | .anchor name :: .tag t :: rest => (some name, some t, rest)
  | .anchor name :: rest => (some name, none, rest)
  | .tag t :: .anchor name :: rest => (some name, some t, rest)
  | .tag t :: rest => (none, some t, rest)
  | rest => (none, none, rest)

/-- Reads the start of a value, which may be indented or not, and be a list with its dashes in the
column of the keys or not. -/
def value? (indented aligned : Bool) (s : Draft) : Option Draft :=
  match s.tokens with
  | .alias name :: rest =>
    (s.anchors.numbers.lookup name).map fun number =>
      { s with tokens := rest }.deliver (.alias number)
  | tokens => do
    let (name, tag, rest) := properties tokens
    let tag ← match tag with
      | none => some none
      | some t => (t.fullName? s.handles).map some
    match rest with
    | .scalar style text :: rest =>
      some ({ s with tokens := rest }.scalar { style, text, tag } name)
    | .listStart :: rest => some ({ s with tokens := rest }.opened (.list .bracketed []) name)
    | .recordStart :: rest =>
      some ({ s with tokens := rest }.opened (.record .bracketed [] .key) name)
    | tokens =>
      match indented, aligned, tokens with
      | true, _, .indentedList :: rest =>
        some ({ s with tokens := rest }.opened (.list .indented []) name)
      | true, _, .indentedRecord :: rest =>
        some ({ s with tokens := rest }.opened (.record .indented [] .key) name)
      | _, true, .dash :: _ => some ({ s with tokens }.opened (.list .aligned []) name)
      | _, _, _ =>
        if name.isSome ∨ tag.isSome then
          some ({ s with tokens }.scalar { Scalar.missing with tag } name)
        else none

/-- Reads a value, or takes it as missing if the next token shows that. -/
def valueUnless? (isEnd : Token → Bool) (indented aligned : Bool) (s : Draft) : Option Draft :=
  if s.tokens.head?.any isEnd then some (s.deliver .missing) else s.value? indented aligned

def endsItem : Token → Bool
  | .dash | .dedent => true
  | _ => false

def endsAlignedItem : Token → Bool
  | .dash | .dedent | .key | .value => true
  | _ => false

def endsField : Token → Bool
  | .key | .value | .dedent => true
  | _ => false

def endsBracketedItem : Token → Bool
  | .comma | .listEnd => true
  | _ => false

def endsBracketedKey : Token → Bool
  | .value | .comma | .recordEnd => true
  | _ => false

def endsBracketedValue : Token → Bool
  | .comma | .recordEnd => true
  | _ => false

/-- Reads an item of a list in brackets, which may be a single field. -/
def bracketedItem? (s : Draft) : Option Draft :=
  match s.tokens with
  | .listEnd :: rest => some { s with tokens := rest }.close
  | .key :: rest => some ({ s with tokens := rest }.opened (.record .pair [] .key) none)
  | _ => s.value? false false

/-- Reads a key of a record in brackets. -/
def bracketedKey? (fields : List (Node × Node)) (a : Option Nat)
    (outer : List (Frame × Option Nat)) (s : Draft) : Option Draft :=
  match s.tokens with
  | .recordEnd :: rest => some { s with tokens := rest }.close
  | .key :: rest => { s with tokens := rest }.valueUnless? endsBracketedKey false false
  | _ =>
    { s with frames := (.record .bracketed fields .loneKey, a) :: outer }.value? false false

/-- Takes a step in the innermost list or record. After the mark of a single field in brackets, a
colon, a comma or the closing bracket counts as a key that is left out. -/
def step? (s : Draft) : Option Draft :=
  match s.frames with
  | [] => none
  | (.list .indented _, _) :: _ =>
    match s.tokens with
    | .dash :: rest => { s with tokens := rest }.valueUnless? endsItem true false
    | .dedent :: rest => some { s with tokens := rest }.close
    | _ => none
  | (.list .aligned _, _) :: _ =>
    match s.tokens with
    | .dash :: rest => { s with tokens := rest }.valueUnless? endsAlignedItem true false
    | _ => some s.close
  | (.list .bracketed items, _) :: _ =>
    match items, s.tokens with
    | [], _ => s.bracketedItem?
    | _, .comma :: rest => { s with tokens := rest }.bracketedItem?
    | _, .listEnd :: rest => some { s with tokens := rest }.close
    | _, _ => none
  | (.record .indented _ .key, _) :: _ =>
    match s.tokens with
    | .key :: rest => { s with tokens := rest }.valueUnless? endsField true true
    | .dedent :: rest => some { s with tokens := rest }.close
    | _ => none
  | (.record .indented _ _, _) :: _ =>
    match s.tokens with
    | .value :: rest => { s with tokens := rest }.valueUnless? endsField true true
    | _ => some (s.deliver .missing)
  | (.record .pair [] .key, _) :: _ =>
    match s.tokens with
    | .value :: rest | .comma :: rest | .listEnd :: rest =>
      some ({ s with tokens := rest }.deliver .missing)
    | _ => s.value? false false
  | (.record .pair _ .key, _) :: _ => some s.close
  | (.record .pair _ _, _) :: _ =>
    match s.tokens with
    | .value :: rest => { s with tokens := rest }.valueUnless? endsBracketedItem false false
    | _ => some (s.deliver .missing)
  | (.record .bracketed fields .key, a) :: outer =>
    match fields, s.tokens with
    | [], _ => s.bracketedKey? fields a outer
    | _, .comma :: rest => { s with tokens := rest }.bracketedKey? fields a outer
    | _, .recordEnd :: rest => some { s with tokens := rest }.close
    | _, _ => none
  | (.record .bracketed _ _, _) :: _ =>
    match s.tokens with
    | .value :: rest => { s with tokens := rest }.valueUnless? endsBracketedValue false false
    | _ => some (s.deliver .missing)

def run? : Nat → Draft → Option Draft
  | 0, _ => none
  | fuel + 1, s =>
    if s.frames.isEmpty then some s
    else match s.step? with
      | none => none
      | some s => run? fuel s

/-- Reads directives up to the start of the document, after those already read: at most one version,
which is 1.1 or 1.2, and different handles. -/
def handles? : Bool → List (List Char × List UInt8) → List Token →
    Option (List (List Char × List UInt8) × List Token)
  | false, handles, .directive (.version 1 minor) :: rest =>
    if minor = 1 ∨ minor = 2 then handles? true handles rest else none
  | version, handles, .directive (.handle name expansion) :: rest =>
    if (handles.lookup name).isSome then none
    else handles? version ((name, expansion) :: handles) rest
  | _, handles, .documentStart :: rest => some (handles, rest)
  | _, _, _ => none

def isBoundary : Token → Bool
  | .directive _ | .documentStart | .documentEnd => true
  | _ => false

def start? (tokens : List Token) : Option Draft :=
  match tokens with
  | .directive _ :: _ | .documentStart :: _ => do
    let (handles, rest) ← handles? false [] tokens
    let s : Draft := { tokens := rest, handles := handles ++ Tag.standardHandles }
    if rest.head?.all isBoundary then some (s.deliver .missing) else s.value? true false
  | _ => ({ tokens } : Draft).value? true false

def isDocumentEnd : Token → Bool
  | .documentEnd => true
  | _ => false

end Draft

namespace Document

/-- Reads a single document, and looks into its lists and records down to a number of levels. One
without content is an empty record. -/
def ofTokens? (depth : Nat) (tokens : List Token) : Option Document :=
  if tokens.isEmpty then some (.record [])
  else do
    let s ← Draft.start? tokens
    let s ← s.run? (3 * tokens.length + 3)
    if !s.tokens.all Draft.isDocumentEnd then none
    else
      match ← s.root with
      | .scalar sc => some (if sc.isMissing then .record [] else sc.document)
      | root => some (root.unfold s.anchors.node? depth)

def ofText? (depth : Nat) (text : String) : Option Document :=
  (Token.ofText? text.toList).bind (ofTokens? depth)

end Document

end Chip8
