import Chip8.Instruction.Decode
import Chip8.Instruction.Mnemonic
import Chip8.Memory

/-!
Listings of programs: a line for each pair of bytes with its address, its word and the assembly
text of the word, and one without text for a last odd byte.
-/

namespace Chip8.Listing

/-- The assembly text of a word; question marks where it is no instruction. -/
def wordText (w : UInt16) : String :=
  match Instruction.decode? w with
  | some i => i.mnemonic
  | none => "???"

def addressText (a : Nat) : String :=
  "0x" ++ Numeral.hex 4 a

def byteText (b : UInt8) : String :=
  Numeral.hex 2 b.toNat

/-- The lines of bytes that start at an address. -/
def lines (a : Nat) : List UInt8 → List String
  | high :: low :: rest =>
    (addressText a ++ " " ++ byteText high ++ byteText low ++ " " ++
      wordText (Word.ofBytes high low)) :: lines (a + 2) rest
  | [b] => [addressText a ++ " " ++ byteText b]
  | [] => []

/-- The listing of a program, with a newline after every line. -/
def text (program : List UInt8) : String :=
  (lines Memory.programStart program).foldl (fun text line => text ++ line ++ "\n") ""

end Chip8.Listing
