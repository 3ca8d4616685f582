import Chip8.Instruction
import Chip8.Numeral

/-!
Assembly text of instructions: a name, then operands separated by commas. Registers and addresses
are hexadecimal, bytes decimal.
-/

namespace Chip8

inductive Operand
  | register (x : UInt8)
  | byte (n : UInt8)
  | address (a : UInt16)
  | index
  | delayTimer
  | soundTimer
  | key
  | glyph
  | decimal
  | memory
  deriving DecidableEq

def Operand.text : Operand → String
  | .register x => "v" ++ Numeral.hex 1 x.toNat
  | .byte n => Numeral.decimal n.toNat
  | .address a => "0x" ++ Numeral.hex 3 a.toNat
  | .index => "I"
  | .delayTimer => "DT"
  | .soundTimer => "ST"
  | .key => "K"
  | .glyph => "F"
  | .decimal => "B"
  | .memory => "[I]"

def Condition.name : Condition → String
  | .equalsByte .. => "SE"
  | .differsFromByte .. => "SNE"
  | .equals .. => "SE"
  | .differs .. => "SNE"
  | .keyDown _ => "SKP"
  | .keyUp _ => "SKNP"

def Condition.operands : Condition → List Operand
  | .equalsByte x n => [.register x, .byte n]
  | .differsFromByte x n => [.register x, .byte n]
  | .equals x y => [.register x, .register y]
  | .differs x y => [.register x, .register y]
  | .keyDown x => [.register x]
  | .keyUp x => [.register x]

def Arithmetic.name : Arithmetic → String
  | .copy => "LD"
  | .or => "OR"
  | .and => "AND"
  | .xor => "XOR"
  | .add => "ADD"
  | .subtract => "SUB"
  | .subtractFrom => "SUBN"

def Direction.name : Direction → String
  | .right => "SHR"
  | .left => "SHL"

namespace Instruction

def name : Instruction → String
  | .clearScreen => "CLS"
  | .ret => "RET"
  | .jump _ => "JP"
  | .call _ => "CALL"
  | .skipIf c => c.name
  | .loadByte .. => "LD"
  | .addByte .. => "ADD"
  | .combine f _ _ => f.name
  | .shift d _ => d.name
  | .loadIndex _ => "LD"
  | .random .. => "RND"
  | .draw .. => "DRW"
  | .readDelay _ => "LD"
  | .awaitKey _ => "LD"
  | .setDelay _ => "LD"
  | .setSound _ => "LD"
  | .addToIndex _ => "ADD"
  | .pointAtGlyph _ => "LD"
  | .storeDecimal _ => "LD"
  | .storeRegisters _ => "LD"
  | .loadRegisters _ => "LD"

def operands : Instruction → List Operand
  | .clearScreen => []
  | .ret => []
  | .jump a => [.address a]
  | .call a => [.address a]
  | .skipIf c => c.operands
  | .loadByte x n => [.register x, .byte n]
  | .addByte x n => [.register x, .byte n]
  | .combine _ x y => [.register x, .register y]
  | .shift _ x => [.register x]
  | .loadIndex a => [.index, .address a]
  | .random x n => [.register x, .byte n]
  | .draw x y n => [.register x, .register y, .byte n]
  | .readDelay x => [.register x, .delayTimer]
  | .awaitKey x => [.register x, .key]
  | .setDelay x => [.delayTimer, .register x]
  | .setSound x => [.soundTimer, .register x]
  | .addToIndex x => [.index, .register x]
  | .pointAtGlyph x => [.glyph, .register x]
  | .storeDecimal x => [.decimal, .register x]
  | .storeRegisters x => [.memory, .register x]
  | .loadRegisters x => [.register x, .memory]

def mnemonic (i : Instruction) : String :=
  match i.operands with
  | [] => i.name
  | os => i.name ++ " " ++ String.intercalate ", " (os.map Operand.text)

end Instruction

end Chip8
