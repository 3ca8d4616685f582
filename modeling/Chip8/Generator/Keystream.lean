/-!
The ChaCha keystream with twelve rounds: sixteen words for every value of a 64-bit block counter,
under a key of eight words.
-/

namespace Chip8.Keystream

abbrev Key := Vector UInt32 8

abbrev Block := Vector UInt32 16

def rotateLeft (w : UInt32) (n : Nat) : UInt32 :=
  w <<< UInt32.ofNat n ||| w >>> UInt32.ofNat (32 - n)

/-- Mixes the words at four places. -/
def quarterRound (s : Block) (i j k l : Fin 16) : Block :=
  let (a, b, c, d) := (s[i], s[j], s[k], s[l])
  let a := a + b
  let d := rotateLeft (d ^^^ a) 16
  let c := c + d
  let b := rotateLeft (b ^^^ c) 12
  let a := a + b
  let d := rotateLeft (d ^^^ a) 8
  let c := c + d
  let b := rotateLeft (b ^^^ c) 7
  (((s.set i a).set j b).set k c).set l d

/-- Four rounds on columns, then four on diagonals. -/
def doubleRound (s : Block) : Block :=
  let s := quarterRound s 0 4 8 12
  let s := quarterRound s 1 5 9 13
  let s := quarterRound s 2 6 10 14
  let s := quarterRound s 3 7 11 15
  let s := quarterRound s 0 5 10 15
  let s := quarterRound s 1 6 11 12
  let s := quarterRound s 2 7 8 13
  quarterRound s 3 4 9 14

/-- Twelve rounds. -/
def scramble (s : Block) : Block :=
  Nat.repeat doubleRound 6 s

/-- Constants, key, block counter with its low word first, and two zero words. -/
def initial (key : Key) (counter : UInt64) : Block :=
  #v[0x61707865, 0x3320646e, 0x79622d32, 0x6b206574,
    key[0], key[1], key[2], key[3], key[4], key[5], key[6], key[7],
    counter.toUInt32, (counter >>> 32).toUInt32, 0, 0]

def block (key : Key) (counter : UInt64) : Block :=
  let s := initial key counter
  (scramble s).zipWith (· + ·) s

/-- The word at a position of the keystream. -/
def word (key : Key) (position : Nat) : UInt32 :=
  (block key (UInt64.ofNat (position / 16)))[position % 16]

end Chip8.Keystream
