/-!
The classes of characters that documents in text form are made of.
-/

namespace Chip8.Character

/-- Whether a document may hold a character, be it in a comment. -/
def isAllowed (c : Char) : Bool :=
  let n := c.toNat
  n == 0x09 || n == 0x0a || n == 0x0d || n == 0x85 || (0x20 ≤ n && n ≤ 0x7e) ||
    (0xa0 ≤ n && n ≤ 0xfffd) || 0x10000 ≤ n

def byteOrderMark : Char := '\ufeff'

def isBlank (c : Char) : Bool :=
  c == ' ' || c == '\t'

def isBreak (c : Char) : Bool :=
  c == '\n' || c == '\x0d' || c == '\u0085' || c == '\u2028' || c == '\u2029'

def isBlankOrBreak (c : Char) : Bool :=
  isBlank c || isBreak c

/-- The line break that a break stands for in the text of a scalar. -/
def breakText (c : Char) : Char :=
  if c = '\u2028' ∨ c = '\u2029' then c else '\n'

def isDigit (c : Char) : Bool :=
  '0' ≤ c && c ≤ '9'

/-- Whether names of anchors, tag handles and directives may hold a character. -/
def isWord (c : Char) : Bool :=
  isDigit c || ('A' ≤ c && c ≤ 'Z') || ('a' ≤ c && c ≤ 'z') || c == '_' || c == '-'

def isBracketOrComma (c : Char) : Bool :=
  c ∈ [',', '[', ']', '\x7b', '\x7d']

/-- Whether a character has a meaning of its own at the start of a token. -/
def isIndicator (c : Char) : Bool :=
  isBracketOrComma c ||
    c ∈ ['-', '?', ':', '#', '&', '*', '!', '|', '>', '\x27', '\x22', '%', '@', '\x60']


end Chip8.Character
