import RegexMachine.Character.Alphabetic
import RegexMachine.Character.Numeric
import RegexMachine.Character.Lowercase

/-!
# Character tests and cultures

The tests behind `\w`, `\d`, `\s` and the word boundaries, and the lowercase form of a character.
ASCII is decided directly; every other character by the property tables.

A culture decides which characters are equal when case is ignored: each character is folded to one
representative of its case set, and two characters are equivalent when their folds agree. A regex is
built with whatever culture it is given; two are supplied.
-/

namespace RegexMachine

namespace Character

def isAscii (c : Char) : Bool := c.toNat < 0x80

def isAlphabetic (c : Char) : Bool :=
  if isAscii c then c.isAlpha else alphabeticTable.contains c.toNat

/-- Decimal digits, letter numbers and other numbers. -/
def isNumeric (c : Char) : Bool :=
  if isAscii c then c.isDigit else numericTable.contains c.toNat

def isAlphanumeric (c : Char) : Bool := isAlphabetic c || isNumeric c

/-- Letters, numbers and connector punctuation. -/
def isWord (c : Char) : Bool :=
  isAlphanumeric c || c == '_' || c == '\u203f' || c == '\u2040'

/-- The word test of the boundary anchors: the zero-width joiners count as word characters. -/
def isBoundaryWord (c : Char) : Bool := isWord c || c == '\u200d' || c == '\u200c'

/-- The word test of the ECMAScript boundary anchors. -/
def isEcmaWord (c : Char) : Bool := c.isAlphanum || c == '_'

def isDigit (c : Char) : Bool := c.isDigit || (!isAscii c && isNumeric c)

/-- The characters with the Unicode property White_Space. -/
def isSpace (c : Char) : Bool :=
  let n := c.toNat
  (0x09 ≤ n && n ≤ 0x0d) || n == 0x20 || n == 0x85 || n == 0xa0 || n == 0x1680 ||
    (0x2000 ≤ n && n ≤ 0x200a) || n == 0x2028 || n == 0x2029 || n == 0x202f || n == 0x205f ||
    n == 0x3000

/-- The lowercase form, where it is one character; any other character is its own form. -/
def lowercase (c : Char) : Char :=
  if isAscii c then c.toLower
  else
    match lowercaseTable.find? c.toNat with
    | some (first, stride, image) =>
        if (c.toNat - first) % stride = 0 then Char.ofNat (image + (c.toNat - first)) else c
    | none => c

end Character

/-- How characters are told apart when case is ignored: any choice of representatives will do. -/
structure Culture where
  /-- The representative of the case set of a character. -/
  fold : Char → Char

namespace Culture

def invariant : Culture where
  fold := Character.lowercase

/-- Turkish and Azeri: `I` pairs with dotless `ı`, and `İ` with `i`. -/
def turkish : Culture where
  fold c :=
    if c = 'I' then '\u0131'
    else if c = '\u0130' then 'i'
    else Character.lowercase c

instance : Inhabited Culture := ⟨invariant⟩

/-- One of the two cultures that are supplied. -/
inductive Supplied : Culture → Prop
  | invariant : Supplied invariant
  | turkish : Supplied turkish

def equivalent (culture : Culture) (a b : Char) : Bool :=
  a == b || culture.fold a == culture.fold b

end Culture

end RegexMachine
