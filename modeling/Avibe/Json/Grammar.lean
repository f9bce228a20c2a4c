import Avibe.Lib.Utf8Strict

/-!
# The JSON grammar

The grammar of RFC 8259 over the bytes of a UTF-8 text, production by production.
A character that is not escaped is one well-formed UTF-8 sequence.
-/

namespace Avibe.Json

/-! ## Whitespace, literals and numbers -/

def isSpace (b : UInt8) : Bool := b = 0x20 || b = 0x09 || b = 0x0A || b = 0x0D

def isDigit (b : UInt8) : Bool := 0x30 ≤ b && b ≤ 0x39

def isHexDigit (b : UInt8) : Bool :=
  isDigit b || (0x61 ≤ b && b ≤ 0x66) || (0x41 ≤ b && b ≤ 0x46)

def Ws (bytes : List UInt8) : Prop := ∀ b ∈ bytes, isSpace b = true

/-- A structural character with the whitespace around it. -/
def Structural (c : UInt8) (bytes : List UInt8) : Prop :=
  ∃ before after, Ws before ∧ Ws after ∧ bytes = before ++ c :: after

def trueBytes : List UInt8 := [0x74, 0x72, 0x75, 0x65]

def falseBytes : List UInt8 := [0x66, 0x61, 0x6C, 0x73, 0x65]

def nullBytes : List UInt8 := [0x6E, 0x75, 0x6C, 0x6C]

def words : List (List UInt8) := [trueBytes, falseBytes, nullBytes]

def Digits (bytes : List UInt8) : Prop := bytes ≠ [] ∧ ∀ b ∈ bytes, isDigit b = true

def IntPart (bytes : List UInt8) : Prop :=
  bytes = [0x30] ∨ ∃ d rest, bytes = d :: rest ∧ isDigit d = true ∧ d ≠ 0x30 ∧
    ∀ b ∈ rest, isDigit b = true

def Frac (bytes : List UInt8) : Prop := ∃ digits, bytes = 0x2E :: digits ∧ Digits digits

def Exp (bytes : List UInt8) : Prop :=
  ∃ e sign digits, bytes = e :: (sign ++ digits) ∧ (e = 0x65 ∨ e = 0x45) ∧
    (sign = [] ∨ sign = [0x2B] ∨ sign = [0x2D]) ∧ Digits digits

def Number (bytes : List UInt8) : Prop :=
  ∃ minus int frac exp, bytes = minus ++ (int ++ (frac ++ exp)) ∧
    (minus = [] ∨ minus = [0x2D]) ∧ IntPart int ∧ (frac = [] ∨ Frac frac) ∧ (exp = [] ∨ Exp exp)

/-! ## Strings -/

/-- The characters that may follow a backslash, apart from `u`. -/
def isEscape (b : UInt8) : Bool :=
  b ∈ [0x22, 0x5C, 0x2F, 0x62, 0x66, 0x6E, 0x72, 0x74]

/-- `unescaped`: a character that is no control character, quote or backslash. -/
def Unescaped (bytes : List UInt8) : Prop :=
  Utf8.Sequence bytes ∧ ∀ b, bytes = [b] → 0x20 ≤ b ∧ b ≠ 0x22 ∧ b ≠ 0x5C

inductive Chars : List UInt8 → Prop where
  | nil : Chars []
  | unescaped {char rest : List UInt8} (hchar : Unescaped char) (hrest : Chars rest) :
      Chars (char ++ rest)
  | escape {b : UInt8} {rest : List UInt8} (hb : isEscape b = true) (hrest : Chars rest) :
      Chars (0x5C :: b :: rest)
  | unicode {digits rest : List UInt8} (hlen : digits.length = 4)
      (hdigits : ∀ b ∈ digits, isHexDigit b = true) (hrest : Chars rest) :
      Chars (0x5C :: 0x75 :: (digits ++ rest))

def Str (bytes : List UInt8) : Prop := ∃ chars, Chars chars ∧ bytes = 0x22 :: (chars ++ [0x22])

/-! ## Values -/

mutual

inductive Value : List UInt8 → Prop where
  | word {bytes : List UInt8} (h : bytes ∈ words) : Value bytes
  | number {bytes : List UInt8} (h : Number bytes) : Value bytes
  | string {bytes : List UInt8} (h : Str bytes) : Value bytes
  | emptyObject {start stop : List UInt8} (h : Structural 0x7B start)
      (h' : Structural 0x7D stop) : Value (start ++ stop)
  | object {start members stop : List UInt8} (h : Structural 0x7B start)
      (hm : Members members) (h' : Structural 0x7D stop) : Value (start ++ (members ++ stop))
  | emptyArray {start stop : List UInt8} (h : Structural 0x5B start)
      (h' : Structural 0x5D stop) : Value (start ++ stop)
  | array {start elements stop : List UInt8} (h : Structural 0x5B start)
      (he : Elements elements) (h' : Structural 0x5D stop) : Value (start ++ (elements ++ stop))

inductive Members : List UInt8 → Prop where
  | one {key separator value : List UInt8} (hk : Str key) (hs : Structural 0x3A separator)
      (hv : Value value) : Members (key ++ (separator ++ value))
  | more {key separator value comma members : List UInt8} (hk : Str key)
      (hs : Structural 0x3A separator) (hv : Value value) (hc : Structural 0x2C comma)
      (hm : Members members) : Members (key ++ (separator ++ (value ++ (comma ++ members))))

inductive Elements : List UInt8 → Prop where
  | one {value : List UInt8} (hv : Value value) : Elements value
  | more {value comma elements : List UInt8} (hv : Value value) (hc : Structural 0x2C comma)
      (he : Elements elements) : Elements (value ++ (comma ++ elements))

end

/-- `JSON-text`. -/
def Text (bytes : List UInt8) : Prop :=
  ∃ before value after, Ws before ∧ Value value ∧ Ws after ∧ bytes = before ++ (value ++ after)

end Avibe.Json
