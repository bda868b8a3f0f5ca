import VersionedMap.Json

namespace VersionedMap.Json

def isBlank (c : Char) : Bool :=
  c == ' ' || c == '\t' || c == '\n' || c == '\r'

def skipBlanks (cs : List Char) : List Char :=
  cs.dropWhile isBlank

def hexDigit? (c : Char) : Option Nat :=
  if '0' ≤ c ∧ c ≤ '9' then some (c.toNat - '0'.toNat)
  else if 'a' ≤ c ∧ c ≤ 'f' then some (c.toNat - 'a'.toNat + 10)
  else if 'A' ≤ c ∧ c ≤ 'F' then some (c.toNat - 'A'.toNat + 10)
  else none

def codeUnit? (a b c d : Char) : Option Nat :=
  [a, b, c, d].foldlM (fun n digit => (hexDigit? digit).map (16 * n + ·)) 0

def unescape? : Char → Option Char
  | '"' => some '"'
  | '\\' => some '\\'
  | '/' => some '/'
  | 'b' => some '\x08'
  | 'f' => some '\x0c'
  | 'n' => some '\n'
  | 'r' => some '\r'
  | 't' => some '\t'
  | _ => none

def readText (read : List Char) : List Char → Option (String × List Char)
  | '"' :: cs => some (String.ofList read.reverse, cs)
  | '\\' :: 'u' :: a :: b :: c :: d :: cs => do
    let unit ← codeUnit? a b c d
    if unit < 0xd800 ∨ 0xe000 ≤ unit then
      readText (Char.ofNat unit :: read) cs
    else
      match cs with
      | '\\' :: 'u' :: a :: b :: c :: d :: cs => do
        let low ← codeUnit? a b c d
        guard (unit < 0xdc00 ∧ 0xdc00 ≤ low ∧ low < 0xe000)
        readText (Char.ofNat (0x10000 + (unit - 0xd800) * 0x400 + (low - 0xdc00)) :: read) cs
      | _ => none
  | '\\' :: c :: cs => do readText ((← unescape? c) :: read) cs
  | c :: cs => readText (c :: read) cs
  | [] => none

def digitValue (c : Char) : Nat :=
  c.toNat - '0'.toNat

def digitsValue (digits : List Char) : Nat :=
  digits.foldl (fun n c => n * 10 + digitValue c) 0

/-- Appends decimal digits to `n` as long as the result fits into a word of 64 bits, and leaves the others
over. -/
def appendDigits (n : Nat) : List Char → Nat × List Char
  | [] => (n, [])
  | c :: cs =>
    if n * 10 + digitValue c < UInt64.size then appendDigits (n * 10 + digitValue c) cs
    else (n, c :: cs)

def lastPower : Nat := 308

def scale (x : Float) (exponent : Int) : Option Float :=
  if x == 0 then some x
  else if lastPower < exponent then none
  else if 0 ≤ exponent then
    let product := x * Float.ofScientific 1 false exponent.toNat
    if product.isInf then none else some product
  else if -lastPower ≤ exponent then some (x / Float.ofScientific 1 false exponent.natAbs)
  else scale (x / Float.ofScientific 1 false lastPower) (exponent + lastPower)
termination_by exponent.natAbs
decreasing_by
  simp only [lastPower] at *
  omega

/-- The value `coefficient * 10 ^ exponent`, for a coefficient of 64 bits. A number written with neither
fraction nor exponent, and short enough, is an integer, unless it is minus zero or below the least signed
word. Any other is a floating point number, the nearest one or, since its digits and the scaling are
rounded one after the other, one close to that. -/
def ofDecimal? (negative whole : Bool) (coefficient : Nat) (exponent : Int) : Option Json :=
  if whole && !negative then
    some (int coefficient)
  else if whole && 0 < coefficient && coefficient ≤ UInt64.size / 2 then
    some (int (-coefficient))
  else
    (scale coefficient.toUInt64.toFloat exponent).map fun size => float (if negative then -size else size)

def readExponent : List Char → Option Int × List Char
  | c :: cs =>
    if c == 'e' || c == 'E' then
      let negative := cs.head? == some '-'
      let cs := if negative || cs.head? == some '+' then cs.drop 1 else cs
      let size : Int := digitsValue (cs.takeWhile Char.isDigit)
      (some (if negative then -size else size), cs.dropWhile Char.isDigit)
    else
      (none, c :: cs)
  | [] => (none, [])

def readNumber (cs : List Char) : Option (Json × List Char) :=
  let negative := cs.head? == some '-'
  let cs := if negative then cs.drop 1 else cs
  let whole := cs.takeWhile Char.isDigit
  let cs := cs.dropWhile Char.isDigit
  let fraction := if cs.head? == some '.' then (cs.drop 1).takeWhile Char.isDigit else []
  let cs := if cs.head? == some '.' then (cs.drop 1).dropWhile Char.isDigit else cs
  let (exponent?, cs) := readExponent cs
  if whole.isEmpty then none
  else
    let (coefficient, excess) := appendDigits 0 whole
    let (coefficient, unused) := appendDigits coefficient fraction
    let plain := fraction.isEmpty && exponent?.isNone && excess.isEmpty
    let exponent := exponent?.getD 0 + excess.length - (fraction.length - unused.length)
    (ofDecimal? negative plain coefficient exponent).map fun number => (number, cs)

mutual

/-- Reads a value. Every character read allows for two of the steps. -/
def readValue : Nat → List Char → Option (Json × List Char)
  | 0, _ => none
  | steps + 1, cs =>
    match skipBlanks cs with
    | '"' :: cs => (readText [] cs).map fun (s, cs) => (text s, cs)
    | '[' :: cs =>
      match skipBlanks cs with
      | ']' :: cs => some (list [], cs)
      | cs => readItems steps [] cs
    | '\x7b' :: cs =>
      match skipBlanks cs with
      | '\x7d' :: cs => some (ofMembers [], cs)
      | cs => readMembers steps [] cs
    | 'n' :: 'u' :: 'l' :: 'l' :: cs => some (null, cs)
    | 't' :: 'r' :: 'u' :: 'e' :: cs => some (bool true, cs)
    | 'f' :: 'a' :: 'l' :: 's' :: 'e' :: cs => some (bool false, cs)
    | cs => readNumber cs

def readItems : Nat → List Json → List Char → Option (Json × List Char)
  | 0, _, _ => none
  | steps + 1, read, cs => do
    let (item, cs) ← readValue steps cs
    match skipBlanks cs with
    | ',' :: cs => readItems steps (item :: read) cs
    | ']' :: cs => some (list (item :: read).reverse, cs)
    | _ => none

def readMembers : Nat → List (String × Json) → List Char → Option (Json × List Char)
  | 0, _, _ => none
  | steps + 1, read, cs => do
    let '"' :: cs := skipBlanks cs | none
    let (name, cs) ← readText [] cs
    let ':' :: cs := skipBlanks cs | none
    let (value, cs) ← readValue steps cs
    match skipBlanks cs with
    | ',' :: cs => readMembers steps ((name, value) :: read) cs
    | '\x7d' :: cs => some (ofMembers ((name, value) :: read).reverse, cs)
    | _ => none

end

def ofText? (s : String) : Option Json := do
  let cs := s.toList
  let (value, rest) ← readValue (2 * cs.length + 2) cs
  guard (skipBlanks rest).isEmpty
  return value

end VersionedMap.Json
