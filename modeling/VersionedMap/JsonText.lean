import VersionedMap.Json
import VersionedMap.Decimal

namespace VersionedMap.Json

def lastPoint : Int := 16

def firstPoint : Int := -5

def zeros (n : Int) : String :=
  String.ofList (List.replicate n.toNat '0')

/-- Writes `digits * 10 ^ exponent`, with at least one digit after a decimal point unless there is
an exponent, and that always with its sign. -/
def layOut (digits : List Char) (exponent : Int) : String :=
  let point := digits.length + exponent
  if 0 ≤ exponent ∧ point ≤ lastPoint then
    String.ofList digits ++ zeros exponent ++ ".0"
  else if 0 < point ∧ point ≤ lastPoint then
    String.ofList (digits.take point.toNat) ++ "." ++ String.ofList (digits.drop point.toNat)
  else if firstPoint < point ∧ point ≤ 0 then
    "0." ++ zeros (-point) ++ String.ofList digits
  else
    let fraction := digits.drop 1
    String.ofList (digits.take 1) ++ (if fraction.isEmpty then "" else "." ++ String.ofList fraction) ++
      (if 0 < point then "e+" else "e") ++ toString (point - 1)

def floatText (x : Float) : String :=
  let (m, q) := Decimal.significand x.toBits
  let size :=
    if m = 0 then
      "0.0"
    else
      let (c, e) := Decimal.shortest m q
      layOut (Nat.toDigits 10 c) e
  if x.toBits.toNat < UInt64.size / 2 then size else "-" ++ size

def hexByte (n : Nat) : String :=
  String.ofList [Nat.digitChar (n / 16 % 16), Nat.digitChar (n % 16)]

def escapeChar (c : Char) : String :=
  match c with
  | '"' => "\\\""
  | '\\' => "\\\\"
  | '\x08' => "\\b"
  | '\t' => "\\t"
  | '\n' => "\\n"
  | '\x0c' => "\\f"
  | '\r' => "\\r"
  | c => if c.toNat < 0x20 then "\\u00" ++ hexByte c.toNat else c.toString

def quoteText (s : String) : String :=
  "\"" ++ String.join (s.toList.map escapeChar) ++ "\""

mutual

def compact : Json → String
  | null => "null"
  | bool b => toString b
  | int n => toString n
  | float x => floatText x
  | text s => quoteText s
  | list items => "[" ++ ",".intercalate (compactItems items) ++ "]"
  | object members => "\x7b" ++ ",".intercalate (compactMembers members) ++ "\x7d"

def compactItems : List Json → List String
  | [] => []
  | item :: items => compact item :: compactItems items

def compactMembers : List (String × Json) → List String
  | [] => []
  | (name, value) :: members => (quoteText name ++ ":" ++ compact value) :: compactMembers members

end

end VersionedMap.Json
