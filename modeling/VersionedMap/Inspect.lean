import VersionedMap.Extending
import VersionedMap.JsonText
import VersionedMap.Unprintable

namespace VersionedMap

class Inspect (α : Type) where
  inspect : α → String

export Inspect (inspect)

namespace Inspect

/-- Whether a character cannot be told by its form when it stands alone. -/
def formless (c : Char) : Bool :=
  CodeRanges.covers Extending.ranges c.toNat || CodeRanges.covers Unprintable.ranges c.toNat

def escapeChar (c : Char) : String :=
  match c with
  | '"' => "\\\""
  | '\\' => "\\\\"
  | '\t' => "\\t"
  | '\n' => "\\n"
  | '\r' => "\\r"
  | '\x00' => "\\0"
  | c =>
    if formless c then
      "\\u\x7b" ++ String.ofList (Nat.toDigits 16 c.toNat) ++ "\x7d"
    else
      c.toString

def quoted (s : String) : String :=
  "\"" ++ String.join (s.toList.map escapeChar) ++ "\""

instance : Inspect Int64 := ⟨fun n => toString n.toInt⟩

instance : Inspect String := ⟨quoted⟩

instance : Inspect Unit := ⟨fun _ => "()"⟩

instance : Inspect Json := ⟨Json.compact⟩

def listText {α : Type} [Inspect α] (items : List α) : String :=
  "[" ++ ", ".intercalate (items.map inspect) ++ "]"

def setText {α : Type} [Inspect α] (items : List α) : String :=
  "\x7b" ++ ", ".intercalate (items.map inspect) ++ "\x7d"

def mapText {K V : Type} [Inspect K] [Inspect V] (entries : List (K × V)) : String :=
  "\x7b" ++ ", ".intercalate (entries.map fun e => inspect e.1 ++ ": " ++ inspect e.2) ++ "\x7d"

def recordText (name : String) (fields : List (String × String)) : String :=
  name ++ " \x7b " ++ ", ".intercalate (fields.map fun f => f.1 ++ ": " ++ f.2) ++ " \x7d"

end Inspect

end VersionedMap
