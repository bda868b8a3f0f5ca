import VersionedMap.Keys

namespace VersionedMap

inductive Wanted where
  | list
  | pair
  | integer
  | text
  | change
  | operation
  | nothing
deriving DecidableEq, Repr

def Wanted.describe : Wanted → String
  | list => "a sequence"
  | pair => "a tuple of size 2"
  | integer => "i64"
  | text => "a string"
  | change => "struct DiffEntry"
  | operation => "string or map"
  | nothing => "unit"

def Json.describe : Json → String
  | null => "null"
  | bool b => s!"boolean `{b}`"
  | int n => s!"integer `{n}`"
  | float x => s!"floating point `{floatText x}`"
  | text s => "string " ++ Inspect.quoted s
  | list _ => "sequence"
  | object _ => "map"

inductive DecodeFault where
  | unexpected (found : Json) (wanted : Wanted)
  | outOfRange (n : Int)
  | tooShort (length : Nat) (wanted : Wanted)
  | tooLong (length : Nat)
  | missing (member : String)
  | unknownOperation (name : String)
  | notSingle
  /-- The entry at `index` is not above the one before it. -/
  | disordered (index : Nat)

namespace DecodeFault

def disorderText (index : Nat) : String :=
  s!"not supported: entries are not in strictly ascending key order (at index {index})"

def message : DecodeFault → String
  | unexpected found wanted => s!"invalid type: {found.describe}, expected {wanted.describe}"
  | outOfRange n => s!"invalid value: integer `{n}`, expected i64"
  | tooShort length .change => s!"invalid length {length}, expected struct DiffEntry with 2 elements"
  | tooShort length wanted => s!"invalid length {length}, expected {wanted.describe}"
  | tooLong length => s!"invalid length {length}, expected fewer elements in array"
  | missing member => s!"missing field `{member}`"
  | unknownOperation name => s!"unknown variant `{name}`, expected `Added` or `Removed`"
  | notSingle => "invalid value: map, expected map with a single key"
  | disordered index => disorderText index

end DecodeFault

theorem ok_of_bind {ε α β : Type} {x : Except ε α} {f : α → Except ε β} {b : β} (h : x >>= f = .ok b) :
    ∃ a, x = .ok a ∧ f a = .ok b := by
  cases x with
  | error e => cases h
  | ok a => exact ⟨a, rfl, h⟩

theorem ok_of_map {ε α β : Type} {x : Except ε α} {f : α → β} {b : β} (h : x.map f = .ok b) :
    ∃ a, x = .ok a ∧ f a = b := by
  cases x with
  | error e => cases h
  | ok a => exact ⟨a, rfl, Except.ok.inj h⟩

class Codec (α : Type) where
  encode : α → Json
  decode : Json → Except DecodeFault α

export Codec (encode decode)

/-- Reading and writing undo each other. -/
class LawfulCodec (α : Type) [Codec α] : Prop where
  decode_encode (a : α) : decode (encode a) = .ok a
  encode_decode {j : Json} {a : α} : decode j = .ok a → encode a = j

namespace Codec

variable {α β : Type}

instance : Codec Int64 where
  encode n := .int n.toInt
  decode
    | .int n =>
      if Int64.minValue.toInt ≤ n ∧ n ≤ Int64.maxValue.toInt then .ok (Int64.ofInt n)
      else .error (.outOfRange n)
    | found => .error (.unexpected found .integer)

instance : Codec String where
  encode s := .text s
  decode
    | .text s => .ok s
    | found => .error (.unexpected found .text)

instance : Codec Unit where
  encode _ := .null
  decode
    | .null => .ok ()
    | found => .error (.unexpected found .nothing)

instance : Codec Json where
  encode j := j
  decode j := .ok j

instance [Codec α] : Codec (Descending α) where
  encode a := encode a.value
  decode j := (decode j).map Descending.mk

instance : Codec Caseless where
  encode a := encode a.text
  decode j := (decode j).map Caseless.mk

instance : Codec OddText where
  encode a := encode a.text
  decode j := (decode j).map OddText.mk

/-- Reads a list of two parts, from the left. A part that is there is read before one that is missing
or one too many is complained about. -/
def decodeTwo (wanted : Wanted) (first : Json → Except DecodeFault α)
    (second : Json → Except DecodeFault β) : List Json → Except DecodeFault (α × β)
  | [] => .error (.tooShort 0 wanted)
  | [a] => do
    let _ ← first a
    .error (.tooShort 1 wanted)
  | a :: b :: rest => do
    let a ← first a
    let b ← second b
    if rest.isEmpty then .ok (a, b) else .error (.tooLong (rest.length + 2))

instance [Codec α] [Codec β] : Codec (α × β) where
  encode p := .list [encode p.1, encode p.2]
  decode
    | .list parts => decodeTwo .pair decode decode parts
    | found => .error (.unexpected found .pair)

instance [Codec α] [Codec β] : Codec (Paired α β) where
  encode p := encode (p.fst, p.snd)
  decode j := (decode (α := α × β) j).map fun p => ⟨p.1, p.2⟩

instance [Codec α] : Codec (List α) where
  encode as := .list (as.map encode)
  decode
    | .list items => items.mapM decode
    | found => .error (.unexpected found .list)

end Codec

end VersionedMap
