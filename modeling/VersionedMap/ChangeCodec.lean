import VersionedMap.Change
import VersionedMap.Fault

namespace VersionedMap

namespace Operation

def name : Operation → String
  | added => "Added"
  | removed => "Removed"

def ofName? (name : String) : Except DecodeFault Operation :=
  if name = "Added" then .ok added
  else if name = "Removed" then .ok removed
  else .error (.unknownOperation name)

instance : Codec Operation where
  encode op := .text op.name
  decode
    | .text name => ofName? name
    | .object [(name, payload)] => do
      let op ← ofName? name
      decode (α := Unit) payload
      return op
    | .object _ => .error .notSingle
    | found => .error (.unexpected found .operation)

instance : Inspect Operation := ⟨name⟩

end Operation

namespace Change

variable {α : Type}

/-- Reads the parts that are there, the item first, and then asks for those that are not, the operation
first. This is so for item types that have no default: an item of a type that has one would not be asked
for, and a missing optional item would be read as none. -/
def ofMembers? [Codec α] (j : Json) : Except DecodeFault (Change α) := do
  let item? ← (j.member? "item").mapM decode
  let op? ← (j.member? "op").mapM decode
  match op?, item? with
  | some op, some item => .ok ⟨op, item⟩
  | none, _ => .error (.missing "op")
  | _, none => .error (.missing "item")

instance [Codec α] : Codec (Change α) where
  encode c := .object [("item", encode c.item), ("op", encode c.op)]
  decode
    | .object members => ofMembers? (.object members)
    | .list parts => (Codec.decodeTwo .change decode decode parts).map fun p => ⟨p.1, p.2⟩
    | found => .error (.unexpected found .change)

instance [Inspect α] : Inspect (Change α) :=
  ⟨fun c => Inspect.recordText "DiffEntry" [("op", inspect c.op), ("item", inspect c.item)]⟩

end Change

namespace Changes

variable {α : Type}

def toJson [Codec α] (cs : Changes α) : Json :=
  encode cs

def ofJson [Codec α] (j : Json) : Except Fault (Changes α) :=
  (decode (α := List (Change α)) j).mapError .undecodable

def text [Inspect α] (cs : Changes α) : String :=
  "Changes(" ++ Inspect.listText cs ++ ")"

end Changes

end VersionedMap
