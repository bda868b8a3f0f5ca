import VersionedMap.Snapshot

namespace VersionedMap.Snapshot

variable {K V : Type} [Ord K] [Codec K] [Codec V]

omit [Ord K] in
def toJson (s : Snapshot K V) : Json :=
  encode s.toList

/-- Reads a snapshot of version 0. Entries out of order are a fault of the call, not of the JSON. -/
def ofJson (j : Json) : Except Fault (Snapshot K V) :=
  match j with
  | .null => .error .nullInput
  | j =>
    match decode (α := List (K × V)) j with
    | .error cause => .error (.undecodable cause)
    | .ok entries => (ofEntries? entries).mapError .disordered

/-- As a part of other JSON a snapshot is read with all of its faults being faults of the JSON. -/
instance : Codec (Snapshot K V) where
  encode := toJson
  decode j := do
    let entries ← decode (α := List (K × V)) j
    (ofEntries? entries).mapError .disordered

end VersionedMap.Snapshot
