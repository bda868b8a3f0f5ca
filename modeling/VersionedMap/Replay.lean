import VersionedMap.Change
import VersionedMap.Fault

namespace VersionedMap

variable {K V : Type} [Ord K] [Std.TransOrd K]

namespace SortedMap

def applyChange (m : SortedMap K V) (c : Change (K × V)) : Except Fault (SortedMap K V) :=
  match c.op with
  | .removed => if m.contains c.item.1 then .ok (m.erase c.item.1) else .error .keyNotFound
  | .added => if m.contains c.item.1 then .error .keyPresent else .ok (m.insert c.item.1 c.item.2)

/-- Replays changes in order: the map reached, and the fault that ended the replay, if any. A change
that does not fit stops it, and those before it stay in effect. -/
def replay (m : SortedMap K V) : Changes (K × V) → SortedMap K V × Option Fault
  | [] => (m, none)
  | c :: cs =>
    match m.applyChange c with
    | .ok m' => m'.replay cs
    | .error fault => (m, some fault)

end SortedMap

end VersionedMap
