import VersionedMap.Event
import VersionedMap.Replay

namespace VersionedMap

structure Replica (K V : Type) [Ord K] where
  id : Nat
  map : SortedMap K V

namespace Replica

variable {ν K V ρ : Type} [Ord K]

def start (id : Nat) : Replica K V :=
  ⟨id, .empty⟩

variable [Std.TransOrd K]

/-- Replays a change set. A fault ends it half way, and the next set is replayed on what is there. -/
def receive (r : Replica K V) (changes : Changes (K × V)) : Replica K V × Option Fault :=
  let (map, fault?) := r.map.replay changes
  ({ r with map }, fault?)

def observe (r : Replica K V) : Event ν (K × V) ρ → Replica K V × Option Fault
  | .received _ id _ changes _ => if id = r.id then r.receive changes else (r, none)
  | _ => (r, none)

end Replica

end VersionedMap
