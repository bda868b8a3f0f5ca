import VersionedMap.LinkedWalk

namespace VersionedMap

structure LinkedSet (K : Type) [BEq K] [Hashable K] where
  map : LinkedMap K Unit

namespace LinkedSet

variable {K : Type} [BEq K] [Hashable K]

def empty : LinkedSet K :=
  ⟨.empty⟩

def size (s : LinkedSet K) : Nat :=
  s.map.size

def isEmpty (s : LinkedSet K) : Bool :=
  s.map.isEmpty

def contains (s : LinkedSet K) (key : K) : Bool :=
  s.map.contains key

/-- Adds a key at the end. A key that is there keeps its place, and the answer is false. -/
def insert (s : LinkedSet K) (key : K) : Except Dangling (Bool × LinkedSet K) := do
  let (old?, map) ← s.map.insert key ()
  return (old?.isNone, ⟨map⟩)

def remove (s : LinkedSet K) (key : K) : Except Dangling (Bool × LinkedSet K) := do
  let (old?, map) ← s.map.remove key
  return (old?.isSome, ⟨map⟩)

def popFront (s : LinkedSet K) : Except Dangling (Option K × LinkedSet K) := do
  let (popped?, map) ← s.map.popFront
  return (popped?.map (·.1), ⟨map⟩)

def first? (s : LinkedSet K) : Except Dangling (Option K) :=
  return (← s.map.first?).map (·.1)

def last? (s : LinkedSet K) : Except Dangling (Option K) :=
  return (← s.map.last?).map (·.1)

def walk (s : LinkedSet K) : LinkedWalk K Unit :=
  s.map.walk

def toList (s : LinkedSet K) : List K :=
  s.map.toList.map (·.1)

def ofList (keys : List K) : Except Dangling (LinkedSet K) :=
  return ⟨← LinkedMap.ofList (keys.map fun key => (key, ()))⟩

instance : BEq (LinkedSet K) := ⟨fun s t => s.map == t.map⟩

instance [Inspect K] : Inspect (LinkedSet K) := ⟨fun s => Inspect.setText s.toList⟩

end LinkedSet

end VersionedMap
