import VersionedMap.LinkedMap
import VersionedMap.Inspect
import VersionedMap.Walk

namespace VersionedMap

/-- A walk from both ends. Nothing but the number of entries left tells the two ends that they have met.
-/
structure LinkedWalk (K V : Type) where
  slots : Array (Option (Node K V))
  front? : Option Nat
  back? : Option Nat
  remaining : Nat

namespace LinkedWalk

variable {K V : Type}

def node? (w : LinkedWalk K V) (link? : Option Nat) : Option (Node K V) :=
  link?.bind fun slot => w.slots[slot]?.join

def next (w : LinkedWalk K V) : Option (K × V) × LinkedWalk K V :=
  if w.remaining = 0 then (none, w)
  else
    match w.node? w.front? with
    | none => (none, w)
    | some node =>
      (some (node.key, node.value), { w with front? := node.next?, remaining := w.remaining - 1 })

def nextBack (w : LinkedWalk K V) : Option (K × V) × LinkedWalk K V :=
  if w.remaining = 0 then (none, w)
  else
    match w.node? w.back? with
    | none => (none, w)
    | some node =>
      (some (node.key, node.value), { w with back? := node.prev?, remaining := w.remaining - 1 })

def toList (w : LinkedWalk K V) : List (K × V) :=
  (Walk.drain next w.remaining w).1

def toListBack (w : LinkedWalk K V) : List (K × V) :=
  (Walk.drain nextBack w.remaining w).1

end LinkedWalk

namespace LinkedMap

variable {K V : Type} [BEq K] [Hashable K]

def walk (m : LinkedMap K V) : LinkedWalk K V :=
  ⟨m.slots, m.head?, m.tail?, m.size⟩

def toList (m : LinkedMap K V) : List (K × V) :=
  m.walk.toList

/-- Maps are equal if they hold equal entries in the same order, whatever their slots. -/
instance [BEq V] : BEq (LinkedMap K V) :=
  ⟨fun m n => m.size == n.size && m.toList == n.toList⟩

instance [Inspect K] [Inspect V] : Inspect (LinkedMap K V) := ⟨fun m => Inspect.mapText m.toList⟩

end LinkedMap

end VersionedMap
