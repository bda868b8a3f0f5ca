import VersionedMap.Snapshot

namespace VersionedMap

inductive Pending (V : Type) where
  | upserted (value : V)
  | removed
deriving DecidableEq, Repr

instance {V : Type} [Inspect V] : Inspect (Pending V) where
  inspect
    | .upserted value => "Upserted(" ++ inspect value ++ ")"
    | .removed => "Removed"

/-- The changes a transaction has made and not committed, and how many more entries the merged view has
for them than the base. Only real changes are kept: setting a key to the value it has in the base
cancels its operation, and so does removing a key that the base does not hold. -/
structure Overlay (K V : Type) [Ord K] where
  ops : SortedMap K (Pending V)
  growth : Int

namespace Overlay

variable {K V : Type} [Ord K]

def empty : Overlay K V :=
  ⟨.empty, 0⟩

def isEmpty (o : Overlay K V) : Bool :=
  o.ops.isEmpty

def size (o : Overlay K V) : Nat :=
  o.ops.size

def mergedSize (o : Overlay K V) (base : Snapshot K V) : Nat :=
  (base.size + o.growth).toNat

def resolve (o : Overlay K V) (base : Snapshot K V) (key : K) : Option V :=
  match o.ops.get? key with
  | some (.upserted value) => some value
  | some .removed => none
  | none => base.get? key

variable [Std.TransOrd K]

def set [BEq V] (o : Overlay K V) (base : Snapshot K V) (key : K) (value : V) : Overlay K V where
  ops :=
    if (base.get? key).any (· == value) then o.ops.erase key
    else o.ops.insert key (.upserted value)
  growth := if (o.resolve base key).isNone then o.growth + 1 else o.growth

/-- Whether `key` was in the merged view, and the overlay without it. A removal is recorded under the
base's spelling of the key, unless an operation on the key is pending already. -/
def remove (o : Overlay K V) (base : Snapshot K V) (key : K) : Bool × Overlay K V :=
  if (o.resolve base key).isNone then
    (false, o)
  else
    (true,
      { ops :=
          match base.lookup? key with
          | some entry => o.ops.insert entry.1 .removed
          | none => o.ops.erase key
        growth := o.growth - 1 })

omit [Std.TransOrd K] in
def text [Inspect K] [Inspect V] (o : Overlay K V) : String :=
  Inspect.recordText "Overlay"
    [("ops", Inspect.mapText o.ops.entries), ("len_delta", toString o.growth)]

end Overlay

end VersionedMap
