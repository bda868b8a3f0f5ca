import VersionedMap.MergedWalk
import VersionedMap.OverlayDiff

namespace VersionedMap

inductive Status where
  | active
  | committed
deriving DecidableEq, Repr

def Status.text : Status → String
  | active => "Open"
  | committed => "Committed"

/-- A snapshot as installed. Every installation has a stamp of its own, so two holders share their
snapshot if and only if the stamps agree. -/
structure Pinned (K V : Type) where
  stamp : Nat
  snapshot : Snapshot K V

structure Transaction (K V : Type) [Ord K] where
  origin : Pinned K V
  overlay : Overlay K V
  status : Status

namespace Transaction

variable {K V : Type} [Ord K]

def start (origin : Pinned K V) : Transaction K V :=
  ⟨origin, .empty, .active⟩

def base (t : Transaction K V) : Snapshot K V :=
  t.origin.snapshot

def get? (t : Transaction K V) (key : K) : Option V :=
  t.overlay.resolve t.base key

def get (t : Transaction K V) (key : K) : Except Fault V :=
  match t.get? key with
  | some value => .ok value
  | none => .error .keyNotFound

def contains (t : Transaction K V) (key : K) : Bool :=
  (t.get? key).isSome

def size (t : Transaction K V) : Nat :=
  t.overlay.mergedSize t.base

def isEmpty (t : Transaction K V) : Bool :=
  t.size == 0

def hasChanges (t : Transaction K V) : Bool :=
  !t.overlay.isEmpty

def ascending (t : Transaction K V) : MergedWalk K V :=
  t.overlay.ascending t.base

def descending (t : Transaction K V) : MergedWalk K V :=
  t.overlay.descending t.base

def atLeast (t : Transaction K V) (key : K) : MergedWalk K V :=
  t.overlay.atLeast t.base key

def atMost (t : Transaction K V) (key : K) : MergedWalk K V :=
  t.overlay.atMost t.base key

def toList (t : Transaction K V) : List (K × V) :=
  t.ascending.toList

def diff (t : Transaction K V) : OverlayDiff K V :=
  t.overlay.diff t.base

def ensureActive (t : Transaction K V) (edit : Edit) : Except Fault Unit :=
  match t.status with
  | .active => .ok ()
  | .committed => .error (.committed edit)

def revert (t : Transaction K V) : Except Fault (Transaction K V) := do
  t.ensureActive .revert
  return { t with overlay := .empty }

variable [Std.TransOrd K]

def set [BEq V] (t : Transaction K V) (key : K) (value : V) : Except Fault (Transaction K V) := do
  t.ensureActive .set
  return { t with overlay := t.overlay.set t.base key value }

def remove (t : Transaction K V) (key : K) : Except Fault (Bool × Transaction K V) := do
  t.ensureActive .remove
  let (present, overlay) := t.overlay.remove t.base key
  return (present, { t with overlay })

/-- Like `remove`, except that a committed transaction just has nothing to remove. -/
def tryRemove (t : Transaction K V) (key : K) : Bool × Transaction K V :=
  match t.remove key with
  | .ok result => result
  | .error _ => (false, t)

omit [Std.TransOrd K] in
def text [Inspect K] [Inspect V] (t : Transaction K V) : String :=
  Inspect.recordText "Transaction"
    [("base_version", toString t.base.version), ("status", t.status.text),
      ("overlay", t.overlay.text)]

end Transaction

end VersionedMap
