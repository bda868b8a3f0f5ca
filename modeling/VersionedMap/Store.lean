import VersionedMap.Signal
import VersionedMap.Transaction

namespace VersionedMap

structure Store (ν K V : Type) where
  current : Pinned K V
  stamps : Nat
  changed : Signal ν (K × V) (Snapshot K V)

namespace Store

variable {ν K V : Type}

def ofSnapshot (s : Snapshot K V) : Store ν K V :=
  ⟨⟨0, s⟩, 1, .empty⟩

def empty : Store ν K V :=
  ofSnapshot .empty

def snapshot (s : Store ν K V) : Snapshot K V :=
  s.current.snapshot

def version (s : Store ν K V) : Nat :=
  s.snapshot.version

def adopt (s : Store ν K V) (snapshot : Snapshot K V) : Pinned K V × Store ν K V :=
  (⟨s.stamps, snapshot⟩, { s with stamps := s.stamps + 1 })

def record (s : Store ν K V) (event : Event ν (K × V) (Snapshot K V)) : Store ν K V :=
  { s with changed := s.changed.record event }

def text [Inspect K] [Inspect V] (s : Store ν K V) : String × Store ν K V :=
  let (changed, signal) := s.changed.text
  (Inspect.recordText "TransactionalDictionary"
    [("version", toString s.version), ("entries", inspect s.snapshot), ("changed", changed)],
    { s with changed := signal })

variable [Ord K]

/-- A store that starts from the given entries, the last of several under one key. Unless there are
none, that counts as the first commit. -/
def ofList [Std.TransOrd K] (entries : List (K × V)) : Store ν K V :=
  let sorted := (SortedMap.ofList entries).entries
  ofSnapshot ⟨sorted.toArray, if sorted.isEmpty then 0 else 1⟩

/-- Whether another transaction has been committed since this one was started. Committing it replaces
what came in between. -/
def isStale (s : Store ν K V) (t : Transaction K V) : Bool :=
  s.version != t.base.version

variable [DecidableEq ν]

def subscribe (s : Store ν K V) (name : ν) (handler : Handler ν) : Nat × Store ν K V :=
  let populate := Changes.populate s.snapshot.toList
  let (id, changed) := s.changed.connect name handler [] populate s.snapshot
  (id, { s with changed })

def publish (s : Store ν K V) (baseVersion : Nat) (entries : List (K × V)) (changes : Changes (K × V)) :
    Store ν K V :=
  let next : Snapshot K V := ⟨entries.toArray, s.version + 1⟩
  let settled := s.changed.settle
  let warned := if s.version = baseVersion then settled else settled.record (.stale baseVersion s.version)
  { current := ⟨s.stamps, next⟩
    stamps := s.stamps + 1
    changed := (warned.record (.committed next.version changes.length)).announce changes next }

/-- Commits a transaction: the changes it made, the transaction thereafter and the store. Without
changes the store is not touched. -/
def commit (s : Store ν K V) (t : Transaction K V) :
    Except Fault (Changes (K × V) × Transaction K V × Store ν K V) := do
  t.ensureActive .commit
  let committed := { t with status := .committed }
  if t.hasChanges then
    let changes := t.diff.toList
    return (changes, committed, s.publish t.base.version t.toList changes)
  else
    return ([], committed, s)

end Store

end VersionedMap
