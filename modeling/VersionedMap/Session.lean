import VersionedMap.Store

namespace VersionedMap

structure Session (τ ν K V : Type) [Ord K] where
  store : Store ν K V
  transactions : List (τ × Transaction K V)

namespace Session

inductive Op (τ ν K V : Type) where
  | start (name : τ)
  | set (name : τ) (key : K) (value : V)
  | remove (name : τ) (key : K)
  | tryRemove (name : τ) (key : K)
  | revert (name : τ)
  | commit (name : τ)
  | drop (name : τ)
  | subscribe (name : ν) (handler : Handler ν)
  | disconnect (name : ν)
  | detach (name : ν)
  | count

inductive Reply (K V : Type) where
  | done
  | flag (b : Bool)
  | committed (changes : Changes (K × V))
  | subscribed (id : Nat)
  | counted (subscribers : Nat)
  | refused (fault : Fault)
  | unknown

variable {τ ν K V : Type} [Ord K] [DecidableEq τ]

def ofStore (store : Store ν K V) : Session τ ν K V :=
  ⟨store, []⟩

def transaction? (s : Session τ ν K V) (name : τ) : Option (Transaction K V) :=
  s.transactions.lookup name

def hold (s : Session τ ν K V) (name : τ) (t : Transaction K V) : Session τ ν K V :=
  { s with
    transactions :=
      if s.transactions.any (·.1 == name) then
        s.transactions.map fun entry => if entry.1 = name then (name, t) else entry
      else
        (name, t) :: s.transactions }

/-- Dropping an open transaction with pending operations discards them, which is logged. -/
def discard (s : Session τ ν K V) : Option (Transaction K V) → Session τ ν K V
  | none => s
  | some t =>
    if t.status = .active ∧ t.hasChanges then
      { s with store := s.store.record (.discarded t.base.version t.overlay.size) }
    else
      s

def start (s : Session τ ν K V) (name : τ) : Session τ ν K V :=
  let started := { s with store := s.store.record (.started s.store.version) }
  (started.hold name (.start s.store.current)).discard (s.transaction? name)

def drop (s : Session τ ν K V) (name : τ) : Session τ ν K V :=
  { s with transactions := s.transactions.eraseP (·.1 == name) }.discard (s.transaction? name)

/-- Changes the transaction under `name`; a refused change leaves the session as it was. -/
def edit (s : Session τ ν K V) (name : τ)
    (change : Transaction K V → Except Fault (Reply K V × Transaction K V)) :
    Reply K V × Session τ ν K V :=
  match s.transaction? name with
  | none => (.unknown, s)
  | some t =>
    match change t with
    | .error fault => (.refused fault, s)
    | .ok (reply, t) => (reply, s.hold name t)

variable [DecidableEq ν]

def commit (s : Session τ ν K V) (name : τ) : Reply K V × Session τ ν K V :=
  match s.transaction? name with
  | none => (.unknown, s)
  | some t =>
    match s.store.commit t with
    | .error fault => (.refused fault, s)
    | .ok (changes, t, store) => (.committed changes, { s with store := store }.hold name t)

def signalling (s : Session τ ν K V)
    (change : Signal ν (K × V) (Snapshot K V) → Signal ν (K × V) (Snapshot K V)) : Session τ ν K V :=
  { s with store := { s.store with changed := change s.store.changed } }

variable [Std.TransOrd K] [BEq V]

def step (s : Session τ ν K V) : Op τ ν K V → Reply K V × Session τ ν K V
  | .start name => (.done, s.start name)
  | .set name key value => s.edit name fun t => return (.done, ← t.set key value)
  | .remove name key => s.edit name fun t => do
    let (present, t) ← t.remove key
    return (.flag present, t)
  | .tryRemove name key => s.edit name fun t =>
    let (present, t) := t.tryRemove key
    return (.flag present, t)
  | .revert name => s.edit name fun t => return (.done, ← t.revert)
  | .commit name => s.commit name
  | .drop name => (.done, s.drop name)
  | .subscribe name handler =>
    let (id, store) := s.store.subscribe name handler
    (.subscribed id, { s with store })
  | .disconnect name => (.done, s.signalling (·.disconnect name))
  | .detach name => (.done, s.signalling (·.detach name))
  | .count => (.counted s.store.changed.count.1, s.signalling (·.count.2))

def run (s : Session τ ν K V) (ops : List (Op τ ν K V)) : Session τ ν K V :=
  ops.foldl (fun s op => (s.step op).2) s

end Session

end VersionedMap
