import VersionedMap.Session

namespace VersionedMap.KeySet

variable {τ ν K : Type}

def keys (entries : List (K × Unit)) : List K :=
  entries.map (·.1)

def bare (changes : Changes (K × Unit)) : Changes K :=
  changes.mapItems (·.1)

variable [Ord K] [Std.TransOrd K]

def ofList (keys : List K) : Store ν K Unit :=
  Store.ofList (keys.map fun key => (key, ()))

omit [Ord K] [Std.TransOrd K] in
def text [Inspect K] (s : Store ν K Unit) : String :=
  Inspect.recordText "TransactionalSet"
    [("version", toString s.version), ("keys", Inspect.listText (keys s.snapshot.toList))]

/-- Adds `key` to a transaction, and answers whether it was absent. -/
def insert (t : Transaction K Unit) (key : K) : Except Fault (Bool × Transaction K Unit) := do
  let absent := !t.contains key
  let t ← t.set key ()
  return (absent, t)

inductive Op (τ ν K : Type) where
  | insert (name : τ) (key : K)
  | any (op : Session.Op τ ν K Unit)

variable [DecidableEq τ] [DecidableEq ν]

def step (s : Session τ ν K Unit) : Op τ ν K → Session.Reply K Unit × Session τ ν K Unit
  | .insert name key => s.edit name fun t => do
    let (absent, t) ← insert t key
    return (.flag absent, t)
  | .any op => s.step op

def run (s : Session τ ν K Unit) (ops : List (Op τ ν K)) : Session τ ν K Unit :=
  ops.foldl (fun s op => (step s op).2) s

end VersionedMap.KeySet
