import Std.Data.HashMap

namespace VersionedMap

structure Node (K V : Type) where
  key : K
  value : V
  prev? : Option Nat
  next? : Option Nat

/-- Something led to a slot that holds no entry. That is a fault of the structure itself, and every
operation says so instead of inventing an entry. -/
structure Dangling where
  slot : Nat
deriving DecidableEq, Repr

/-- A map that keeps its entries in the order in which the keys were first inserted. The entries live in
slots, linked in both directions; an index leads from a key to its slot, and the slots in `free` are
used again, the first one next. -/
structure LinkedMap (K V : Type) [BEq K] [Hashable K] where
  index : Std.HashMap K Nat
  slots : Array (Option (Node K V))
  free : List Nat
  head? : Option Nat
  tail? : Option Nat

namespace LinkedMap

variable {K V σ : Type} [BEq K] [Hashable K]

def empty : LinkedMap K V :=
  ⟨∅, #[], [], none, none⟩

instance : Inhabited (LinkedMap K V) := ⟨empty⟩

def size (m : LinkedMap K V) : Nat :=
  m.index.size

def isEmpty (m : LinkedMap K V) : Bool :=
  m.index.isEmpty

def contains (m : LinkedMap K V) (key : K) : Bool :=
  m.index.contains key

def node (m : LinkedMap K V) (slot : Nat) : Except Dangling (Node K V) :=
  match m.slots[slot]? with
  | some (some node) => .ok node
  | _ => .error ⟨slot⟩

def write (m : LinkedMap K V) (slot : Nat) (node? : Option (Node K V)) : LinkedMap K V :=
  { m with slots := m.slots.setIfInBounds slot node? }

def linkAfter (m : LinkedMap K V) (prev? slot? : Option Nat) : Except Dangling (LinkedMap K V) :=
  match prev? with
  | none => .ok { m with head? := slot? }
  | some prev => return m.write prev (some { ← m.node prev with next? := slot? })

def linkBefore (m : LinkedMap K V) (next? slot? : Option Nat) : Except Dangling (LinkedMap K V) :=
  match next? with
  | none => .ok { m with tail? := slot? }
  | some next => return m.write next (some { ← m.node next with prev? := slot? })

def place (m : LinkedMap K V) (node : Node K V) : Nat × LinkedMap K V :=
  match m.free with
  | slot :: free => (slot, { m.write slot (some node) with free })
  | [] => (m.slots.size, { m with slots := m.slots.push (some node) })

def unlink (m : LinkedMap K V) (slot : Nat) : Except Dangling ((K × V) × LinkedMap K V) := do
  let node ← m.node slot
  let m ← (m.write slot none).linkAfter node.prev? node.next?
  let m ← m.linkBefore node.next? node.prev?
  return ((node.key, node.value), { m with free := slot :: m.free })

def get? (m : LinkedMap K V) (key : K) : Except Dangling (Option V) :=
  match m.index[key]? with
  | none => .ok none
  | some slot => return some (← m.node slot).value

def replace (m : LinkedMap K V) (key : K) (value : V) : Except Dangling (Option V × LinkedMap K V) :=
  match m.index[key]? with
  | none => .ok (none, m)
  | some slot => do
    let node ← m.node slot
    return (some node.value, m.write slot (some { node with value }))

/-- Sets the value under `key`. A new key goes to the end; a key that is there keeps its place and its
spelling, and its value before is answered. -/
def insert (m : LinkedMap K V) (key : K) (value : V) : Except Dangling (Option V × LinkedMap K V) :=
  if m.contains key then
    m.replace key value
  else do
    let (slot, placed) := m.place ⟨key, value, m.tail?, none⟩
    let linked ← placed.linkAfter m.tail? (some slot)
    return (none, { linked with tail? := some slot, index := linked.index.insert key slot })

def remove (m : LinkedMap K V) (key : K) : Except Dangling (Option V × LinkedMap K V) :=
  match m.index[key]? with
  | none => .ok (none, m)
  | some slot => do
    let (entry, m) ← { m with index := m.index.erase key }.unlink slot
    return (some entry.2, m)

def popAt (m : LinkedMap K V) (slot? : Option Nat) : Except Dangling (Option (K × V) × LinkedMap K V) :=
  match slot? with
  | none => .ok (none, m)
  | some slot => do
    let (entry, m) ← m.unlink slot
    return (some entry, { m with index := m.index.erase entry.1 })

def popFront (m : LinkedMap K V) : Except Dangling (Option (K × V) × LinkedMap K V) :=
  m.popAt m.head?

def popBack (m : LinkedMap K V) : Except Dangling (Option (K × V) × LinkedMap K V) :=
  m.popAt m.tail?

def entryAt? (m : LinkedMap K V) (slot? : Option Nat) : Except Dangling (Option (K × V)) :=
  slot?.mapM fun slot => do
    let node ← m.node slot
    return (node.key, node.value)

def first? (m : LinkedMap K V) : Except Dangling (Option (K × V)) :=
  m.entryAt? m.head?

def last? (m : LinkedMap K V) : Except Dangling (Option (K × V)) :=
  m.entryAt? m.tail?

/-- Visits at most `steps` entries from a slot on. The visitor sees an entry, answers its new value and
whether it stays, and carries a state along. -/
def retainFrom (visit : σ → K → V → σ × V × Bool) :
    Nat → Option Nat → σ → LinkedMap K V → Except Dangling (σ × LinkedMap K V)
  | _, none, state, m => .ok (state, m)
  | 0, some slot, _, _ => .error ⟨slot⟩
  | steps + 1, some slot, state, m => do
    let node ← m.node slot
    let (state, value, stays) := visit state node.key node.value
    let m := m.write slot (some { node with value })
    if stays then
      retainFrom visit steps node.next? state m
    else
      let (entry, m) ← m.unlink slot
      retainFrom visit steps node.next? state { m with index := m.index.erase entry.1 }

def retain (visit : σ → K → V → σ × V × Bool) (state : σ) (m : LinkedMap K V) :
    Except Dangling (σ × LinkedMap K V) :=
  retainFrom visit m.slots.size m.head? state m

def update (visit : σ → K → V → σ × V) (state : σ) (m : LinkedMap K V) :
    Except Dangling (σ × LinkedMap K V) :=
  m.retain (fun state key value => ((visit state key value).1, (visit state key value).2, true)) state

def extend (m : LinkedMap K V) (entries : List (K × V)) : Except Dangling (LinkedMap K V) :=
  entries.foldlM (fun m e => return (← m.insert e.1 e.2).2) m

def ofList (entries : List (K × V)) : Except Dangling (LinkedMap K V) :=
  empty.extend entries

end LinkedMap

end VersionedMap
