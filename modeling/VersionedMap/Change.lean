namespace VersionedMap

inductive Operation where
  | added
  | removed
deriving DecidableEq, Repr, Ord

structure Change (α : Type) where
  op : Operation
  item : α
deriving DecidableEq, BEq, Repr

namespace Change

variable {α β : Type}

@[match_pattern]
abbrev added (item : α) : Change α :=
  ⟨.added, item⟩

@[match_pattern]
abbrev removed (item : α) : Change α :=
  ⟨.removed, item⟩

def isAdded (c : Change α) : Bool :=
  c.op == .added

def isRemoved (c : Change α) : Bool :=
  c.op == .removed

def map (f : α → β) (c : Change α) : Change β :=
  ⟨c.op, f c.item⟩

end Change

/-- A change set: what a commit reports and what subscribers receive. A value replaced under its key is
a removal of the old entry directly followed by an addition of the new one. -/
abbrev Changes (α : Type) := List (Change α)

namespace Changes

variable {α β : Type}

def populate (items : List α) : Changes α :=
  items.map .added

def additions (cs : Changes α) : List α :=
  (cs.filter Change.isAdded).map Change.item

def removals (cs : Changes α) : List α :=
  (cs.filter Change.isRemoved).map Change.item

def mapItems (f : α → β) (cs : Changes α) : Changes β :=
  cs.map (Change.map f)

end Changes

end VersionedMap
