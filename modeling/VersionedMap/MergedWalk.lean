import VersionedMap.Overlay
import VersionedMap.Cursor
import VersionedMap.Walk

namespace VersionedMap

structure MergedWalk (K V : Type) where
  descending : Bool
  base : List (K × V)
  ops : List (K × Pending V)
  /-- An upper bound on the operations left. It starts at the size of the whole overlay, since the part
  of it that is in range is not counted beforehand. -/
  opsBound : Nat
  opsEnded : Bool

namespace MergedWalk

variable {K V : Type} [Ord K]

def order (descending : Bool) (a b : K) : Ordering :=
  if descending then compare b a else compare a b

def before (descending : Bool) (key : K) (entry : K × V) : Bool :=
  order descending entry.1 key == .lt

def dropShadowed (descending : Bool) (key : K) : List (K × V) → List (K × V)
  | [] => []
  | entry :: base => if order descending entry.1 key = .eq then base else entry :: base

/-- The merged entries in order: an upsert shadows the base's entry under its key, a removal suppresses
it. -/
def merge (descending : Bool) (base : List (K × V)) : List (K × Pending V) → List (K × V)
  | [] => base
  | (key, op) :: ops =>
    let rest := dropShadowed descending key (base.dropWhile (before descending key))
    base.takeWhile (before descending key) ++
      match op with
      | .upserted value => (key, value) :: merge descending rest ops
      | .removed => merge descending rest ops

/-- The step of a walk over `base` and `ops`. An operation is used up whether it yields an entry or
not, and a removal goes on to the next entry. -/
def advance (descending : Bool) (bound : Nat) (ended : Bool) (base : List (K × V)) :
    List (K × Pending V) → Option (K × V) × MergedWalk K V
  | [] => (base.head?, ⟨descending, base.tail, [], bound, true⟩)
  | (key, op) :: ops =>
    if base.head?.any (before descending key) then
      (base.head?, ⟨descending, base.tail, (key, op) :: ops, bound, ended⟩)
    else
      let rest := dropShadowed descending key base
      match op with
      | .upserted value => (some (key, value), ⟨descending, rest, ops, bound - 1, ended⟩)
      | .removed => advance descending (bound - 1) ended rest ops

def next (w : MergedWalk K V) : Option (K × V) × MergedWalk K V :=
  advance w.descending w.opsBound w.opsEnded w.base w.ops

def toList (w : MergedWalk K V) : List (K × V) :=
  merge w.descending w.base w.ops

theorem merge_advance (descending : Bool) (bound : Nat) (ended : Bool) (base : List (K × V))
    (ops : List (K × Pending V)) :
    merge descending base ops =
      (advance descending bound ended base ops).1.elim []
        (· :: (advance descending bound ended base ops).2.toList) := by
  induction ops generalizing bound base with
  | nil => cases base <;> simp [merge, advance, toList]
  | cons entry ops ih =>
    obtain ⟨key, op⟩ := entry
    cases base with
    | nil =>
      cases op with
      | upserted => simp [merge, advance, dropShadowed, toList]
      | removed => simpa [merge, advance, dropShadowed] using ih (bound - 1) []
    | cons head base =>
      by_cases first : before descending key head
      · cases op <;> simp [merge, advance, first, toList]
      · cases op with
        | upserted => simp [merge, advance, first, toList]
        | removed => simpa [merge, advance, first] using ih (bound - 1) _

theorem shows_toList : Walk.Shows (next (K := K) (V := V)) toList := fun w =>
  merge_advance w.descending w.opsBound w.opsEnded w.base w.ops

omit [Ord K] in
def sizeHint (w : MergedWalk K V) : Nat × Nat :=
  let ops := if w.opsEnded then 0 else w.opsBound
  (w.base.length - ops, w.base.length + ops)

end MergedWalk

namespace Overlay

variable {K V : Type} [Ord K]

def ascending (o : Overlay K V) (base : Snapshot K V) : MergedWalk K V :=
  ⟨false, base.toList, o.ops.entries, o.size, false⟩

def descending (o : Overlay K V) (base : Snapshot K V) : MergedWalk K V :=
  ⟨true, base.toList.reverse, o.ops.entries.reverse, o.size, false⟩

def atLeast (o : Overlay K V) (base : Snapshot K V) (key : K) : MergedWalk K V :=
  ⟨false, (Cursor.atLeast base key).toList, o.ops.atLeast key, o.size, false⟩

def atMost (o : Overlay K V) (base : Snapshot K V) (key : K) : MergedWalk K V :=
  ⟨true, (Cursor.atMost base key).toList, (o.ops.atMost key).reverse, o.size, false⟩

end Overlay

end VersionedMap
