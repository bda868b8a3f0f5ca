import VersionedMap.Overlay
import VersionedMap.Walk

namespace VersionedMap

/-- A difference under way. Only the overlay is walked; each of its keys is looked up by a binary search
of the base entries from `start` on, and `queued` holds what the current key still has to report. -/
structure OverlayDiff (K V : Type) where
  base : Array (K × V)
  start : Nat
  ops : List (K × Pending V)
  queued : Changes (K × V)

namespace OverlayDiff

variable {K V : Type} [Ord K]

def locate (base : Array (K × V)) (start : Nat) (key : K) : Nat :=
  Bisect.partitionPoint (fun e => compare e.1 key == .lt) base start

omit [Ord K] in
def report (key : K) : Pending V → Option (K × V) → Changes (K × V)
  | .upserted value, some old => [.removed old, .added (key, value)]
  | .upserted value, none => [.added (key, value)]
  | .removed, some old => [.removed old]
  | .removed, none => []

def changes (base : Array (K × V)) (start : Nat) : List (K × Pending V) → Changes (K × V)
  | [] => []
  | (key, op) :: ops =>
    let place := locate base start key
    report key op (base[place]?.filter fun e => sameKey e.1 key) ++ changes base place ops

def advance (base : Array (K × V)) (start : Nat) :
    List (K × Pending V) → Option (Change (K × V)) × OverlayDiff K V
  | [] => (none, ⟨base, start, [], []⟩)
  | (key, op) :: ops =>
    let place := locate base start key
    match report key op (base[place]?.filter fun e => sameKey e.1 key) with
    | [] => advance base place ops
    | change :: queued => (some change, ⟨base, place, ops, queued⟩)

def next (d : OverlayDiff K V) : Option (Change (K × V)) × OverlayDiff K V :=
  match d.queued with
  | change :: queued => (some change, { d with queued := queued })
  | [] => advance d.base d.start d.ops

def toList (d : OverlayDiff K V) : Changes (K × V) :=
  d.queued ++ changes d.base d.start d.ops

theorem changes_advance (base : Array (K × V)) (start : Nat) (ops : List (K × Pending V)) :
    changes base start ops =
      (advance base start ops).1.elim [] (· :: (advance base start ops).2.toList) := by
  induction ops generalizing start with
  | nil => rfl
  | cons entry ops ih =>
    rw [changes, advance]
    split <;> rename_i reported <;> simp only [reported]
    · exact ih _
    · rfl

theorem shows_toList : Walk.Shows (next (K := K) (V := V)) toList := by
  intro d
  unfold next
  split <;> rename_i queued
  · simp [toList, queued]
  · rw [toList, queued]
    exact changes_advance d.base d.start d.ops

end OverlayDiff

namespace Overlay

variable {K V : Type} [Ord K]

def diff (o : Overlay K V) (base : Snapshot K V) : OverlayDiff K V :=
  ⟨base.entries, 0, o.ops.entries, []⟩

end Overlay

end VersionedMap
