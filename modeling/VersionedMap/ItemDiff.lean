import VersionedMap.Change
import VersionedMap.Walk

namespace VersionedMap

/-- A difference under way: a merge that reads both sides once, from the left. Items that compare equal
are skipped in pairs, the smaller of two others is reported. Nothing is asked of the comparison or of
the sequences. -/
structure ItemDiff (α : Type) where
  order : α → α → Ordering
  source : List α
  target : List α

namespace ItemDiff

variable {α : Type}

def skipEqual (order : α → α → Ordering) : List α → List α → List α × List α
  | a :: source, b :: target =>
    if order a b = .eq then skipEqual order source target else (a :: source, b :: target)
  | source, target => (source, target)

def next (d : ItemDiff α) : Option (Change α) × ItemDiff α :=
  match skipEqual d.order d.source d.target with
  | ([], []) => (none, { d with source := [], target := [] })
  | (a :: source, []) => (some (.removed a), { d with source := source, target := [] })
  | ([], b :: target) => (some (.added b), { d with source := [], target := target })
  | (a :: source, b :: target) =>
    if d.order a b = .lt then
      (some (.removed a), { d with source := source, target := b :: target })
    else
      (some (.added b), { d with source := a :: source, target := target })

/-- Bounds on the number of changes still to come: any two items may turn out equal. -/
def sizeHint (d : ItemDiff α) : Nat × Nat :=
  (0, d.source.length + d.target.length)

def changes (order : α → α → Ordering) : List α → List α → Changes α
  | [], target => target.map .added
  | source, [] => source.map .removed
  | a :: source, b :: target =>
    match order a b with
    | .lt => .removed a :: changes order source (b :: target)
    | .gt => .added b :: changes order (a :: source) target
    | .eq => changes order source target
termination_by source target => source.length + target.length

def toList (d : ItemDiff α) : Changes α :=
  changes d.order d.source d.target

@[simp]
theorem changes_nil_left (order : α → α → Ordering) (target : List α) :
    changes order [] target = target.map .added := by
  rw [changes]

@[simp]
theorem changes_nil_right (order : α → α → Ordering) (source : List α) :
    changes order source [] = source.map .removed := by
  cases source <;> simp [changes]

theorem changes_skipEqual (order : α → α → Ordering) (source target : List α) :
    changes order (skipEqual order source target).1 (skipEqual order source target).2 =
      changes order source target := by
  fun_induction skipEqual order source target with
  | case1 a source b target eq ih => rw [ih, changes, eq]
  | case2 => rfl
  | case3 => rfl

theorem skipEqual_heads {order : α → α → Ordering} {source target source' target' : List α} {a b : α}
    (h : skipEqual order source target = (a :: source', b :: target')) : order a b ≠ .eq := by
  fun_induction skipEqual order source target with
  | case1 _ _ _ _ _ ih => exact ih h
  | case2 _ _ _ _ ne =>
    obtain ⟨⟨rfl, _⟩, rfl, _⟩ := by simpa using h
    exact ne
  | case3 source target none =>
    obtain ⟨rfl, rfl⟩ := by simpa using h
    exact (none _ _ _ _ rfl rfl).elim

theorem shows_toList : Walk.Shows (next (α := α)) toList := by
  intro d
  rw [toList, ← changes_skipEqual]
  unfold next
  split <;> rename_i skipped <;> rw [skipped]
  · simp
  · simp [toList]
  · simp [toList]
  · rename_i a source b target
    have differ := skipEqual_heads skipped
    cases order : d.order a b with
    | lt => simp [toList, changes, order]
    | eq => exact absurd order differ
    | gt => simp [toList, changes, order]

end ItemDiff

def diffBy {α : Type} (order : α → α → Ordering) (source target : List α) : Changes α :=
  ItemDiff.changes order source target

def diff {α : Type} [Ord α] (source target : List α) : Changes α :=
  diffBy compare source target

end VersionedMap
