import VersionedMap.Change
import VersionedMap.Walk

namespace VersionedMap

/-- A keyed difference under way. Entries are paired by key; a pair with unequal values is reported as a
removal of the old entry and, at the next step, an addition of the new one, which is `pending` until
then. -/
structure EntryDiff (K V : Type) where
  source : List (K × V)
  target : List (K × V)
  pending : Option (Change (K × V))

variable {K V : Type} [Ord K] [BEq V]

namespace EntryDiff

def start (source target : List (K × V)) : EntryDiff K V :=
  ⟨source, target, none⟩

def skipEqual : List (K × V) → List (K × V) → List (K × V) × List (K × V)
  | a :: source, b :: target =>
    if compare a.1 b.1 = .eq ∧ a.2 == b.2 then skipEqual source target
    else (a :: source, b :: target)
  | source, target => (source, target)

def next (d : EntryDiff K V) : Option (Change (K × V)) × EntryDiff K V :=
  match d.pending with
  | some change => (some change, { d with pending := none })
  | none =>
    match skipEqual d.source d.target with
    | ([], []) => (none, ⟨[], [], none⟩)
    | (a :: source, []) => (some (.removed a), ⟨source, [], none⟩)
    | ([], b :: target) => (some (.added b), ⟨[], target, none⟩)
    | (a :: source, b :: target) =>
      match compare a.1 b.1 with
      | .lt => (some (.removed a), ⟨source, b :: target, none⟩)
      | .gt => (some (.added b), ⟨a :: source, target, none⟩)
      | .eq => (some (.removed a), ⟨source, target, some (.added b)⟩)

def changes : List (K × V) → List (K × V) → Changes (K × V)
  | [], target => target.map .added
  | source, [] => source.map .removed
  | a :: source, b :: target =>
    match compare a.1 b.1 with
    | .lt => .removed a :: changes source (b :: target)
    | .gt => .added b :: changes (a :: source) target
    | .eq =>
      if a.2 == b.2 then changes source target
      else .removed a :: .added b :: changes source target
termination_by source target => source.length + target.length

def toList (d : EntryDiff K V) : Changes (K × V) :=
  d.pending.toList ++ changes d.source d.target

@[simp]
theorem changes_nil_left (target : List (K × V)) : changes [] target = target.map .added := by
  rw [changes]

@[simp]
theorem changes_nil_right (source : List (K × V)) : changes source [] = source.map .removed := by
  cases source <;> simp [changes]

theorem changes_skipEqual (source target : List (K × V)) :
    changes (skipEqual source target).1 (skipEqual source target).2 = changes source target := by
  fun_induction skipEqual source target with
  | case1 a source b target eq ih => rw [ih, changes, eq.1]; simp [eq.2]
  | case2 => rfl
  | case3 => rfl

theorem skipEqual_heads {source target source' target' : List (K × V)} {a b : K × V}
    (h : skipEqual source target = (a :: source', b :: target')) (same : compare a.1 b.1 = .eq) :
    (a.2 == b.2) = false := by
  fun_induction skipEqual source target with
  | case1 _ _ _ _ _ ih => exact ih h
  | case2 _ _ _ _ ne =>
    obtain ⟨⟨rfl, _⟩, rfl, _⟩ := by simpa using h
    simpa [same] using ne
  | case3 source target none =>
    obtain ⟨rfl, rfl⟩ := by simpa using h
    exact (none _ _ _ _ rfl rfl).elim

theorem shows_toList : Walk.Shows (next (K := K) (V := V)) toList := by
  intro d
  unfold next
  split <;> rename_i pending
  · simp [toList, pending]
  · rw [toList, pending, ← changes_skipEqual]
    split <;> rename_i skipped <;> rw [skipped]
    · simp
    · simp [toList]
    · simp [toList]
    · rename_i a source b target
      cases order : compare a.1 b.1 with
      | lt => simp [toList, changes, order]
      | eq => simp [toList, changes, order, skipEqual_heads skipped order]
      | gt => simp [toList, changes, order]

end EntryDiff

def diffEntries (source target : List (K × V)) : Changes (K × V) :=
  (EntryDiff.start source target).toList

end VersionedMap
