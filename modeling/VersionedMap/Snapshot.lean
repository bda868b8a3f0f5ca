import VersionedMap.Bisect
import VersionedMap.EntryDiff
import VersionedMap.Fault

namespace VersionedMap

/-- Entries in strictly ascending key order, which the binary searches rely on, and the number of the
commit that produced them. -/
structure Snapshot (K V : Type) where
  entries : Array (K × V)
  version : Nat

namespace Snapshot

variable {K V : Type}

def empty : Snapshot K V :=
  ⟨#[], 0⟩

instance : Inhabited (Snapshot K V) := ⟨empty⟩

def toList (s : Snapshot K V) : List (K × V) :=
  s.entries.toList

def size (s : Snapshot K V) : Nat :=
  s.entries.size

def isEmpty (s : Snapshot K V) : Bool :=
  s.entries.isEmpty

def first? (s : Snapshot K V) : Option (K × V) :=
  s.entries[0]?

def last? (s : Snapshot K V) : Option (K × V) :=
  s.entries.back?

variable [Ord K]

/-- The position of the first entry whose key is not below `key`. -/
def lowerBound (s : Snapshot K V) (key : K) : Nat :=
  Bisect.partitionPoint (fun e => compare e.1 key == .lt) s.entries 0

def upperBound (s : Snapshot K V) (key : K) : Nat :=
  Bisect.partitionPoint (fun e => compare e.1 key != .gt) s.entries 0

theorem lowerBound_le (s : Snapshot K V) (key : K) : s.lowerBound key ≤ s.size :=
  Bisect.partitionPoint_le _ _ (Nat.zero_le _)

theorem upperBound_le (s : Snapshot K V) (key : K) : s.upperBound key ≤ s.size :=
  Bisect.partitionPoint_le _ _ (Nat.zero_le _)

def lookup? (s : Snapshot K V) (key : K) : Option (K × V) :=
  s.entries[s.lowerBound key]?.filter fun e => sameKey e.1 key

def get? (s : Snapshot K V) (key : K) : Option V :=
  (s.lookup? key).map (·.2)

def contains (s : Snapshot K V) (key : K) : Bool :=
  (s.lookup? key).isSome

def get (s : Snapshot K V) (key : K) : Except Fault V :=
  match s.get? key with
  | some value => .ok value
  | none => .error .keyNotFound

def diff [BEq V] (s t : Snapshot K V) : Changes (K × V) :=
  diffEntries s.toList t.toList

/-- Snapshots are equal by content: the same keys with equal values. The version does not count. -/
instance [BEq V] : BEq (Snapshot K V) :=
  ⟨fun s t => s.toList.isEqv t.toList fun a b => sameKey a.1 b.1 && a.2 == b.2⟩

def disorder? (entries : List (K × V)) : Option Nat :=
  ((entries.zip entries.tail).findIdx? fun e => compare e.1.1 e.2.1 != .lt).map (· + 1)

def ofEntries? (entries : List (K × V)) : Except Nat (Snapshot K V) :=
  match disorder? entries with
  | some index => .error index
  | none => .ok ⟨entries.toArray, 0⟩

section Lookup

variable [Std.TransOrd K] {s : Snapshot K V}

theorem below_turns (ascending : Ascending s.toList) (key : K) :
    s.entries.toList.Pairwise fun a b => compare b.1 key == .lt → compare a.1 key == .lt :=
  ascending.imp fun lt below => by simpa using Std.TransCmp.lt_trans lt (by simpa using below)

theorem notAbove_turns (ascending : Ascending s.toList) (key : K) :
    s.entries.toList.Pairwise fun a b => compare b.1 key != .gt → compare a.1 key != .gt :=
  ascending.imp fun lt notAbove => by
    have := Std.TransCmp.lt_of_lt_of_isLE lt (Ordering.isLE_iff_ne_gt.2 (by simpa using notAbove))
    simp [this]

theorem drop_lowerBound (ascending : Ascending s.toList) (key : K) :
    s.toList.drop (s.lowerBound key) = s.toList.dropWhile fun e => compare e.1 key == .lt :=
  Bisect.drop_partitionPoint (below_turns ascending key)

theorem take_upperBound (ascending : Ascending s.toList) (key : K) :
    s.toList.take (s.upperBound key) = s.toList.takeWhile fun e => compare e.1 key != .gt :=
  Bisect.take_partitionPoint (notAbove_turns ascending key)

theorem find?_of_ascending {entries : List (K × V)} (ascending : Ascending entries) (key : K) :
    entries.find? (sameKey ·.1 key) =
      (entries.dropWhile fun e => compare e.1 key == .lt).head?.filter fun e => sameKey e.1 key := by
  induction entries with
  | nil => rfl
  | cons head rest ih =>
    obtain ⟨below, tail⟩ := List.pairwise_cons.1 ascending
    rw [List.find?_cons, List.dropWhile_cons]
    cases order : compare head.1 key with
    | lt => simpa [sameKey, order] using ih tail
    | eq => simp [sameKey, order, Option.filter]
    | gt =>
      have absent : ∀ e ∈ rest, compare e.1 key ≠ .eq := fun e mem same => by
        have above := below e mem
        simp [Std.TransCmp.congr_right same, order] at above
      simpa [sameKey, order, Option.filter] using absent

/-- The binary search finds what a search from the front finds. -/
theorem lookup?_eq_find? (ascending : Ascending s.toList) (key : K) :
    s.lookup? key = s.toList.find? (sameKey ·.1 key) := by
  rw [find?_of_ascending ascending, ← drop_lowerBound ascending, List.head?_drop, toList,
    Array.getElem?_toList]
  rfl

end Lookup

instance [Inspect K] [Inspect V] : Inspect (Snapshot K V) := ⟨fun s => Inspect.mapText s.toList⟩

end Snapshot

end VersionedMap
