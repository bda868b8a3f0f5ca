import VersionedMap.Snapshot
import VersionedMap.Walk

namespace VersionedMap

/-- The entries from position `front` up to position `back`, which is not included; a descending cursor
starts with the last of them. It holds its snapshot, so later commits do not touch it. -/
structure Cursor (K V : Type) where
  snapshot : Snapshot K V
  front : Nat
  back : Nat
  descending : Bool
  front_le_back : front ≤ back
  back_le_size : back ≤ snapshot.size

namespace Cursor

variable {K V : Type}

def ascending (s : Snapshot K V) : Cursor K V :=
  ⟨s, 0, s.size, false, Nat.zero_le _, Nat.le_refl _⟩

def reverse (c : Cursor K V) : Cursor K V :=
  { c with descending := !c.descending }

def atLeast [Ord K] (s : Snapshot K V) (key : K) : Cursor K V :=
  ⟨s, s.lowerBound key, s.size, false, s.lowerBound_le key, Nat.le_refl _⟩

def atMost [Ord K] (s : Snapshot K V) (key : K) : Cursor K V :=
  ⟨s, 0, s.upperBound key, true, Nat.zero_le _, s.upperBound_le key⟩

def length (c : Cursor K V) : Nat :=
  c.back - c.front

/-- The entries from front to back, whatever the direction. -/
def stretch (c : Cursor K V) : List (K × V) :=
  (c.snapshot.toList.take c.back).drop c.front

def toList (c : Cursor K V) : List (K × V) :=
  if c.descending then c.stretch.reverse else c.stretch

def takeFront (c : Cursor K V) : Option (K × V) × Cursor K V :=
  if h : c.front < c.back then
    have inside : c.front < c.snapshot.entries.size := Nat.lt_of_lt_of_le h c.back_le_size
    (some c.snapshot.entries[c.front],
      { c with front := c.front + 1, front_le_back := h })
  else
    (none, c)

def takeBack (c : Cursor K V) : Option (K × V) × Cursor K V :=
  if h : c.front < c.back then
    have inside : c.back - 1 < c.snapshot.entries.size :=
      Nat.lt_of_lt_of_le (Nat.sub_one_lt_of_lt h) c.back_le_size
    (some c.snapshot.entries[c.back - 1],
      { c with
        back := c.back - 1
        front_le_back := Nat.le_sub_one_of_lt h
        back_le_size := Nat.le_of_lt inside })
  else
    (none, c)

def next (c : Cursor K V) : Option (K × V) × Cursor K V :=
  if c.descending then c.takeBack else c.takeFront

def nextBack (c : Cursor K V) : Option (K × V) × Cursor K V :=
  if c.descending then c.takeFront else c.takeBack

theorem length_stretch (c : Cursor K V) : c.stretch.length = c.length := by
  have := c.back_le_size
  simp only [stretch, length, Snapshot.size, Snapshot.toList] at *
  simp
  omega

theorem stretch_takeFront (c : Cursor K V) :
    c.stretch = c.takeFront.1.elim [] (· :: c.takeFront.2.stretch) := by
  unfold takeFront
  split <;> rename_i h
  · have inside : c.front < (c.snapshot.toList.take c.back).length := by
      have := c.back_le_size
      simp only [Snapshot.size, Snapshot.toList] at *
      simp
      omega
    rw [stretch, List.drop_eq_getElem_cons inside]
    simp [stretch, Snapshot.toList]
  · have := length_stretch c
    rw [length, Nat.sub_eq_zero_of_le (Nat.le_of_not_lt h)] at this
    simpa using this

theorem stretch_takeBack (c : Cursor K V) :
    c.stretch.reverse = c.takeBack.1.elim [] (· :: c.takeBack.2.stretch.reverse) := by
  unfold takeBack
  split <;> rename_i h
  · have inside : c.back - 1 < c.snapshot.toList.length := by
      have := c.back_le_size
      simp only [Snapshot.size, Snapshot.toList, Array.length_toList] at *
      omega
    have last : c.snapshot.toList.take c.back =
        c.snapshot.toList.take (c.back - 1) ++ [c.snapshot.toList[c.back - 1]] := by
      rw [List.take_append_getElem inside, Nat.sub_add_cancel (Nat.zero_lt_of_lt h)]
    have front : c.front ≤ (c.snapshot.toList.take (c.back - 1)).length := by
      rw [List.length_take]
      omega
    rw [stretch, last, List.drop_append_of_le_length front]
    simp [stretch, Snapshot.toList]
  · have := length_stretch c
    rw [length, Nat.sub_eq_zero_of_le (Nat.le_of_not_lt h)] at this
    simpa using this

theorem shows_toList : Walk.Shows (next (K := K) (V := V)) toList := by
  intro c
  unfold next toList
  split
  · rw [stretch_takeBack]
    unfold takeBack
    split <;> simp_all
  · rw [stretch_takeFront]
    unfold takeFront
    split <;> simp_all

section Ranges

variable [Ord K] [Std.TransOrd K] {s : Snapshot K V}

theorem toList_atLeast (sorted : Ascending s.toList) (key : K) :
    (atLeast s key).toList = s.toList.dropWhile fun e => compare e.1 key == .lt := by
  rw [← Snapshot.drop_lowerBound sorted]
  simp [toList, stretch, atLeast, Snapshot.toList, Snapshot.size, List.take_of_length_le]

theorem toList_atMost (sorted : Ascending s.toList) (key : K) :
    (atMost s key).toList = (s.toList.takeWhile fun e => compare e.1 key != .gt).reverse := by
  rw [← Snapshot.take_upperBound sorted]
  simp [toList, stretch, atMost]

end Ranges

end Cursor

end VersionedMap
