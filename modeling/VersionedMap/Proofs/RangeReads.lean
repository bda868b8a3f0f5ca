import VersionedMap.Session
import VersionedMap.Proofs.PlainMap
import VersionedMap.Proofs.WalkSteps

namespace VersionedMap

inductive Scan (K : Type) where
  | ascending
  | descending
  | atLeast (key : K)
  | atMost (key : K)

namespace Scan

variable {K α : Type} [Ord K]

/-- The part of ascending entries that a scan covers, in the scan's own order. -/
def covered (entries : List (K × α)) : Scan K → List (K × α)
  | ascending => entries
  | descending => entries.reverse
  | atLeast key => entries.filter (compare ·.1 key != .lt)
  | atMost key => (entries.filter (compare ·.1 key != .gt)).reverse

theorem length_covered_le (entries : List (K × α)) (scan : Scan K) :
    (scan.covered entries).length ≤ entries.length := by
  cases scan with
  | ascending => exact Nat.le_refl _
  | descending => exact Nat.le_of_eq List.length_reverse
  | atLeast key => exact List.length_filter_le _ _
  | atMost key =>
      rw [covered, List.length_reverse]
      exact List.length_filter_le _ _

end Scan

namespace Cursor

variable {K V : Type}

def pull (c : Cursor K V) : End → Option (K × V) × Cursor K V
  | .front => c.next
  | .back => c.nextBack

theorem length_toList (c : Cursor K V) : c.toList.length = c.length := by
  rw [toList, ← c.length_stretch]
  split
  · exact List.length_reverse
  · rfl

theorem pull_of_ended {c : Cursor K V} (hc : c.toList = []) (e : End) : c.pull e = (none, c) := by
  have hlength := c.length_toList
  rw [hc, List.length_nil, length] at hlength
  have hended : ¬ c.front < c.back := by omega
  cases e <;> simp only [pull, next, nextBack, takeFront, takeBack, dif_neg hended, ite_self]

theorem ends_toList : Walk.Ends (next (K := K) (V := V)) toList := by
  intro c hc
  have hnext : c.next = (none, c) := pull_of_ended hc .front
  rw [hnext]
  exact hc

theorem toList_reverse (c : Cursor K V) : c.reverse.toList = c.toList.reverse := by
  have hstretch : c.reverse.stretch = c.stretch := rfl
  rw [toList, toList, hstretch]
  cases hd : c.descending <;> simp [reverse, hd]

theorem next_reverse (c : Cursor K V) : c.reverse.next = (c.nextBack.1, c.nextBack.2.reverse) := by
  have hfront : c.reverse.takeFront = (c.takeFront.1, c.takeFront.2.reverse) := by
    by_cases hc : c.front < c.back
    · have hc' : c.reverse.front < c.reverse.back := hc
      rw [takeFront, takeFront, dif_pos hc', dif_pos hc]
      rfl
    · have hc' : ¬ c.reverse.front < c.reverse.back := hc
      rw [takeFront, takeFront, dif_neg hc', dif_neg hc]
  have hback : c.reverse.takeBack = (c.takeBack.1, c.takeBack.2.reverse) := by
    by_cases hc : c.front < c.back
    · have hc' : c.reverse.front < c.reverse.back := hc
      rw [takeBack, takeBack, dif_pos hc', dif_pos hc]
      rfl
    · have hc' : ¬ c.reverse.front < c.reverse.back := hc
      rw [takeBack, takeBack, dif_neg hc', dif_neg hc]
  rw [next, nextBack, hfront, hback]
  cases hd : c.descending <;> simp [reverse, hd]

theorem toList_pull (c : Cursor K V) (e : End) : ((c.pull e).1, (c.pull e).2.toList) = e.take c.toList := by
  cases e with
  | front => exact Prod.ext (shows_toList.head? c) (shows_toList.tail ends_toList c)
  | back =>
      have hhead := shows_toList.head? c.reverse
      have htail := shows_toList.tail ends_toList c.reverse
      rw [next_reverse, toList_reverse] at hhead htail
      refine Prod.ext (hhead.trans List.head?_reverse) ?_
      rwa [toList_reverse, List.tail_reverse, List.reverse_inj] at htail

/-- One cursor is left of another: on the same snapshot, and no further out at either end. -/
def Within (c' c : Cursor K V) : Prop :=
  c'.snapshot = c.snapshot ∧ c.front ≤ c'.front ∧ c'.back ≤ c.back

theorem within_pull (c : Cursor K V) (e : End) : (c.pull e).2.Within c := by
  have hfront : c.takeFront.2.Within c := by
    rw [takeFront]
    split
    · exact ⟨rfl, Nat.le_succ _, Nat.le_refl _⟩
    · exact ⟨rfl, Nat.le_refl _, Nat.le_refl _⟩
  have hback : c.takeBack.2.Within c := by
    rw [takeBack]
    split
    · exact ⟨rfl, Nat.le_refl _, Nat.sub_le _ _⟩
    · exact ⟨rfl, Nat.le_refl _, Nat.le_refl _⟩
  cases e with
  | front =>
      rw [pull, next]
      split <;> assumption
  | back =>
      rw [pull, nextBack]
      split <;> assumption

theorem Within.trans {c c' c'' : Cursor K V} (h' : c''.Within c') (h : c'.Within c) : c''.Within c :=
  ⟨h'.1.trans h.1, h.2.1.trans h'.2.1, h'.2.2.trans h.2.2⟩

end Cursor

inductive Move (τ ν K V : Type) where
  | pull (e : End)
  | meanwhile (op : Session.Op τ ν K V)

namespace Move

variable {τ ν K V : Type}

def end? : Move τ ν K V → Option End
  | pull e => some e
  | meanwhile _ => none

def op? : Move τ ν K V → Option (Session.Op τ ν K V)
  | pull _ => none
  | meanwhile op => some op

end Move

namespace Cursor

variable {τ ν K V : Type} [Ord K] [Std.TransOrd K] [DecidableEq τ] [DecidableEq ν] [BEq V]

def browse (s : Session τ ν K V) (c : Cursor K V) :
    List (Move τ ν K V) → List (End × Option (K × V)) × Session τ ν K V × Cursor K V
  | [] => ([], s, c)
  | .pull e :: moves =>
    let (item?, c) := c.pull e
    let (log, s, c) := browse s c moves
    ((e, item?) :: log, s, c)
  | .meanwhile op :: moves => browse (s.step op).2 c moves

/-- What reading `entries` through `c` from these ends comes to: the log, and the cursor thereafter. -/
structure Presents (c : Cursor K V) (entries : List (K × V)) (ends : List End) (log : List (End × Option (K × V)))
    (c' : Cursor K V) : Prop where
  answers : log = (End.takeAll entries ends).1
  left : c'.toList = (End.takeAll entries ends).2
  length : c'.length = c'.toList.length
  once : End.taken .front log ++ c'.toList ++ (End.taken .back log).reverse = entries
  within : c'.Within c
  bounds : c'.front ≤ c'.back ∧ c'.back ≤ c.snapshot.size
  ended : c'.toList = [] → ∀ e, c'.pull e = (none, c')

omit [Ord K] [Std.TransOrd K] [BEq V] in
theorem presents_nil (c : Cursor K V) : c.Presents c.toList [] [] c where
  answers := rfl
  left := rfl
  length := c.length_toList.symm
  once := by simp [End.taken]
  within := ⟨rfl, Nat.le_refl _, Nat.le_refl _⟩
  bounds := ⟨c.front_le_back, c.back_le_size⟩
  ended := pull_of_ended

omit [Ord K] [Std.TransOrd K] [BEq V] in
theorem Presents.pull {c c' : Cursor K V} {ends : List End} {log : List (End × Option (K × V))} (e : End)
    (h : (c.pull e).2.Presents (c.pull e).2.toList ends log c') :
    c.Presents c.toList (e :: ends) ((e, (c.pull e).1) :: log) c' := by
  have hpull := c.toList_pull e
  have hitem : (c.pull e).1 = (e.take c.toList).1 := congrArg Prod.fst hpull
  have hrest : (c.pull e).2.toList = (e.take c.toList).2 := congrArg Prod.snd hpull
  have hwithin := h.within.trans (c.within_pull e)
  rw [hrest] at h
  rw [hitem]
  refine ⟨?_, h.left, h.length, End.take_parts _ e log h.once, hwithin, ⟨h.bounds.1, ?_⟩, h.ended⟩
  · rw [h.answers]
    rfl
  · rw [← hwithin.1]
    exact c'.back_le_size

theorem browse_presents (s : Session τ ν K V) (c : Cursor K V) (moves : List (Move τ ν K V)) :
    ∃ log c', c.browse s moves = (log, s.run (moves.filterMap Move.op?), c') ∧
      c.Presents c.toList (moves.filterMap Move.end?) log c' := by
  induction moves generalizing s c with
  | nil => exact ⟨[], c, rfl, c.presents_nil⟩
  | cons move moves ih =>
      cases move with
      | pull e =>
          obtain ⟨log, c', hbrowse, hpresents⟩ := ih s (c.pull e).2
          refine ⟨(e, (c.pull e).1) :: log, c', ?_, hpresents.pull e⟩
          change ((e, (c.pull e).1) :: ((c.pull e).2.browse s moves).1, ((c.pull e).2.browse s moves).2) = _
          rw [hbrowse]
          rfl
      | meanwhile op => exact ih (s.step op).2 c

end Cursor

theorem Distinct.filter_sameKey {K V : Type} [Ord K] [Std.TransOrd K] {entries : List (K × V)}
    (h : Distinct entries) (q : K) : entries.filter (sameKey ·.1 q) = (entryAt entries q).toList := by
  induction entries with
  | nil => rfl
  | cons e entries ih =>
      rw [List.filter_cons, ih h.of_cons]
      by_cases hq : compare e.1 q = .eq
      · rw [if_pos (sameKey_iff.mpr hq), h.entryAt_tail hq, entryAt_cons_same hq]
        rfl
      · rw [if_neg (fun hsame => hq (sameKey_iff.mp hsame)), entryAt_cons_other hq]

namespace Snapshot

variable {τ ν K V : Type} [Ord K] {snap : Snapshot K V}

def scan (snap : Snapshot K V) : Scan K → Cursor K V
  | .ascending => .ascending snap
  | .descending => (Cursor.ascending snap).reverse
  | .atLeast key => .atLeast snap key
  | .atMost key => .atMost snap key

omit [Ord K] in
theorem toList_ascending (snap : Snapshot K V) : (Cursor.ascending snap).toList = snap.toList := by
  simp [Cursor.toList, Cursor.stretch, Cursor.ascending, toList, size, List.take_of_length_le]

variable [Std.TransOrd K]

theorem toList_scan (h : Ascending snap.toList) (scan : Scan K) :
    (snap.scan scan).toList = scan.covered snap.toList := by
  cases scan with
  | ascending => exact snap.toList_ascending
  | descending => exact (Cursor.toList_reverse _).trans (congrArg List.reverse snap.toList_ascending)
  | atLeast key => exact (Cursor.toList_atLeast h key).trans (h.dropWhile_below key)
  | atMost key => exact (Cursor.toList_atMost h key).trans (congrArg List.reverse (h.takeWhile_notAbove key))

variable [DecidableEq τ] [DecidableEq ν] [BEq V]

/-- A key leads to the one entry under it, if there is any, and a range to the entries in it. The range is read from
both ends as if nothing else happened, while a session goes on that may show the snapshot and replace it. -/
theorem reads_ranges (h : Ascending snap.toList) :
    (∀ q, (snap.lookup? q).toList = snap.toList.filter (sameKey ·.1 q)) ∧
      (∀ q, (snap.get? q).toList = (snap.toList.filter (sameKey ·.1 q)).map (·.2)) ∧
      ∀ (scan : Scan K) (s : Session τ ν K V) (moves : List (Move τ ν K V)),
        ∃ log c', (snap.scan scan).browse s moves = (log, s.run (moves.filterMap Move.op?), c') ∧
          (snap.scan scan).snapshot = snap ∧
          (snap.scan scan).Presents (scan.covered snap.toList) (moves.filterMap Move.end?) log c' := by
  refine ⟨fun q => ?_, fun q => ?_, fun scan s moves => ?_⟩
  · rw [h.distinct.filter_sameKey, lookup?_eq_entryAt h]
  · rw [h.distinct.filter_sameKey, get?_eq_entryAt h, Option.toList_map]
  · obtain ⟨log, c', hbrowse, hpresents⟩ := (snap.scan scan).browse_presents s moves
    rw [toList_scan h] at hpresents
    refine ⟨log, c', hbrowse, ?_, hpresents⟩
    cases scan <;> rfl

theorem reads_ranges_overtaken :
    let s : Session Nat Nat Nat Nat :=
      (Session.ofStore (Store.ofList [(1, 10), (3, 30), (5, 50)])).run [.start 1, .remove 1 1]
    let c := s.store.snapshot.scan (.atMost 4)
    let moves := [.pull .front, .meanwhile (.commit 1), .pull .back, .pull .front]
    Ascending s.store.snapshot.toList ∧
      (s.run [.commit 1]).store.snapshot.toList = [(3, 30), (5, 50)] ∧
      ∃ log c', c.browse s moves = (log, s.run [.commit 1], c') ∧
        log = [(.front, some (3, 30)), (.back, some (1, 10)), (.front, none)] ∧
        c.Presents [(3, 30), (1, 10)] [.front, .back, .front] log c' := by
  intro s c moves
  have hs : Ascending s.store.snapshot.toList := by decide +kernel
  have hcovered : Scan.covered s.store.snapshot.toList (.atMost 4) = [(3, 30), (1, 10)] := by decide +kernel
  obtain ⟨_, _, hscan⟩ := reads_ranges (τ := Nat) (ν := Nat) hs
  obtain ⟨log, c', hbrowse, _, hpresents⟩ := hscan (.atMost 4) s moves
  rw [hcovered] at hpresents
  exact ⟨hs, by decide +kernel, log, c', hbrowse, hpresents.answers, hpresents⟩

end Snapshot

end VersionedMap
