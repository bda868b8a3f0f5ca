import VersionedMap.Walk
import Mathlib.Data.List.Basic

namespace VersionedMap

namespace Walk

variable {σ α : Type}

def after (next : σ → Option α × σ) : Nat → σ → σ
  | 0, s => s
  | steps + 1, s => after next steps (next s).2

/-- Any number of steps answers these items and then none. -/
def HandsOut (next : σ → Option α × σ) (s : σ) (items : List α) : Prop :=
  ∀ steps, take next steps s = (items.map some).takeD steps none

def Ends (next : σ → Option α × σ) (view : σ → List α) : Prop :=
  ∀ s, view s = [] → view (next s).2 = []

variable {next : σ → Option α × σ} {view : σ → List α}

theorem Yields.unique {s : σ} {items items' : List α} (h : Yields next s items) (h' : Yields next s items') :
    items = items' :=
  (h _ (Nat.le_max_left _ _)).symm.trans (h' _ (Nat.le_max_right _ _))

theorem Shows.head? (shows : Shows next view) (s : σ) : (next s).1 = (view s).head? := by
  rw [shows s]
  cases (next s).1 <;> rfl

theorem Shows.tail (shows : Shows next view) (ends : Ends next view) (s : σ) :
    view (next s).2 = (view s).tail := by
  have hs := shows s
  cases hanswer : (next s).1 with
  | none =>
      rw [hanswer] at hs
      rw [ends s hs, hs]
      rfl
  | some item =>
      rw [hanswer] at hs
      rw [hs]
      rfl

theorem Shows.after (shows : Shows next view) (ends : Ends next view) (steps : Nat) (s : σ) :
    view (Walk.after next steps s) = (view s).drop steps := by
  induction steps generalizing s with
  | zero => rfl
  | succ steps ih => rw [Walk.after, ih, shows.tail ends, List.drop_tail]

theorem Shows.handsOut (shows : Shows next view) (ends : Ends next view) (s : σ) : HandsOut next s (view s) := by
  intro steps
  induction steps generalizing s with
  | zero => rfl
  | succ steps ih =>
      have hanswer : (next s).1 = ((view s).map some).head?.getD none := by
        rw [shows.head?, List.head?_map]
        cases (view s).head? <;> rfl
      change (next s).1 :: take next steps (next s).2 = _
      rw [ih, shows.tail ends, List.takeD_succ, List.map_tail, hanswer]

end Walk

inductive End where
  | front
  | back
deriving DecidableEq, Repr

namespace End

variable {α : Type}

def take (items : List α) : End → Option α × List α
  | .front => (items.head?, items.tail)
  | .back => (items.getLast?, items.dropLast)

/-- Takes from one end after the other. The log has an answer for each, and the rest is what is left. -/
def takeAll (items : List α) : List End → List (End × Option α) × List α
  | [] => ([], items)
  | e :: ends =>
    let (item?, items) := e.take items
    let (log, left) := takeAll items ends
    ((e, item?) :: log, left)

def taken (e : End) (log : List (End × Option α)) : List α :=
  log.filterMap fun entry => if entry.1 = e then entry.2 else none

theorem taken_append (side : End) (log log' : List (End × Option α)) :
    taken side (log ++ log') = taken side log ++ taken side log' :=
  List.filterMap_append

theorem length_take (items : List α) (e : End) : (e.take items).2.length = items.length - 1 := by
  cases e with
  | front => exact List.length_tail
  | back => exact List.length_dropLast

theorem length_takeAll (items : List α) (ends : List End) :
    (takeAll items ends).2.length = items.length - ends.length := by
  induction ends generalizing items with
  | nil => rfl
  | cons e ends ih =>
      change (takeAll (e.take items).2 ends).2.length = _
      rw [ih, length_take, List.length_cons]
      omega

/-- What comes from the front, what is left and what comes from the back make up the items, if that is so once the
first of them is taken. -/
theorem take_parts (items : List α) (e : End) (log : List (End × Option α)) {left : List α}
    (h : taken .front log ++ left ++ (taken .back log).reverse = (e.take items).2) :
    taken .front ((e, (e.take items).1) :: log) ++ left ++ (taken .back ((e, (e.take items).1) :: log)).reverse =
      items := by
  cases e with
  | front =>
      have hback : taken .back ((front, (front.take items).1) :: log) = taken .back log := by simp [taken]
      rw [hback]
      cases items with
      | nil => simpa [taken, take] using h
      | cons item items =>
          rw [show taken .front ((front, (front.take (item :: items)).1) :: log) = item :: taken .front log from rfl,
            List.cons_append, List.cons_append, h]
          rfl
  | back =>
      have hfront : taken .front ((back, (back.take items).1) :: log) = taken .front log := by simp [taken]
      rw [hfront]
      rcases items.eq_nil_or_concat' with rfl | ⟨items, item, rfl⟩
      · simpa [taken, take] using h
      · have hlast : back.take (items ++ [item]) = (some item, items) := by simp [take]
        rw [hlast] at h ⊢
        rw [show taken .back ((back, some item) :: log) = item :: taken .back log from rfl, List.reverse_cons,
          ← List.append_assoc, h]

end End

end VersionedMap
