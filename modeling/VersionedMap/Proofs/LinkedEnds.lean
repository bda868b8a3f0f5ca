import VersionedMap.Proofs.LinkedReads
import VersionedMap.Proofs.WalkSteps

namespace VersionedMap

namespace Cell

variable {K V : Type}

theorem firstOr_none (cells : List (Cell K V)) : firstOr cells none = (cells.map (·.slot)).head? := by
  cases cells <;> rfl

theorem lastOr_none (cells : List (Cell K V)) : lastOr none cells = (cells.map (·.slot)).getLast? := by
  cases cells using List.reverseRecOn with
  | nil => rfl
  | append_singleton cells c => simp

end Cell

namespace LinkedWalk

open Cell

variable {K V : Type} {w : LinkedWalk K V} {cells left : List (Cell K V)} {log : List (End × Option (K × V))}

def take (w : LinkedWalk K V) : End → Option (K × V) × LinkedWalk K V
  | .front => w.next
  | .back => w.nextBack

def takeAll (w : LinkedWalk K V) : List End → List (End × Option (K × V)) × LinkedWalk K V
  | [] => ([], w)
  | e :: ends =>
    let (item?, w) := w.take e
    let (log, w) := w.takeAll ends
    ((e, item?) :: log, w)

theorem take_of_ended (h : w.remaining = 0) (e : End) : w.take e = (none, w) := by
  cases e with
  | front => exact next_of_ended h
  | back => exact nextBack_of_ended h

def Reaches (cells : List (Cell K V)) (log : List (End × Option (K × V))) (w : LinkedWalk K V) (left : List (Cell K V)) :
    Prop :=
  ∃ before after, cells = before ++ (left ++ after) ∧
    w.Stretches (lastOr none before) left (firstOr after none) ∧
    before.map entry = End.taken .front log ∧ (after.map entry).reverse = End.taken .back log

theorem Reaches.take (h : Reaches cells log w left) (e : End) : ∃ left',
    ((w.take e).1, left'.map entry) = e.take (left.map entry) ∧
      Reaches cells (log ++ [(e, (w.take e).1)]) (w.take e).2 left' := by
  obtain ⟨before, after, hcells, hw, hbefore, hafter⟩ := h
  by_cases hleft : left = []
  · subst left
    rw [take_of_ended hw.remaining]
    refine ⟨[], by cases e <;> rfl, before, after, hcells, hw, ?_, ?_⟩
    · simpa [End.taken_append, End.taken] using hbefore
    · simpa [End.taken_append, End.taken] using hafter
  · cases e with
    | front =>
        obtain ⟨c, left, rfl⟩ := List.exists_cons_of_ne_nil hleft
        obtain ⟨hitem, hrest⟩ := hw.next
        rw [LinkedWalk.take, hitem]
        refine ⟨left, rfl, before ++ [c], after, by simp [hcells], by simpa using hrest, ?_, ?_⟩
        · rw [End.taken_append, List.map_append, hbefore]
          rfl
        · simpa [End.taken_append, End.taken] using hafter
    | back =>
        obtain ⟨left, c, rfl⟩ := (List.eq_nil_or_concat' left).resolve_left hleft
        obtain ⟨hitem, hrest⟩ := hw.nextBack
        rw [LinkedWalk.take, hitem]
        refine ⟨left, by simp [End.take], before, c :: after, by simp [hcells], hrest, ?_, ?_⟩
        · simpa [End.taken_append, End.taken] using hbefore
        · rw [End.taken_append, List.map_cons, List.reverse_cons, hafter]
          rfl

theorem Reaches.takeAll (h : Reaches cells log w left) (ends : List End) : ∃ left',
    ((w.takeAll ends).1, left'.map entry) = End.takeAll (left.map entry) ends ∧
      Reaches cells (log ++ (w.takeAll ends).1) (w.takeAll ends).2 left' := by
  induction ends generalizing w log left with
  | nil => exact ⟨left, rfl, by simpa [LinkedWalk.takeAll] using h⟩
  | cons e ends ih =>
      obtain ⟨left₁, hitem, h₁⟩ := h.take e
      obtain ⟨left₂, hlog, h₂⟩ := ih h₁
      refine ⟨left₂, ?_, ?_⟩
      · rw [End.takeAll, ← hitem]
        dsimp only
        rw [← hlog]
        rfl
      · rw [List.append_assoc] at h₂
        exact h₂

/-- What taking `entries`, which lie along `path`, from these ends comes to: the log, and the walk thereafter. -/
structure Meets (entries : List (K × V)) (path : List Nat) (ends : List End) (log : List (End × Option (K × V)))
    (w : LinkedWalk K V) : Prop where
  answers : log = (End.takeAll entries ends).1
  left : w.toList = (End.takeAll entries ends).2
  once : End.taken .front log ++ w.toList ++ (End.taken .back log).reverse = entries
  length : w.remaining = w.toList.length
  uncut : w.remaining = entries.length - ends.length
  /-- Each end points behind what was taken from there, also where that is past the other end. -/
  front : w.front? = path[(End.taken .front log).length]?
  back : w.back? = path.reverse[(End.taken .back log).length]?
  ended : w.remaining = 0 → ∀ e, w.take e = (none, w)

theorem Reaches.meets (h : Reaches cells log w left) {ends : List End}
    (hlog : (log, left.map entry) = End.takeAll (cells.map entry) ends) :
    Meets (cells.map entry) (cells.map (·.slot)) ends log w := by
  obtain ⟨before, after, hcells, hw, hbefore, hafter⟩ := h
  have hanswers : log = (End.takeAll (cells.map entry) ends).1 := congrArg Prod.fst hlog
  have hleft : left.map entry = (End.takeAll (cells.map entry) ends).2 := congrArg Prod.snd hlog
  have hlist : w.toList = left.map entry := (spans_iff.2 ⟨_, _, hw⟩).toList
  constructor
  case answers => exact hanswers
  case left => rw [hlist, hleft]
  case once =>
    rw [hlist, ← hbefore, ← hafter, List.reverse_reverse, hcells, List.map_append, List.map_append, List.append_assoc]
  case length => rw [hlist, List.length_map, hw.remaining]
  case uncut => rw [← End.length_takeAll, ← hleft, List.length_map, hw.remaining]
  case front =>
    have hpath : cells.map (·.slot) = before.map (·.slot) ++ (left ++ after).map (·.slot) := by simp [hcells]
    have hcount : (End.taken .front log).length = (before.map (·.slot)).length := by simp [← hbefore]
    rw [hw.front, ← firstOr_append, firstOr_none, hpath, hcount, ← List.head?_drop, List.drop_left]
  case back =>
    have hpath : (cells.map (·.slot)).reverse =
        (after.map (·.slot)).reverse ++ ((before ++ left).map (·.slot)).reverse := by simp [hcells]
    have hcount : (End.taken .back log).length = (after.map (·.slot)).reverse.length := by simp [← hafter]
    rw [hw.back, ← lastOr_append, lastOr_none, hpath, hcount, ← List.head?_drop, List.drop_left, List.head?_reverse]
  case ended => exact take_of_ended

end LinkedWalk

namespace LinkedMap

open Cell LinkedWalk

variable {K V σ : Type} [BEq K] [Hashable K] {m : LinkedMap K V} {cells : List (Cell K V)}

theorem Holds.reaches (h : m.Holds cells) : Reaches cells [] m.walk cells := by
  refine ⟨[], [], by simp, ⟨?_, ?_, h.keyed.size, ?_⟩, rfl, rfl⟩
  · exact h.stores.linked.head
  · exact h.stores.linked.tail
  · exact h.stores.linked.chained

theorem Holds.entryAt?_slot (h : m.Holds cells) {c : Cell K V} (hc : c ∈ cells) :
    m.entryAt? (some c.slot) = .ok (some c.entry) := by
  obtain ⟨before, after, rfl⟩ := List.append_of_mem hc
  exact entryAt?_some h.stores.slots

variable [EquivBEq K] [LawfulHashable K]

/-- Whatever was done with a linked map, a walk hands out its entries from both ends, in whatever order these take turns:
each entry once, from the first on and from the last back, until none is left. It says at every moment how many are left,
and from then on answers none at either end. -/
theorem walks_from_both_ends (ops : List (Op K V σ)) : ∃ m path,
    (empty : LinkedMap K V).run ops = .ok ((Arrivals.run [] ops).1, m) ∧ m.WellFormed path ∧
      path.map (fun slot => m.entryAt? (some slot)) = (Arrivals.run [] ops).2.map (fun e => .ok (some e)) ∧
      ∀ ends, ∃ log w, m.walk.takeAll ends = (log, w) ∧ Meets (Arrivals.run [] ops).2 path ends log w := by
  have hempty : (empty : LinkedMap K V).Holds [] := holds_empty
  obtain ⟨m, cells, hok, hm, hcells⟩ := hempty.run ops
  rw [List.map_nil] at hok hcells
  rw [← hcells]
  refine ⟨m, cells.map (·.slot), hok, hm.wellFormed, ?_, fun ends => ⟨_, _, rfl, ?_⟩⟩
  · rw [List.map_map, List.map_map]
    exact List.map_congr_left fun c hc => hm.entryAt?_slot hc
  · obtain ⟨left, hlog, hreaches⟩ := hm.reaches.takeAll ends
    exact hreaches.meets hlog

theorem walks_from_both_ends_crossing :
    let ops : List (Op Nat Nat Nat) :=
      [.insert 1 10, .insert 2 20, .insert 3 30, .remove 2, .insert 4 40, .retain (fun n _ v => (n, v + 1, v != 10)) 0,
        .extend [(5, 50), (6, 60)]]
    ∃ m path, (empty : LinkedMap Nat Nat).run ops = .ok ((Arrivals.run [] ops).1, m) ∧ m.WellFormed path ∧
      ∃ log w, m.walk.takeAll [.front, .back, .back, .front, .back, .front] = (log, w) ∧
        log = [(.front, some (3, 31)), (.back, some (6, 60)), (.back, some (5, 50)), (.front, some (4, 41)),
          (.back, none), (.front, none)] ∧
        w.front? = path[2]? ∧ w.back? = path.reverse[2]? ∧ ∀ e, w.take e = (none, w) := by
  intro ops
  obtain ⟨m, path, hok, hm, _, hwalks⟩ := walks_from_both_ends ops
  have hentries : (Arrivals.run [] ops).2 = [(3, 31), (4, 41), (5, 50), (6, 60)] := by decide
  obtain ⟨log, w, htaken, hmeets⟩ := hwalks [.front, .back, .back, .front, .back, .front]
  rw [hentries] at hmeets
  obtain rfl : log = _ := hmeets.answers
  exact ⟨m, path, hok, hm, _, w, htaken, rfl, hmeets.front, hmeets.back, hmeets.ended hmeets.uncut⟩

end LinkedMap

end VersionedMap
