import VersionedMap.LinkedMap
import Mathlib.Data.List.Nodup
import Mathlib.Data.List.Range
import Mathlib.Data.List.Perm.Subperm

namespace VersionedMap

structure Cell (K V : Type) where
  slot : Nat
  key : K
  value : V

namespace Cell

variable {K V : Type}

def entry (c : Cell K V) : K × V :=
  (c.key, c.value)

def firstOr : List (Cell K V) → Option Nat → Option Nat
  | [], next? => next?
  | c :: _, _ => some c.slot

def lastOr : Option Nat → List (Cell K V) → Option Nat
  | prev?, [] => prev?
  | _, c :: cells => lastOr (some c.slot) cells

variable {slots slots' : Array (Option (Node K V))} {prev? next? : Option Nat}

@[simp] theorem firstOr_cons (c : Cell K V) (cells : List (Cell K V)) :
    firstOr (c :: cells) next? = some c.slot := rfl

@[simp] theorem lastOr_cons (c : Cell K V) (cells : List (Cell K V)) :
    lastOr prev? (c :: cells) = lastOr (some c.slot) cells := rfl

@[simp] theorem lastOr_nil : lastOr prev? ([] : List (Cell K V)) = prev? := rfl

@[simp] theorem firstOr_append (before after : List (Cell K V)) :
    firstOr (before ++ after) next? = firstOr before (firstOr after next?) := by
  cases before <;> rfl

@[simp] theorem lastOr_append (before after : List (Cell K V)) :
    lastOr prev? (before ++ after) = lastOr (lastOr prev? before) after := by
  induction before generalizing prev? with
  | nil => rfl
  | cons c before ih => exact ih

/-- The cells lie in their slots, each linked to the next and the one before. -/
def Chained (slots : Array (Option (Node K V))) :
    Option Nat → List (Cell K V) → Option Nat → Prop
  | _, [], _ => True
  | prev?, c :: cells, next? =>
    slots[c.slot]? = some (some ⟨c.key, c.value, prev?, firstOr cells next?⟩) ∧
      Chained slots (some c.slot) cells next?

theorem chained_append (before after : List (Cell K V)) :
    Chained slots prev? (before ++ after) next? ↔
      Chained slots prev? before (firstOr after next?) ∧ Chained slots (lastOr prev? before) after next? := by
  induction before generalizing prev? with
  | nil => simp [Chained, lastOr]
  | cons c before ih => simp [Chained, lastOr, ih, and_assoc]

theorem Chained.congr {cells : List (Cell K V)} (h : Chained slots prev? cells next?)
    (hs : ∀ c ∈ cells, slots'[c.slot]? = slots[c.slot]?) : Chained slots' prev? cells next? := by
  induction cells generalizing prev? with
  | nil => trivial
  | cons c cells ih =>
      obtain ⟨hc, hcells⟩ := h
      refine ⟨?_, ih hcells fun d hd => hs d (by simp [hd])⟩
      rw [hs c (by simp), hc]

theorem slot_ne_of_nodup {before after : List (Cell K V)} {c : Cell K V}
    (h : ((before ++ c :: after).map (·.slot)).Nodup) : ∀ d ∈ before ++ after, d.slot ≠ c.slot := by
  have hperm : ((before ++ c :: after).map (·.slot)).Perm (c.slot :: (before ++ after).map (·.slot)) :=
    List.perm_middle.map _
  have hc := (List.nodup_cons.1 (hperm.nodup h)).1
  exact fun d hd he => hc (List.mem_map.2 ⟨d, hd, he⟩)

end Cell

namespace LinkedMap

open Cell

variable {K V : Type} [BEq K] [Hashable K] {m m' : LinkedMap K V} {c : Cell K V}
  {before after cells : List (Cell K V)} {prev? next? : Option Nat}

def filled? (m : LinkedMap K V) (slot : Nat) : Option Bool :=
  m.slots[slot]?.map (·.isSome)

@[simp] theorem head?_write (m : LinkedMap K V) (slot : Nat) (node? : Option (Node K V)) :
    (m.write slot node?).head? = m.head? := rfl

@[simp] theorem tail?_write (m : LinkedMap K V) (slot : Nat) (node? : Option (Node K V)) :
    (m.write slot node?).tail? = m.tail? := rfl

theorem node_eq {slot : Nat} {node : Node K V} (h : m.slots[slot]? = some (some node)) :
    m.node slot = .ok node := by
  rw [LinkedMap.node, h]

theorem filled?_of_node {slot : Nat} {node : Node K V} (h : m.slots[slot]? = some (some node)) :
    m.filled? slot = some true := by
  rw [filled?, h]
  rfl

theorem filled?_eq_true {slot : Nat} : m.filled? slot = some true ↔ ∃ node, m.slots[slot]? = some (some node) := by
  rw [filled?]
  cases m.slots[slot]? with
  | none => simp
  | some node? => cases node? <;> simp

theorem slots_write {slot : Nat} {node : Node K V} (h : m.slots[slot]? = some (some node))
    (node? : Option (Node K V)) (other : Nat) :
    (m.write slot node?).slots[other]? = if slot = other then some node? else m.slots[other]? := by
  have hlt : slot < m.slots.size := by
    by_contra hge
    simp [Array.getElem?_eq_none (Nat.le_of_not_lt hge)] at h
  simp [write, Array.getElem?_setIfInBounds, hlt]

/-- Only the slots in `touched` are written, no entry comes or goes, and the index is left alone. -/
structure Rewrites (touched : List Nat) (m m' : LinkedMap K V) : Prop where
  index : m'.index = m.index
  free : m'.free = m.free
  filled : ∀ slot, m'.filled? slot = m.filled? slot
  others : ∀ slot, slot ∉ touched → m'.slots[slot]? = m.slots[slot]?

theorem rewrites_write {slot : Nat} {node : Node K V} (h : m.slots[slot]? = some (some node))
    (node' : Node K V) : Rewrites [slot] m (m.write slot (some node')) := by
  refine ⟨rfl, rfl, fun other => ?_, fun other ho => ?_⟩
  · rw [filled?, filled?, slots_write h]
    split
    · subst other
      simp [h]
    · rfl
  · rw [slots_write h, if_neg (by simpa [eq_comm] using ho)]

/-- A chain in two parts: the first one goes on at `next?`, and the second one comes from `prev?`. -/
structure Gap (m : LinkedMap K V) (before after : List (Cell K V)) (next? prev? : Option Nat) : Prop where
  head : m.head? = firstOr before next?
  tail : m.tail? = lastOr prev? after
  left : Chained m.slots none before next?
  right : Chained m.slots prev? after none

structure Linked (m : LinkedMap K V) (cells : List (Cell K V)) : Prop where
  head : m.head? = firstOr cells none
  tail : m.tail? = lastOr none cells
  chained : Chained m.slots none cells none

theorem gap_closed : Gap m before after (firstOr after none) (lastOr none before) ↔ Linked m (before ++ after) := by
  constructor
  · intro h
    exact ⟨by simpa using h.head, by simpa using h.tail, (chained_append _ _).2 ⟨h.left, h.right⟩⟩
  · intro h
    obtain ⟨hl, hr⟩ := (chained_append _ _).1 h.chained
    exact ⟨by simpa using h.head, by simpa using h.tail, hl, hr⟩

theorem linkAfter_gap (h : Gap m before after next? prev?)
    (hd : ((before ++ after).map (·.slot)).Nodup) (slot? : Option Nat) :
    ∃ m', m.linkAfter (lastOr none before) slot? = .ok m' ∧ Gap m' before after slot? prev? ∧
      Rewrites (before.map (·.slot)) m m' := by
  cases before using List.reverseRecOn with
  | nil => exact ⟨_, rfl, ⟨rfl, h.tail, trivial, h.right⟩, rfl, rfl, fun _ => rfl, fun _ _ => rfl⟩
  | append_singleton before c =>
      obtain ⟨hleft, hc, _⟩ := (chained_append _ _).1 h.left
      have hw := rewrites_write hc ⟨c.key, c.value, lastOr none before, slot?⟩
      have hsep : ∀ d ∈ before ++ after, d.slot ∉ [c.slot] := by
        rw [List.append_assoc] at hd
        simpa using slot_ne_of_nodup hd
      refine ⟨m.write c.slot (some ⟨c.key, c.value, lastOr none before, slot?⟩), ?_, ⟨?_, h.tail, ?_, ?_⟩, ?_⟩
      · rw [lastOr_append, lastOr_cons, lastOr_nil, linkAfter, node_eq hc]
        rfl
      · simpa using h.head
      · refine (chained_append _ _).2 ⟨?_, ?_, trivial⟩
        · exact hleft.congr fun d hm => hw.others d.slot (hsep d (by simp [hm]))
        · rw [slots_write hc, if_pos rfl]
          rfl
      · exact h.right.congr fun d hm => hw.others d.slot (hsep d (by simp [hm]))
      · exact ⟨hw.index, hw.free, hw.filled, fun slot hs => hw.others slot fun hm => hs (by simp_all)⟩

theorem linkBefore_gap (h : Gap m before after next? prev?)
    (hd : ((before ++ after).map (·.slot)).Nodup) (slot? : Option Nat) :
    ∃ m', m.linkBefore (firstOr after none) slot? = .ok m' ∧ Gap m' before after next? slot? ∧
      Rewrites (after.map (·.slot)) m m' := by
  cases after with
  | nil => exact ⟨_, rfl, ⟨h.head, rfl, h.left, trivial⟩, rfl, rfl, fun _ => rfl, fun _ _ => rfl⟩
  | cons c after =>
      obtain ⟨hc, hright⟩ := h.right
      have hw := rewrites_write hc ⟨c.key, c.value, slot?, firstOr after none⟩
      have hsep : ∀ d ∈ before ++ after, d.slot ∉ [c.slot] := by simpa using slot_ne_of_nodup hd
      refine ⟨m.write c.slot (some ⟨c.key, c.value, slot?, firstOr after none⟩), ?_, ⟨h.head, h.tail, ?_, ?_, ?_⟩, ?_⟩
      · rw [firstOr_cons, linkBefore, node_eq hc]
        rfl
      · exact h.left.congr fun d hm => hw.others d.slot (hsep d (by simp [hm]))
      · rw [slots_write hc, if_pos rfl]
      · exact hright.congr fun d hm => hw.others d.slot (hsep d (by simp [hm]))
      · exact ⟨hw.index, hw.free, hw.filled, fun slot hs => hw.others slot fun hm => hs (by simp_all)⟩

/-- The entries are linked in order, and every slot holds one of them or is free. -/
structure Stores (m : LinkedMap K V) (cells : List (Cell K V)) : Prop where
  linked : m.Linked cells
  apart : (cells.map (·.slot)).Nodup
  filled : ∀ slot, m.filled? slot = some true ↔ slot ∈ cells.map (·.slot)
  vacant : ∀ slot, slot ∈ m.free ↔ m.filled? slot = some false
  once : m.free.Nodup

theorem stores_empty : (empty : LinkedMap K V).Stores [] where
  linked := ⟨rfl, rfl, trivial⟩
  apart := .nil
  filled := by simp [filled?, empty]
  vacant := by simp [filled?, empty]
  once := .nil

theorem Stores.withIndex (h : m.Stores cells) (index : Std.HashMap K Nat) : Stores { m with index } cells :=
  ⟨⟨h.linked.head, h.linked.tail, h.linked.chained⟩, h.apart, h.filled, h.vacant, h.once⟩

theorem Stores.slots (h : m.Stores (before ++ c :: after)) :
    m.slots[c.slot]? = some (some ⟨c.key, c.value, lastOr none before, firstOr after none⟩) :=
  ((chained_append _ _).1 h.linked.chained).2.1

theorem Stores.length_le (h : m.Stores cells) : cells.length ≤ m.slots.size := by
  have hsub : cells.map (·.slot) ⊆ List.range m.slots.size := by
    intro slot hs
    obtain ⟨node, hn⟩ := filled?_eq_true.1 ((h.filled slot).2 hs)
    exact List.mem_range.2 (Array.getElem?_eq_some_iff.1 hn).1
  simpa using (h.apart.subperm hsub).length_le

theorem Stores.write (h : m.Stores (before ++ c :: after)) (value : V) :
    (m.write c.slot (some ⟨c.key, value, lastOr none before, firstOr after none⟩)).Stores
      (before ++ { c with value } :: after) := by
  obtain ⟨hleft, _, hright⟩ := (chained_append _ _).1 h.linked.chained
  have hw := rewrites_write h.slots ⟨c.key, value, lastOr none before, firstOr after none⟩
  have hsep : ∀ d ∈ before ++ after, d.slot ∉ [c.slot] := by simpa using slot_ne_of_nodup h.apart
  have hslots : (before ++ { c with value } :: after).map (·.slot) = (before ++ c :: after).map (·.slot) := by
    simp
  refine ⟨⟨?_, ?_, (chained_append _ _).2 ⟨?_, ?_, ?_⟩⟩, hslots ▸ h.apart, ?_, ?_, h.once⟩
  · simpa using h.linked.head
  · simpa using h.linked.tail
  · exact hleft.congr fun d hd => hw.others d.slot (hsep d (by simp [hd]))
  · rw [slots_write h.slots, if_pos rfl]
  · exact hright.congr fun d hd => hw.others d.slot (hsep d (by simp [hd]))
  · intro slot
    rw [hw.filled, hslots, h.filled]
  · intro slot
    rw [hw.filled]
    exact h.vacant slot

theorem Stores.opened (h : m.Stores (before ++ c :: after)) :
    (m.write c.slot none).Gap before after (some c.slot) (some c.slot) := by
  obtain ⟨hleft, _, hright⟩ := (chained_append _ _).1 h.linked.chained
  have hkept : ∀ d ∈ before ++ after, (m.write c.slot none).slots[d.slot]? = m.slots[d.slot]? := by
    intro d hd
    rw [slots_write h.slots, if_neg (Ne.symm (slot_ne_of_nodup h.apart d hd))]
  refine ⟨?_, ?_, ?_, ?_⟩
  · simpa using h.linked.head
  · simpa using h.linked.tail
  · exact hleft.congr fun d hd => hkept d (List.mem_append_left _ hd)
  · exact hright.congr fun d hd => hkept d (List.mem_append_right _ hd)

theorem Stores.unlink (h : m.Stores (before ++ c :: after)) :
    ∃ m', m.unlink c.slot = .ok (c.entry, m') ∧ m'.Stores (before ++ after) ∧ m'.index = m.index := by
  have hsep := slot_ne_of_nodup h.apart
  have hapart : ((before ++ after).map (·.slot)).Nodup :=
    h.apart.sublist (((List.sublist_cons_self c after).append_left before).map _)
  have hslots := slots_write h.slots none
  -- the neighbours are linked past the slot, first the one before and then the next
  obtain ⟨m₁, hok₁, hgap₁, hr₁⟩ := linkAfter_gap h.opened hapart (firstOr after none)
  obtain ⟨m₂, hok₂, hgap₂, hr₂⟩ := linkBefore_gap hgap₁ hapart (lastOr none before)
  have hfilled : ∀ slot, m₂.filled? slot = if c.slot = slot then some false else m.filled? slot := by
    intro slot
    rw [hr₂.filled, hr₁.filled, filled?, filled?, hslots]
    split <;> rfl
  have hfree : m₂.free = m.free := hr₂.free.trans hr₁.free
  have hc : m.filled? c.slot = some true := filled?_of_node h.slots
  have hclosed := gap_closed.1 hgap₂
  refine ⟨{ m₂ with free := c.slot :: m₂.free }, ?_, ⟨⟨hclosed.head, hclosed.tail, hclosed.chained⟩, hapart, ?_, ?_, ?_⟩, hr₂.index.trans hr₁.index⟩
  · rw [LinkedMap.unlink, node_eq h.slots]
    simp only [bind, Except.bind, hok₁, hok₂]
    rfl
  · intro slot
    change m₂.filled? slot = some true ↔ _
    rw [hfilled]
    split
    · subst slot
      refine iff_of_false (by simp) fun hm => ?_
      obtain ⟨d, hd, he⟩ := List.mem_map.1 hm
      exact hsep d hd he
    · rw [h.filled]
      simp_all [eq_comm]
  · intro slot
    change slot ∈ c.slot :: m₂.free ↔ m₂.filled? slot = some false
    rw [hfilled, List.mem_cons, hfree, h.vacant]
    split
    · simp_all
    · simp_all [eq_comm]
  · rw [hfree]
    refine List.nodup_cons.2 ⟨fun hf => ?_, h.once⟩
    simp [(h.vacant _).1 hf] at hc

structure Places (node : Node K V) (slot : Nat) (m m' : LinkedMap K V) : Prop where
  fresh : m.filled? slot ≠ some true
  here : m'.slots[slot]? = some (some node)
  others : ∀ other, other ≠ slot → m'.slots[other]? = m.slots[other]?
  free : ∀ other, other ∈ m'.free ↔ other ∈ m.free ∧ other ≠ slot
  once : m'.free.Nodup
  index : m'.index = m.index
  head : m'.head? = m.head?
  tail : m'.tail? = m.tail?

theorem Stores.places (h : m.Stores cells) (node : Node K V) :
    ∃ slot m', m.place node = (slot, m') ∧ m.Places node slot m' := by
  rw [place]
  split
  case h_1 slot free hfree =>
      have hvacant : m.filled? slot = some false := (h.vacant slot).1 (by simp [hfree])
      have hlt : slot < m.slots.size := by
        by_contra hge
        simp [filled?, Array.getElem?_eq_none (Nat.le_of_not_lt hge)] at hvacant
      have hnodup := hfree ▸ h.once
      refine ⟨_, _, rfl, by simp [hvacant], ?_, ?_, ?_, (List.nodup_cons.1 hnodup).2, rfl, rfl, rfl⟩
      · simp [LinkedMap.write, hlt]
      · intro other ho
        simp [LinkedMap.write, Ne.symm ho]
      · intro other
        have hne := (List.nodup_cons.1 hnodup).1
        simp only [hfree, List.mem_cons]
        grind
  case h_2 hfree =>
      refine ⟨_, _, rfl, by simp [filled?], by simp, ?_, by simp [hfree], h.once, rfl, rfl, rfl⟩
      intro other ho
      simp [Array.getElem?_push, ho]

theorem Stores.append (h : m.Stores cells) (key : K) (value : V) : ∃ slot placed linked,
    m.place ⟨key, value, m.tail?, none⟩ = (slot, placed) ∧
      placed.linkAfter m.tail? (some slot) = .ok linked ∧ linked.index = m.index ∧
      ∀ index, Stores { linked with tail? := some slot, index } (cells ++ [⟨slot, key, value⟩]) := by
  obtain ⟨slot, placed, hplace, hp⟩ := h.places ⟨key, value, m.tail?, none⟩
  have hfresh : slot ∉ cells.map (·.slot) := fun hm => hp.fresh ((h.filled slot).2 hm)
  have hne : ∀ d ∈ cells, d.slot ≠ slot := fun d hd he => hfresh (List.mem_map.2 ⟨d, hd, he⟩)
  have hgap : placed.Gap cells [] none (lastOr none cells) := by
    refine ⟨hp.head.trans h.linked.head, hp.tail.trans h.linked.tail, ?_, trivial⟩
    exact h.linked.chained.congr fun d hd => hp.others d.slot (hne d hd)
  obtain ⟨linked, hok, hgap', hr⟩ := linkAfter_gap hgap (by simpa using h.apart) (some slot)
  have hfilled : ∀ other, linked.filled? other = if other = slot then some true else m.filled? other := by
    intro other
    rw [hr.filled]
    split
    · subst other
      exact filled?_of_node hp.here
    · rw [filled?, filled?, hp.others other ‹_›]
  refine ⟨slot, placed, linked, hplace, h.linked.tail ▸ hok, hr.index.trans hp.index, fun index => ?_⟩
  refine ⟨⟨?_, ?_, (chained_append _ _).2 ⟨hgap'.left, ?_, trivial⟩⟩, ?_, ?_, ?_, ?_⟩
  · simpa using hgap'.head
  · simp
  · change linked.slots[slot]? = _
    rw [hr.others slot hfresh, hp.here, h.linked.tail]
    rfl
  · rw [List.map_append]
    refine List.nodup_append.2 ⟨h.apart, List.nodup_singleton _, ?_⟩
    rintro a ha b hb rfl
    have hslot : a = slot := List.mem_singleton.1 hb
    exact hfresh (hslot ▸ ha)
  · intro other
    change linked.filled? other = some true ↔ _
    rw [hfilled, List.map_append, List.mem_append, ← h.filled]
    split
    · simp_all
    · simp_all
  · intro other
    change other ∈ linked.free ↔ linked.filled? other = some false
    rw [hfilled, hr.free, hp.free, h.vacant]
    split
    · simp_all
    · simp_all
  · exact hr.free ▸ hp.once

end LinkedMap

end VersionedMap
