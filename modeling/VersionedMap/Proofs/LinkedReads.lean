import VersionedMap.Keys
import VersionedMap.LinkedWalk
import VersionedMap.Proofs.LinkedOrder

namespace VersionedMap

namespace LinkedWalk

open Cell

variable {K V : Type} {w : LinkedWalk K V} {cells : List (Cell K V)} {prev? next? : Option Nat}

/-- The entries left come from `prev?` and go on at `next?`, and the two ends are the first and the last of them. -/
structure Stretches (w : LinkedWalk K V) (prev? : Option Nat) (cells : List (Cell K V)) (next? : Option Nat) : Prop where
  front : w.front? = firstOr cells next?
  back : w.back? = lastOr prev? cells
  remaining : w.remaining = cells.length
  chained : Chained w.slots prev? cells next?

theorem next_of_ended (h : w.remaining = 0) : w.next = (none, w) :=
  if_pos h

theorem nextBack_of_ended (h : w.remaining = 0) : w.nextBack = (none, w) :=
  if_pos h

theorem Stretches.next {c : Cell K V} (h : w.Stretches prev? (c :: cells) next?) :
    w.next.1 = some c.entry ∧ w.next.2.Stretches (some c.slot) cells next? := by
  obtain ⟨hc, hcells⟩ := h.chained
  have hnode : w.node? w.front? = some ⟨c.key, c.value, prev?, firstOr cells next?⟩ := by
    simp [node?, h.front, hc]
  have hnext : w.next = (some c.entry, { w with front? := firstOr cells next?, remaining := cells.length }) := by
    simp [LinkedWalk.next, h.remaining, hnode, entry]
  rw [hnext]
  exact ⟨rfl, rfl, h.back, rfl, hcells⟩

theorem Stretches.nextBack {c : Cell K V} (h : w.Stretches prev? (cells ++ [c]) next?) :
    w.nextBack.1 = some c.entry ∧ w.nextBack.2.Stretches prev? cells (some c.slot) := by
  obtain ⟨hcells, hc, _⟩ := (chained_append _ _).1 h.chained
  have hnode : w.node? w.back? = some ⟨c.key, c.value, lastOr prev? cells, next?⟩ := by
    simp [node?, h.back, hc, firstOr]
  have hnext : w.nextBack =
      (some c.entry, { w with back? := lastOr prev? cells, remaining := cells.length }) := by
    simp [LinkedWalk.nextBack, h.remaining, hnode, entry]
  rw [hnext]
  exact ⟨rfl, by simpa using h.front, rfl, rfl, hcells⟩

def Spans (w : LinkedWalk K V) (cells : List (Cell K V)) : Prop :=
  ∃ prev? next?, w.front? = firstOr cells next? ∧ w.back? = lastOr prev? cells ∧
    w.remaining = cells.length ∧ Chained w.slots prev? cells next?

theorem spans_iff : w.Spans cells ↔ ∃ prev? next?, w.Stretches prev? cells next? :=
  ⟨fun ⟨prev?, next?, hfront, hback, hleft, hchain⟩ => ⟨prev?, next?, hfront, hback, hleft, hchain⟩,
    fun ⟨prev?, next?, h⟩ => ⟨prev?, next?, h.front, h.back, h.remaining, h.chained⟩⟩

theorem Spans.next (h : w.Spans cells) :
    w.next.1 = (cells.map entry).head? ∧ w.next.2.Spans cells.tail := by
  obtain ⟨prev?, next?, hw⟩ := spans_iff.1 h
  cases cells with
  | nil =>
      rw [next_of_ended hw.remaining]
      exact ⟨rfl, h⟩
  | cons c cells =>
      obtain ⟨hitem, hrest⟩ := hw.next
      exact ⟨hitem, spans_iff.2 ⟨_, _, hrest⟩⟩

theorem Spans.nextBack (h : w.Spans cells) :
    w.nextBack.1 = (cells.map entry).getLast? ∧ w.nextBack.2.Spans cells.dropLast := by
  obtain ⟨prev?, next?, hw⟩ := spans_iff.1 h
  cases cells using List.reverseRecOn with
  | nil =>
      rw [nextBack_of_ended hw.remaining]
      exact ⟨rfl, h⟩
  | append_singleton cells c =>
      obtain ⟨hitem, hrest⟩ := hw.nextBack
      rw [List.dropLast_concat]
      exact ⟨by simp [hitem], spans_iff.2 ⟨_, _, hrest⟩⟩

def pull (w : LinkedWalk K V) : List Bool → List (Option (K × V))
  | [] => []
  | true :: sides => w.next.1 :: w.next.2.pull sides
  | false :: sides => w.nextBack.1 :: w.nextBack.2.pull sides

theorem Spans.pull (h : w.Spans cells) (sides : List Bool) :
    w.pull sides = Arrivals.pull (cells.map entry) sides := by
  induction sides generalizing w cells with
  | nil => rfl
  | cons side sides ih =>
      cases side with
      | true =>
          obtain ⟨hitem, hrest⟩ := h.next
          rw [LinkedWalk.pull, Arrivals.pull, hitem, ih hrest, List.map_tail]
      | false =>
          obtain ⟨hitem, hrest⟩ := h.nextBack
          rw [LinkedWalk.pull, Arrivals.pull, hitem, ih hrest, List.map_dropLast]

theorem Spans.toList (h : w.Spans cells) : w.toList = cells.map entry := by
  have hleft : w.remaining = cells.length := by
    obtain ⟨_, _, _, _, hleft, _⟩ := h
    exact hleft
  rw [LinkedWalk.toList, hleft]
  clear hleft
  induction cells generalizing w with
  | nil => rfl
  | cons c cells ih =>
      obtain ⟨hitem, hrest⟩ := h.next
      rw [List.length_cons, Walk.drain]
      cases hw : w.next with
      | mk item? w' =>
          rw [hw] at hitem hrest
          cases hitem
          exact congrArg (c.entry :: ·) (ih hrest)

end LinkedWalk

namespace LinkedMap

open Cell

variable {K V σ : Type} [BEq K] [Hashable K] {m : LinkedMap K V} {cells : List (Cell K V)}

/-- Following `link` from a slot on visits these slots and then ends. -/
def Follows (m : LinkedMap K V) (link : Node K V → Option Nat) : Option Nat → List Nat → Prop
  | slot?, [] => slot? = none
  | slot?, slot :: path =>
    slot? = some slot ∧ ∃ node, m.slots[slot]? = some (some node) ∧ m.Follows link (link node) path

/-- The index leads to the entries and to nothing else, the free slots are those without an entry, and
the links visit the entries along `path` and back. -/
structure WellFormed (m : LinkedMap K V) (path : List Nat) : Prop where
  index : ∀ key slot, m.index[key]? = some slot ↔
    ∃ node : Node K V, m.slots[slot]? = some (some node) ∧ (node.key == key) = true
  free : ∀ slot, slot ∈ m.free ↔ m.slots[slot]? = some none
  once : m.free.Nodup
  visits : ∀ slot, slot ∈ path ↔ ∃ node, m.slots[slot]? = some (some node)
  distinct : path.Nodup
  forth : m.Follows (·.next?) m.head? path
  back : m.Follows (·.prev?) m.tail? path.reverse
  ends : m.tail? = path.getLast?

theorem follows_next {prev? : Option Nat} (h : Chained m.slots prev? cells none) :
    m.Follows (·.next?) (firstOr cells none) (cells.map (·.slot)) := by
  induction cells generalizing prev? with
  | nil => rfl
  | cons c cells ih => exact ⟨rfl, _, h.1, ih h.2⟩

theorem follows_prev {next? : Option Nat} (h : Chained m.slots none cells next?) :
    m.Follows (·.prev?) (lastOr none cells) (cells.map (·.slot)).reverse := by
  induction cells using List.reverseRecOn generalizing next? with
  | nil => rfl
  | append_singleton cells c ih =>
      obtain ⟨hcells, hc, _⟩ := (chained_append _ _).1 h
      rw [List.map_append, List.reverse_append, lastOr_append]
      exact ⟨rfl, _, hc, ih hcells⟩

theorem Holds.spans (h : m.Holds cells) : m.walk.Spans cells :=
  ⟨none, none, h.stores.linked.head, h.stores.linked.tail, h.keyed.size, h.stores.linked.chained⟩

theorem entryAt?_some {slot : Nat} {node : Node K V} (h : m.slots[slot]? = some (some node)) :
    m.entryAt? (some slot) = .ok (some (node.key, node.value)) := by
  simp only [entryAt?, Option.mapM_some, node_eq h, bind_ok]
  rfl

theorem first?_eq (h : m.Holds cells) : m.first? = .ok (cells.map entry).head? := by
  have hchain := h.stores.linked.chained
  rw [first?, h.stores.linked.head]
  cases cells with
  | nil => rfl
  | cons c cells => exact entryAt?_some hchain.1

theorem last?_eq (h : m.Holds cells) : m.last? = .ok (cells.map entry).getLast? := by
  have hchain := h.stores.linked.chained
  rw [last?, h.stores.linked.tail]
  cases cells using List.reverseRecOn with
  | nil => rfl
  | append_singleton cells c =>
      obtain ⟨_, hc, _⟩ := (chained_append _ _).1 hchain
      simp [entryAt?_some hc, entry]

variable [EquivBEq K]

theorem Holds.index (h : m.Holds cells) (key : K) (slot : Nat) : m.index[key]? = some slot ↔
    ∃ node : Node K V, m.slots[slot]? = some (some node) ∧ (node.key == key) = true := by
  constructor
  · intro hslot
    rcases h.keyed.find key with ⟨hnone, _⟩ | ⟨before, c, after, rfl, hk, hc⟩
    · simp [hnone] at hslot
    · cases hslot.symm.trans hc
      exact ⟨_, h.stores.slots, hk⟩
  · rintro ⟨node, hnode, hk⟩
    obtain ⟨c, hc, rfl⟩ := List.mem_map.1 ((h.stores.filled slot).1 (filled?_of_node hnode))
    obtain ⟨before, after, rfl⟩ := List.append_of_mem hc
    cases h.stores.slots.symm.trans hnode
    have hothers := key_ne_of_distinct h.keyed.distinct hk
    have hbefore : before.find? (·.key == key) = none :=
      List.find?_eq_none.2 fun d hd => by simp [hothers d (by simp [hd])]
    rw [h.keyed.lookup]
    simp [hbefore, hk]

theorem Holds.wellFormed (h : m.Holds cells) : m.WellFormed (cells.map (·.slot)) where
  index := h.index
  free slot := by
    rw [h.stores.vacant, filled?]
    cases m.slots[slot]? with
    | none => simp
    | some node? => cases node? <;> simp
  once := h.stores.once
  visits slot := by rw [← h.stores.filled, filled?_eq_true]
  distinct := h.stores.apart
  forth := h.stores.linked.head ▸ follows_next h.stores.linked.chained
  back := h.stores.linked.tail ▸ follows_prev h.stores.linked.chained
  ends := by
    rw [h.stores.linked.tail]
    cases cells using List.reverseRecOn with
    | nil => rfl
    | append_singleton cells c => simp

/-- All that can be read is read off a list of entries. -/
structure Reads (m : LinkedMap K V) (entries : List (K × V)) : Prop where
  get : ∀ key, m.get? key = .ok (Arrivals.get? entries key)
  contains : ∀ key, m.contains key = entries.any (·.1 == key)
  size : m.size = entries.length
  isEmpty : m.isEmpty = entries.isEmpty
  first : m.first? = .ok entries.head?
  last : m.last? = .ok entries.getLast?
  toList : m.toList = entries
  pull : ∀ sides, m.walk.pull sides = Arrivals.pull entries sides

variable [LawfulHashable K]

theorem Holds.reads (h : m.Holds cells) : m.Reads (cells.map entry) where
  get := get?_eq h
  contains := contains_eq h
  size := by simp [size, h.keyed.size]
  isEmpty := by
    rw [isEmpty, Std.HashMap.isEmpty_eq_size_eq_zero, h.keyed.size]
    cases cells <;> rfl
  first := first?_eq h
  last := last?_eq h
  toList := h.spans.toList
  pull := h.spans.pull

omit [EquivBEq K] [LawfulHashable K] in
theorem beq_eq [BEq V] {n : LinkedMap K V} {entries entries' : List (K × V)} (hm : m.Reads entries)
    (hn : n.Reads entries') : (m == n) = (entries == entries') := by
  change (m.size == n.size && m.toList == n.toList) = _
  rw [hm.size, hn.size, hm.toList, hn.toList]
  cases h : entries == entries' with
  | false => exact Bool.and_false _
  | true => rw [Bool.and_true, beq_iff_eq, List.length_eq_of_beq h]

/-- Whatever is done with a linked map, it is as good as a list of entries with distinct keys, in which a
new key goes to the end, a key that is there keeps its place and its spelling, and removals leave the
others in order: no operation fails, all answer what the list answers, the slots stay well-formed, and
the list is all that can be read. -/
theorem run_eq_arrivals [BEq V] (ops : List (Op K V σ)) : ∃ m path,
    (empty : LinkedMap K V).run ops = .ok ((Arrivals.run [] ops).1, m) ∧ m.WellFormed path ∧
      (Arrivals.run [] ops).2.Pairwise (fun e e' => (e.1 == e'.1) = false) ∧
      m.Reads (Arrivals.run [] ops).2 ∧
      ∀ ops' : List (Op K V σ), ∃ n, (empty : LinkedMap K V).run ops' = .ok ((Arrivals.run [] ops').1, n) ∧
        (m == n) = ((Arrivals.run [] ops).2 == (Arrivals.run [] ops').2) := by
  have hempty : (empty : LinkedMap K V).Holds [] := holds_empty
  obtain ⟨m, cells, hok, hm, hcells⟩ := hempty.run ops
  rw [List.map_nil] at hok hcells
  refine ⟨m, cells.map (·.slot), hok, hm.wellFormed, ?_, hcells ▸ hm.reads, fun ops' => ?_⟩
  · rw [← hcells]
    exact List.pairwise_map.2 hm.keyed.distinct
  · obtain ⟨n, cells', hok', hn, hcells'⟩ := hempty.run ops'
    exact ⟨n, hok', beq_eq (hcells ▸ hm.reads) (hcells' ▸ hn.reads)⟩

instance : EquivBEq Caseless where
  symm h := BEq.symm (α := String) h
  trans h h' := BEq.trans (α := String) h h'
  rfl := BEq.rfl (α := String)

instance : LawfulHashable Caseless where
  hash_eq a b h := by
    have hfolded : a.folded = b.folded := eq_of_beq (α := String) h
    exact congrArg (fun text : String => hash text) hfolded

theorem beq_caseless (a b : Caseless) :
    (a == b) = (a.text.toList.map Char.toLower == b.text.toList.map Char.toLower) := by
  have hfolded : (a == b) = true ↔ a.folded = b.folded := beq_iff_eq (α := String)
  rw [Bool.eq_iff_iff, hfolded, beq_iff_eq, ← String.toList_inj, Caseless.folded, Caseless.folded, String.toList_map,
    String.toList_map]

def recycling : List (Op Caseless Nat Nat) :=
  [.insert ⟨"a"⟩ 1, .insert ⟨"b"⟩ 2, .insert ⟨"c"⟩ 3, .remove ⟨"b"⟩, .insert ⟨"d"⟩ 4, .insert ⟨"A"⟩ 5,
    .retain (fun sum _ value => (sum + value, value * 10, value != 3)) 0, .popBack,
    .extend [(⟨"e"⟩, 6), (⟨"e"⟩, 7)], .update (fun sum _ value => (sum + value, value + 1)) 0]

theorem run_eq_arrivals_recycling : ∃ m path, (empty : LinkedMap Caseless Nat).run recycling =
      .ok ([.value none, .value none, .value none, .value (some 2), .value none, .value (some 1), .state 12,
        .entry (some (⟨"d"⟩, 40)), .done, .state 57], m) ∧
    m.WellFormed path ∧ m.Reads [(⟨"a"⟩, 51), (⟨"e"⟩, 8)] := by
  have hrun : Arrivals.run [] recycling = ([.value none, .value none, .value none, .value (some 2),
      .value none, .value (some 1), .state 12, .entry (some (⟨"d"⟩, 40)), .done, .state 57],
      [(⟨"a"⟩, 51), (⟨"e"⟩, 8)]) := by
    simp [recycling, Arrivals.run, Arrivals.step, Arrivals.get?, Arrivals.insert, Arrivals.remove, Arrivals.write,
      Arrivals.keep, Arrivals.update, beq_caseless]
  obtain ⟨m, path, hok, hm, _, hreads, _⟩ := run_eq_arrivals recycling
  rw [hrun] at hok hreads
  exact ⟨m, path, hok, hm, hreads⟩

end LinkedMap

end VersionedMap
