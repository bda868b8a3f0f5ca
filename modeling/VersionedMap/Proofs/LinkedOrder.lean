import VersionedMap.Proofs.LinkedKeys

namespace VersionedMap.LinkedMap

open Cell

variable {K V σ : Type}

theorem map_entry_split (before after : List (Cell K V)) (c : Cell K V) :
    (before ++ c :: after).map entry = before.map entry ++ (c.key, c.value) :: after.map entry := by
  simp [entry]

theorem bind_ok {α β : Type} (a : α) (f : α → Except Dangling β) : (Except.ok a >>= f) = f a := rfl

variable [BEq K] [Hashable K] {m : LinkedMap K V}
  {before after cells : List (Cell K V)} {c : Cell K V} {key : K}

structure Holds (m : LinkedMap K V) (cells : List (Cell K V)) : Prop where
  stores : m.Stores cells
  keyed : Keyed m.index cells

/-- An operation does not fail, answers as expected, and leaves a map of the entries expected. -/
def Agrees {α : Type} (result : Except Dangling (α × LinkedMap K V)) (expected : α × List (K × V)) : Prop :=
  ∃ m cells, result = .ok (expected.1, m) ∧ m.Holds cells ∧ cells.map entry = expected.2

theorem Agrees.map {α β : Type} {result : Except Dangling (α × LinkedMap K V)} {expected : α × List (K × V)}
    (h : Agrees result expected) (f : α → β) :
    Agrees (result >>= fun p => pure (f p.1, p.2)) (f expected.1, expected.2) := by
  obtain ⟨m, cells, rfl, hm, hcells⟩ := h
  exact ⟨m, cells, rfl, hm, hcells⟩

theorem Holds.write (h : m.Holds (before ++ c :: after)) (value : V) :
    (m.write c.slot (some ⟨c.key, value, lastOr none before, firstOr after none⟩)).Holds
      (before ++ { c with value } :: after) :=
  ⟨h.stores.write value, h.keyed.write value⟩

variable [EquivBEq K]

theorem Holds.find (h : m.Holds cells) (key : K) :
    (m.index[key]? = none ∧ ∀ e ∈ cells.map entry, (e.1 == key) = false) ∨
      ∃ before c after, cells = before ++ c :: after ∧ (c.key == key) = true ∧
        m.index[key]? = some c.slot ∧ ∀ e ∈ before.map entry ++ after.map entry, (e.1 == key) = false := by
  rcases h.keyed.find key with ⟨hnone, hnew⟩ | ⟨before, c, after, rfl, hk, hslot⟩
  · exact .inl ⟨hnone, by simpa [entry] using hnew⟩
  · refine .inr ⟨before, c, after, rfl, hk, hslot, fun e he => ?_⟩
    rw [← List.map_append] at he
    obtain ⟨d, hd, rfl⟩ := List.mem_map.1 he
    exact key_ne_of_distinct h.keyed.distinct hk d hd

theorem get?_eq (h : m.Holds cells) (key : K) : m.get? key = .ok (Arrivals.get? (cells.map entry) key) := by
  rw [LinkedMap.get?]
  rcases h.find key with ⟨hnone, hnew⟩ | ⟨before, c, after, rfl, hk, hslot, hothers⟩
  · rw [hnone, Arrivals.get?, Arrivals.find?_of_absent hnew]
    rfl
  · rw [hslot, map_entry_split, Arrivals.get?_split hothers hk]
    simp only [node_eq h.stores.slots, bind_ok]
    rfl

theorem Holds.replace (h : m.Holds cells) (key : K) (value : V) : Agrees (m.replace key value)
    (Arrivals.get? (cells.map entry) key, Arrivals.write (cells.map entry) key value) := by
  rw [LinkedMap.replace]
  rcases h.find key with ⟨hnone, hnew⟩ | ⟨before, c, after, rfl, hk, hslot, hothers⟩
  · refine ⟨m, cells, ?_, h, (Arrivals.write_of_absent hnew value).symm⟩
    rw [hnone, Arrivals.get?, Arrivals.find?_of_absent hnew]
    rfl
  · refine ⟨_, _, ?_, h.write value, ?_⟩
    · rw [hslot, map_entry_split, Arrivals.get?_split hothers hk]
      simp only [node_eq h.stores.slots, bind_ok]
      rfl
    · rw [map_entry_split, map_entry_split, Arrivals.write_split hothers hk]

variable [LawfulHashable K]

theorem holds_empty : (empty : LinkedMap K V).Holds [] :=
  ⟨stores_empty, keyed_empty⟩

theorem contains_eq (h : m.Holds cells) (key : K) : m.contains key = (cells.map entry).any (·.1 == key) := by
  rw [contains, Std.HashMap.contains_eq_isSome_getElem?]
  rcases h.find key with ⟨hnone, hnew⟩ | ⟨before, c, after, rfl, hk, hslot, _⟩
  · rw [hnone, Arrivals.any_of_absent hnew]
    rfl
  · simp [hslot, entry, hk]

theorem Holds.insert (h : m.Holds cells) (key : K) (value : V) : Agrees (m.insert key value)
    (Arrivals.get? (cells.map entry) key, Arrivals.insert (cells.map entry) key value) := by
  rw [LinkedMap.insert, contains_eq h, Arrivals.insert]
  split
  case isTrue => exact h.replace key value
  case isFalse hnew =>
      have hnew : ∀ e ∈ cells.map entry, (e.1 == key) = false := by simpa using hnew
      obtain ⟨slot, placed, linked, hplace, hlink, hindex, hstores⟩ := h.stores.append key value
      refine ⟨{ linked with tail? := some slot, index := linked.index.insert key slot },
        cells ++ [⟨slot, key, value⟩], ?_, ⟨hstores _, ?_⟩, by simp [entry]⟩
      · rw [hplace, Arrivals.get?, Arrivals.find?_of_absent hnew]
        simp only [hlink, bind_ok]
        rfl
      · rw [hindex]
        exact h.keyed.append (by simpa [entry] using hnew) slot value

/-- Whoever takes an entry out takes its key out of the index, before or after. -/
theorem Holds.unlink (h : m.Holds (before ++ c :: after)) :
    ∃ m', m.unlink c.slot = .ok (c.entry, m') ∧
      Holds { m' with index := m'.index.erase c.key } (before ++ after) := by
  obtain ⟨m', hok, hstores, hindex⟩ := h.stores.unlink
  refine ⟨m', hok, hstores.withIndex _, ?_⟩
  rw [hindex]
  exact h.keyed.erase BEq.rfl

theorem Holds.remove (h : m.Holds cells) (key : K) : Agrees (m.remove key)
    (Arrivals.get? (cells.map entry) key, Arrivals.remove (cells.map entry) key) := by
  rw [LinkedMap.remove]
  rcases h.find key with ⟨hnone, hnew⟩ | ⟨before, c, after, rfl, hk, hslot, hothers⟩
  · refine ⟨m, cells, ?_, h, (Arrivals.remove_of_absent hnew).symm⟩
    rw [hnone, Arrivals.get?, Arrivals.find?_of_absent hnew]
    rfl
  · obtain ⟨m', hok, hstores, hindex⟩ := (h.stores.withIndex (m.index.erase key)).unlink
    refine ⟨m', before ++ after, ?_, ⟨hstores, hindex ▸ h.keyed.erase hk⟩, ?_⟩
    · rw [hslot, map_entry_split, Arrivals.get?_split hothers hk]
      simp only [hok, bind_ok]
      rfl
    · rw [map_entry_split, Arrivals.remove_split hothers hk, List.map_append]

theorem Holds.popAt (h : m.Holds (before ++ c :: after)) :
    ∃ m', m.popAt (some c.slot) = .ok (some c.entry, m') ∧ m'.Holds (before ++ after) := by
  obtain ⟨m', hok, hm⟩ := h.unlink
  refine ⟨_, ?_, hm⟩
  rw [LinkedMap.popAt, hok]
  rfl

theorem Holds.popFront (h : m.Holds cells) :
    Agrees m.popFront ((cells.map entry).head?, (cells.map entry).tail) := by
  rw [LinkedMap.popFront, h.stores.linked.head]
  cases cells with
  | nil => exact ⟨m, [], rfl, h, rfl⟩
  | cons c cells =>
      have hfirst : m.Holds ([] ++ c :: cells) := h
      obtain ⟨m', hok, hm⟩ := hfirst.popAt
      exact ⟨m', cells, hok, hm, rfl⟩

theorem Holds.popBack (h : m.Holds cells) :
    Agrees m.popBack ((cells.map entry).getLast?, (cells.map entry).dropLast) := by
  rw [LinkedMap.popBack, h.stores.linked.tail]
  cases cells using List.reverseRecOn with
  | nil => exact ⟨m, [], rfl, h, rfl⟩
  | append_singleton cells c =>
      obtain ⟨m', hok, hm⟩ := h.popAt
      exact ⟨m', cells, by simpa using hok, by simpa using hm, by simp⟩

theorem Holds.retainFrom (visit : σ → K → V → σ × V × Bool) {rest : List (Cell K V)}
    (h : m.Holds (before ++ rest)) {steps : Nat} (hs : rest.length ≤ steps) (state : σ) : ∃ m' rest',
    LinkedMap.retainFrom visit steps (firstOr rest none) state m =
      .ok ((Arrivals.keep visit state (rest.map entry)).1, m') ∧ m'.Holds (before ++ rest') ∧
      rest'.map entry = (Arrivals.keep visit state (rest.map entry)).2 := by
  -- an entry that stays joins those before; one that goes leaves them as they are
  induction rest generalizing m before steps state with
  | nil => exact ⟨m, [], by simp [firstOr, LinkedMap.retainFrom, Arrivals.keep], h, rfl⟩
  | cons c rest ih =>
      obtain ⟨steps, rfl⟩ : ∃ k, steps = k + 1 := ⟨steps - 1, by simp at hs; omega⟩
      have hrest : rest.length ≤ steps := by simpa using hs
      have hwritten := h.write (visit state c.key c.value).2.1
      simp only [firstOr_cons, LinkedMap.retainFrom, node_eq h.stores.slots, bind_ok, List.map_cons, entry,
        Arrivals.keep]
      cases hstays : (visit state c.key c.value).2.2 with
      | true =>
          rw [List.append_cons] at hwritten
          obtain ⟨m', rest', hok, hm, hentries⟩ := ih hwritten hrest (visit state c.key c.value).1
          exact ⟨m', _ :: rest', hok, by rwa [List.append_cons], by simp [hentries, entry]⟩
      | false =>
          obtain ⟨m', hunlink, hm⟩ := hwritten.unlink
          obtain ⟨m'', rest', hok, hm', hentries⟩ := ih hm hrest (visit state c.key c.value).1
          refine ⟨m'', rest', ?_, hm', by simp [hentries]⟩
          dsimp only at hunlink
          simp only [Bool.false_eq_true, if_false, hunlink, bind_ok]
          exact hok

theorem Holds.retain (h : m.Holds cells) (visit : σ → K → V → σ × V × Bool) (state : σ) :
    Agrees (m.retain visit state) (Arrivals.keep visit state (cells.map entry)) := by
  have hall : m.Holds ([] ++ cells) := h
  rw [LinkedMap.retain, h.stores.linked.head]
  exact hall.retainFrom visit h.stores.length_le state

theorem Holds.update (h : m.Holds cells) (visit : σ → K → V → σ × V) (state : σ) :
    Agrees (m.update visit state) (Arrivals.update visit state (cells.map entry)) := by
  rw [← Arrivals.keep_eq_update]
  exact h.retain _ state

inductive Op (K V σ : Type) where
  | insert (key : K) (value : V)
  | extend (entries : List (K × V))
  | replace (key : K) (value : V)
  | remove (key : K)
  | popFront
  | popBack
  | retain (visit : σ → K → V → σ × V × Bool) (state : σ)
  | update (visit : σ → K → V → σ × V) (state : σ)
  | clear

inductive Reply (K V σ : Type) where
  | done
  | value (value? : Option V)
  | entry (item? : Option (K × V))
  | state (state : σ)

omit [EquivBEq K] [LawfulHashable K]

def step (m : LinkedMap K V) : Op K V σ → Except Dangling (Reply K V σ × LinkedMap K V)
  | .insert key value => do
    let (value?, m) ← m.insert key value
    return (.value value?, m)
  | .extend entries => return (.done, ← m.extend entries)
  | .replace key value => do
    let (value?, m) ← m.replace key value
    return (.value value?, m)
  | .remove key => do
    let (value?, m) ← m.remove key
    return (.value value?, m)
  | .popFront => do
    let (item?, m) ← m.popFront
    return (.entry item?, m)
  | .popBack => do
    let (item?, m) ← m.popBack
    return (.entry item?, m)
  | .retain visit state => do
    let (state, m) ← m.retain visit state
    return (.state state, m)
  | .update visit state => do
    let (state, m) ← m.update visit state
    return (.state state, m)
  | .clear => return (.done, empty)

def run (m : LinkedMap K V) : List (Op K V σ) → Except Dangling (List (Reply K V σ) × LinkedMap K V)
  | [] => return ([], m)
  | op :: ops => do
    let (reply, m) ← m.step op
    let (replies, m) ← m.run ops
    return (reply :: replies, m)

end VersionedMap.LinkedMap

namespace VersionedMap.Arrivals

open LinkedMap

variable {K V σ : Type} [BEq K]

def step (entries : List (K × V)) : Op K V σ → Reply K V σ × List (K × V)
  | .insert key value => (.value (get? entries key), insert entries key value)
  | .extend others => (.done, others.foldl (fun entries e => insert entries e.1 e.2) entries)
  | .replace key value => (.value (get? entries key), write entries key value)
  | .remove key => (.value (get? entries key), remove entries key)
  | .popFront => (.entry entries.head?, entries.tail)
  | .popBack => (.entry entries.getLast?, entries.dropLast)
  | .retain visit state =>
    let (state, entries) := keep visit state entries
    (.state state, entries)
  | .update visit state =>
    let (state, entries) := update visit state entries
    (.state state, entries)
  | .clear => (.done, [])

def run (entries : List (K × V)) : List (Op K V σ) → List (Reply K V σ) × List (K × V)
  | [] => ([], entries)
  | op :: ops =>
    let (reply, entries) := step entries op
    let (replies, entries) := run entries ops
    (reply :: replies, entries)

end VersionedMap.Arrivals

namespace VersionedMap.LinkedMap

open Cell

variable {K V σ : Type} [BEq K] [Hashable K] [EquivBEq K] [LawfulHashable K] {m : LinkedMap K V}
  {cells : List (Cell K V)}

theorem Holds.extend (h : m.Holds cells) (entries : List (K × V)) : ∃ m' cells',
    m.extend entries = .ok m' ∧ m'.Holds cells' ∧ cells'.map entry =
      entries.foldl (fun entries e => Arrivals.insert entries e.1 e.2) (cells.map entry) := by
  induction entries generalizing m cells with
  | nil => exact ⟨m, cells, rfl, h, rfl⟩
  | cons e entries ih =>
      obtain ⟨m', cells', hok, hm, hentries⟩ := h.insert e.1 e.2
      obtain ⟨m'', cells'', hok', hm', hentries'⟩ := ih hm
      refine ⟨m'', cells'', ?_, hm', by rw [hentries', hentries, List.foldl_cons]⟩
      rw [LinkedMap.extend, List.foldlM_cons, hok]
      exact hok'

theorem Holds.step (h : m.Holds cells) (op : Op K V σ) :
    Agrees (m.step op) (Arrivals.step (cells.map entry) op) := by
  cases op with
  | insert key value => exact (h.insert key value).map Reply.value
  | extend entries =>
      obtain ⟨m', cells', hok, hm, hentries⟩ := h.extend entries
      exact ⟨m', cells', by simp only [LinkedMap.step, hok]; rfl, hm, hentries⟩
  | replace key value => exact (h.replace key value).map Reply.value
  | remove key => exact (h.remove key).map Reply.value
  | popFront => exact h.popFront.map Reply.entry
  | popBack => exact h.popBack.map Reply.entry
  | retain visit state => exact (h.retain visit state).map Reply.state
  | update visit state => exact (h.update visit state).map Reply.state
  | clear => exact ⟨empty, [], rfl, holds_empty, rfl⟩

theorem Holds.run (h : m.Holds cells) (ops : List (Op K V σ)) :
    Agrees (m.run ops) (Arrivals.run (cells.map entry) ops) := by
  induction ops generalizing m cells with
  | nil => exact ⟨m, cells, rfl, h, rfl⟩
  | cons op ops ih =>
      obtain ⟨m', cells', hok, hm, hentries⟩ := h.step op
      obtain ⟨m'', cells'', hok', hm', hentries'⟩ := ih hm
      rw [hentries] at hok' hentries'
      refine ⟨m'', cells'', ?_, hm', hentries'⟩
      simp only [LinkedMap.run, hok, bind_ok, hok']
      rfl

end VersionedMap.LinkedMap
