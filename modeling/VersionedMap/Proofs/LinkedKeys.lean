import VersionedMap.Proofs.LinkedSlots

namespace VersionedMap

variable {K V σ : Type}

namespace Arrivals

def keep (visit : σ → K → V → σ × V × Bool) : σ → List (K × V) → σ × List (K × V)
  | state, [] => (state, [])
  | state, (key, value) :: entries =>
    let (state, value, stays) := visit state key value
    let (state, entries) := keep visit state entries
    (state, if stays then (key, value) :: entries else entries)

def update (visit : σ → K → V → σ × V) : σ → List (K × V) → σ × List (K × V)
  | state, [] => (state, [])
  | state, (key, value) :: entries =>
    let (state, value) := visit state key value
    let (state, entries) := update visit state entries
    (state, (key, value) :: entries)

theorem keep_eq_update (visit : σ → K → V → σ × V) (state : σ) (entries : List (K × V)) :
    keep (fun state key value => ((visit state key value).1, (visit state key value).2, true)) state entries =
      update visit state entries := by
  induction entries generalizing state with
  | nil => rfl
  | cons e entries ih => simp [keep, update, ih]

def pull : List (K × V) → List Bool → List (Option (K × V))
  | _, [] => []
  | entries, true :: sides => entries.head? :: pull entries.tail sides
  | entries, false :: sides => entries.getLast? :: pull entries.dropLast sides

variable [BEq K]

def get? (entries : List (K × V)) (key : K) : Option V :=
  (entries.find? (·.1 == key)).map (·.2)

/-- Gives a key that is there a new value; its place and its spelling stay. -/
def write (entries : List (K × V)) (key : K) (value : V) : List (K × V) :=
  entries.map fun e => if e.1 == key then (e.1, value) else e

def insert (entries : List (K × V)) (key : K) (value : V) : List (K × V) :=
  if entries.any (·.1 == key) then write entries key value else entries ++ [(key, value)]

def remove (entries : List (K × V)) (key : K) : List (K × V) :=
  entries.filter fun e => !(e.1 == key)

section Split

variable {entries before after : List (K × V)} {key key' : K} {value : V}

theorem find?_of_absent (h : ∀ e ∈ entries, (e.1 == key) = false) : entries.find? (·.1 == key) = none :=
  List.find?_eq_none.2 fun e he => by simp [h e he]

theorem any_of_absent (h : ∀ e ∈ entries, (e.1 == key) = false) : entries.any (·.1 == key) = false := by
  simpa using h

theorem write_of_absent (h : ∀ e ∈ entries, (e.1 == key) = false) (value : V) :
    write entries key value = entries :=
  (List.map_congr_left fun e he => by simp [h e he]).trans (List.map_id entries)

theorem remove_of_absent (h : ∀ e ∈ entries, (e.1 == key) = false) : remove entries key = entries :=
  List.filter_eq_self.2 fun e he => by simp [h e he]

theorem get?_split (h : ∀ e ∈ before ++ after, (e.1 == key) = false) (hk : (key' == key) = true) :
    get? (before ++ (key', value) :: after) key = some value := by
  have hbefore : before.find? (·.1 == key) = none := find?_of_absent fun e he => h e (by simp [he])
  simp [get?, hbefore, hk]

theorem write_split (h : ∀ e ∈ before ++ after, (e.1 == key) = false) (hk : (key' == key) = true) (value' : V) :
    write (before ++ (key', value) :: after) key value' = before ++ (key', value') :: after := by
  have hbefore := write_of_absent (fun e he => h e (List.mem_append_left after he)) value'
  have hafter := write_of_absent (fun e he => h e (List.mem_append_right before he)) value'
  simp only [write] at hbefore hafter ⊢
  simp [hbefore, hafter, hk]

theorem remove_split (h : ∀ e ∈ before ++ after, (e.1 == key) = false) (hk : (key' == key) = true) :
    remove (before ++ (key', value) :: after) key = before ++ after := by
  rw [remove, List.filter_append, List.filter_cons_of_neg (by simp [hk]), ← List.filter_append]
  exact remove_of_absent h

end Split

end Arrivals

namespace LinkedMap

open Cell

variable [BEq K] [Hashable K]

/-- The index leads from a key, however it is spelled, to the slot of its entry. -/
structure Keyed (index : Std.HashMap K Nat) (cells : List (Cell K V)) : Prop where
  distinct : cells.Pairwise fun c d => (c.key == d.key) = false
  lookup : ∀ key, index[key]? = (cells.find? (·.key == key)).map (·.slot)
  size : index.size = cells.length

variable [EquivBEq K] [LawfulHashable K] {index : Std.HashMap K Nat}
  {before after cells : List (Cell K V)} {c : Cell K V} {key : K}

theorem keyed_empty : Keyed (∅ : Std.HashMap K Nat) ([] : List (Cell K V)) :=
  ⟨.nil, by simp, by simp⟩

omit [Hashable K] [LawfulHashable K] in
theorem key_ne_of_distinct (h : (before ++ c :: after).Pairwise fun c d => (c.key == d.key) = false)
    (hk : (c.key == key) = true) : ∀ d ∈ before ++ after, (d.key == key) = false := by
  obtain ⟨_, hafter, hbefore⟩ := List.pairwise_append.1 h
  intro d hd
  rw [← BEq.congr_right hk]
  rcases List.mem_append.1 hd with hd | hd
  · exact hbefore d hd c (by simp)
  · rw [BEq.comm]
    exact (List.pairwise_cons.1 hafter).1 d hd

omit [EquivBEq K] [LawfulHashable K] in
theorem Keyed.find (h : Keyed index cells) (key : K) :
    (index[key]? = none ∧ ∀ c ∈ cells, (c.key == key) = false) ∨
      ∃ before c after, cells = before ++ c :: after ∧ (c.key == key) = true ∧ index[key]? = some c.slot := by
  rw [h.lookup]
  cases hfind : cells.find? (·.key == key) with
  | none => exact .inl ⟨rfl, by simpa using hfind⟩
  | some c =>
      obtain ⟨hk, before, after, hcells, _⟩ := List.find?_eq_some_iff_append.1 hfind
      exact .inr ⟨before, c, after, hcells, hk, rfl⟩

omit [EquivBEq K] [LawfulHashable K] in
theorem Keyed.write (h : Keyed index (before ++ c :: after)) (value : V) :
    Keyed index (before ++ { c with value } :: after) := by
  refine ⟨?_, ?_, by simpa using h.size⟩
  · simpa [List.pairwise_append] using h.distinct
  · intro key
    rw [h.lookup]
    simp only [List.find?_append, List.find?_cons]
    cases before.find? (·.key == key) <;> cases c.key == key <;> simp

theorem Keyed.append (h : Keyed index cells) (hnew : ∀ c ∈ cells, (c.key == key) = false) (slot : Nat) (value : V) :
    Keyed (index.insert key slot) (cells ++ [⟨slot, key, value⟩]) := by
  have hnone : cells.find? (·.key == key) = none := List.find?_eq_none.2 fun c hc => by simp [hnew c hc]
  have habsent : key ∉ index := by
    intro hmem
    have hfound := Std.HashMap.isSome_getElem?_iff_mem.2 hmem
    simp [h.lookup, hnone] at hfound
  refine ⟨?_, ?_, ?_⟩
  · rw [List.pairwise_append]
    exact ⟨h.distinct, List.pairwise_singleton _ _, fun c hc d hd => by
      rw [List.mem_singleton.1 hd]
      exact hnew c hc⟩
  · intro key'
    rw [Std.HashMap.getElem?_insert, h.lookup, List.find?_append]
    split
    case isTrue hk =>
        have hfind : cells.find? (·.key == key') = none := List.find?_eq_none.2 fun c hc => by
          rw [← BEq.congr_right hk, hnew c hc]
          exact Bool.false_ne_true
        simp [hfind, hk]
    case isFalse hk => simp [hk]
  · rw [Std.HashMap.size_insert, if_neg habsent, h.size]
    simp

theorem Keyed.erase (h : Keyed index (before ++ c :: after)) (hk : (c.key == key) = true) :
    Keyed (index.erase key) (before ++ after) := by
  have hothers := key_ne_of_distinct h.distinct hk
  refine ⟨h.distinct.sublist ((List.sublist_cons_self c after).append_left before), ?_, ?_⟩
  · intro key'
    rw [Std.HashMap.getElem?_erase, h.lookup]
    split
    case isTrue hkey =>
        have hfind : (before ++ after).find? (·.key == key') = none := List.find?_eq_none.2 fun d hd => by
          rw [← BEq.congr_right hkey, hothers d hd]
          exact Bool.false_ne_true
        rw [hfind]
        rfl
    case isFalse hkey =>
        have hc : (c.key == key') = false := by
          rw [BEq.congr_left hk]
          exact Bool.eq_false_iff.2 hkey
        simp [List.find?_append, hc]
  · have hmem : key ∈ index := by
      rw [← Std.HashMap.isSome_getElem?_iff_mem, h.lookup]
      simp [hk]
    rw [Std.HashMap.size_erase, if_pos hmem, h.size]
    simp

end LinkedMap

end VersionedMap
