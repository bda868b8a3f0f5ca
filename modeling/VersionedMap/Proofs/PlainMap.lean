import VersionedMap.Transaction
import VersionedMap.Proofs.MergedEntries

namespace VersionedMap

variable {K V : Type} [Ord K] [Std.TransOrd K]

namespace SortedMap

theorem get?_insert (m : SortedMap K V) (key : K) (value : V) (q : K) :
    (m.insert key value).get? q = if sameKey key q then some value else m.get? q := by
  rw [get?, lookup?_insert]
  split <;> rfl

theorem get?_erase (m : SortedMap K V) (key q : K) :
    (m.erase key).get? q = if sameKey key q then none else m.get? q := by
  rw [get?, lookup?_erase]
  split <;> rfl

omit [Std.TransOrd K] in
theorem contains_eq (m : SortedMap K V) (q : K) : m.contains q = (m.get? q).isSome := by
  rw [contains, get?, Option.isSome_map]

theorem length_insertWith {merge : K × V → K × V} {key : K} {entry : K × V} {entries : List (K × V)}
    (h : Ascending entries) :
    (insertWith merge key entry entries).length =
      if (entryAt entries key).isSome then entries.length else entries.length + 1 := by
  induction entries with
  | nil => rfl
  | cons x xs ih =>
      rw [insertWith]
      cases hx : compare key x.1 with
      | lt =>
          rw [h.entryAt_below hx]
          rfl
      | eq =>
          rw [entryAt_cons_same (Std.OrientedCmp.eq_symm hx)]
          rfl
      | gt =>
          rw [entryAt_cons_other (by simp [Std.OrientedCmp.lt_of_gt hx]), List.length_cons, ih h.of_cons]
          split <;> rfl

theorem size_insert (m : SortedMap K V) (key : K) (value : V) :
    (m.insert key value).size = if m.contains key then m.size else m.size + 1 :=
  length_insertWith m.ascending

omit [Std.TransOrd K] in
theorem size_erase (m : SortedMap K V) (key : K) :
    (m.erase key).size = if m.contains key then m.size - 1 else m.size := by
  have hany : m.entries.any (sameKey ·.1 key) = m.contains key := by
    rw [contains, lookup?, List.isSome_find?]
  rw [size, erase, List.length_eraseP, hany]
  rfl

omit [Std.TransOrd K] in
theorem size_pos {m : SortedMap K V} {key : K} (h : m.contains key = true) : 0 < m.size := by
  obtain ⟨e, he⟩ := Option.isSome_iff_exists.mp h
  exact List.length_pos_of_mem (List.mem_of_find?_eq_some he)

end SortedMap

namespace Snapshot

variable {s : Snapshot K V}

theorem lookup?_eq_entryAt (h : Ascending s.toList) (q : K) : s.lookup? q = entryAt s.toList q :=
  lookup?_eq_find? h q

theorem get?_eq_entryAt (h : Ascending s.toList) (q : K) : s.get? q = (entryAt s.toList q).map (·.2) := by
  rw [get?, lookup?_eq_entryAt h]

theorem get?_congr (h : Ascending s.toList) {a b : K} (hab : compare a b = .eq) : s.get? a = s.get? b := by
  rw [get?_eq_entryAt h, get?_eq_entryAt h, entryAt_congr s.toList hab]

end Snapshot

namespace Overlay

variable {base : Snapshot K V}

theorem resolve_eq_shown (o : Overlay K V) (hb : Ascending base.toList) (q : K) :
    o.resolve base q = (shown (o.ops.lookup? q) (entryAt base.toList q)).map (·.2) := by
  rw [resolve, SortedMap.get?, Snapshot.get?_eq_entryAt hb]
  cases o.ops.lookup? q with
  | none => rfl
  | some e =>
      obtain ⟨key, op⟩ := e
      cases op <;> rfl

/-- The value stored by setting a key: the base's own value if that equals the new one. -/
def kept [BEq V] : Option V → V → V
  | some original, value => if original == value then original else value
  | none, value => value

theorem kept_of_ne [BEq V] {original? : Option V} {value : V} (h : ¬ original?.any (· == value) = true) :
    kept original? value = value := by
  cases original? with
  | none => rfl
  | some original => simp_all [kept]

theorem resolve_set [BEq V] (o : Overlay K V) (hb : Ascending base.toList) (key : K) (value : V) (q : K) :
    (o.set base key value).resolve base q =
      if sameKey key q then some (kept (base.get? key) value) else o.resolve base q := by
  rw [resolve, set]
  by_cases hcancel : (base.get? key).any (· == value) = true
  · obtain ⟨original, hold, heq⟩ := (Option.any_eq_true _ _).mp hcancel
    rw [if_pos hcancel, SortedMap.get?_erase]
    cases hq : sameKey key q with
    | true =>
        rw [← Snapshot.get?_congr hb (sameKey_iff.mp hq), hold]
        simp [kept, heq]
    | false => rfl
  · rw [if_neg hcancel, SortedMap.get?_insert, kept_of_ne hcancel]
    cases sameKey key q with
    | true => rfl
    | false => rfl

theorem remove_fst (o : Overlay K V) (key : K) : (o.remove base key).1 = (o.resolve base key).isSome := by
  rw [remove]
  cases o.resolve base key <;> rfl

theorem resolve_congr (o : Overlay K V) (hb : Ascending base.toList) {a b : K} (h : compare a b = .eq) :
    o.resolve base a = o.resolve base b := by
  rw [o.resolve_eq_shown hb, o.resolve_eq_shown hb, entryAt_congr base.toList h]
  exact congrArg (fun e => (shown e (entryAt base.toList b)).map (·.2)) (entryAt_congr o.ops.entries h)

theorem resolve_remove (o : Overlay K V) (hb : Ascending base.toList) (key q : K) :
    (o.remove base key).2.resolve base q = if sameKey key q then none else o.resolve base q := by
  rw [remove]
  cases hthere : o.resolve base key with
  | none =>
      rw [Option.isNone_none, if_pos rfl]
      cases hq : sameKey key q with
      | true =>
          rw [← o.resolve_congr hb (sameKey_iff.mp hq), hthere]
          rfl
      | false => rfl
  | some value =>
      rw [Option.isNone_some, if_neg Bool.false_ne_true, resolve]
      cases hold : base.lookup? key with
      | none =>
          rw [SortedMap.get?_erase]
          cases hq : sameKey key q with
          | true =>
              rw [← Snapshot.get?_congr hb (sameKey_iff.mp hq), Snapshot.get?, hold]
              rfl
          | false => rfl
      | some entry =>
          have hsame : compare entry.1 key = .eq := by
            rw [Snapshot.lookup?_eq_entryAt hb] at hold
            exact compare_of_entryAt hold
          rw [SortedMap.get?_insert, sameKey, Std.TransCmp.congr_left hsame, ← sameKey]
          cases hq : sameKey key q with
          | true => rfl
          | false => rfl

/-- Every read of a key agrees with the map, and the size kept on the side is the map's. -/
structure Models (o : Overlay K V) (base : Snapshot K V) (m : SortedMap K V) : Prop where
  resolve : ∀ q, o.resolve base q = m.get? q
  size : (m.size : Int) = base.size + o.growth

theorem models_empty (hb : Ascending base.toList) : Models empty base ⟨base.toList, hb⟩ where
  resolve q := Snapshot.get?_eq_entryAt hb q
  size := by simp [SortedMap.size, Snapshot.size, Snapshot.toList, empty]

omit [Std.TransOrd K] in
theorem Models.contains {o : Overlay K V} {m : SortedMap K V} (h : Models o base m) (q : K) :
    m.contains q = (o.resolve base q).isSome := by
  rw [m.contains_eq, h.resolve]

theorem Models.set [BEq V] {o : Overlay K V} {m : SortedMap K V} (hb : Ascending base.toList)
    (h : Models o base m) (key : K) (value : V) :
    Models (o.set base key value) base (m.insert key (kept (base.get? key) value)) where
  resolve q := by rw [o.resolve_set hb, m.get?_insert, h.resolve]
  size := by
    have hsize := h.size
    rw [m.size_insert, h.contains]
    cases hold : o.resolve base key with
    | none => simp [Overlay.set, hold]; omega
    | some old => simpa [Overlay.set, hold] using hsize

theorem Models.remove {o : Overlay K V} {m : SortedMap K V} (hb : Ascending base.toList)
    (h : Models o base m) (key : K) : Models (o.remove base key).2 base (m.erase key) where
  resolve q := by rw [o.resolve_remove hb, m.get?_erase, h.resolve]
  size := by
    have hsize := h.size
    rw [m.size_erase]
    cases hold : o.resolve base key with
    | none =>
        have hthere : m.contains key = false := by rw [h.contains, hold]; rfl
        simpa [Overlay.remove, hold, hthere] using hsize
    | some old =>
        have hthere : m.contains key = true := by rw [h.contains, hold]; rfl
        have hpos := SortedMap.size_pos hthere
        simp only [Overlay.remove, hold, hthere, if_true, Option.isNone_some, Bool.false_eq_true, if_false]
        omega

theorem Models.forall₂_toList {o : Overlay K V} {m : SortedMap K V} (hb : Ascending base.toList)
    (h : Models o base m) :
    List.Forall₂ SameEntry (o.ascending base).toList m.entries := by
  refine forall₂_of_entryAt (o.ascending_toList hb) m.ascending fun q => ?_
  have hq := h.resolve q
  rw [o.resolve_eq_shown hb, ← o.entryAt_toList hb, SortedMap.get?, SortedMap.lookup?, ← entryAt] at hq
  cases hx : entryAt (o.ascending base).toList q with
  | none =>
      rw [hx] at hq
      rw [Option.map_eq_none_iff.mp hq.symm]
      exact .none
  | some a =>
      rw [hx] at hq
      obtain ⟨b, hb, hab⟩ := Option.map_eq_some_iff.mp hq.symm
      rw [hb]
      exact .some hab.symm

end Overlay

namespace MergedWalk

def YieldsAlike (w : MergedWalk K V) (entries : List (K × V)) : Prop :=
  ∃ items, Walk.Yields next w items ∧
    List.Forall₂ SameEntry items entries

end MergedWalk

namespace Transaction

inductive Call (K V : Type) where
  | set (key : K) (value : V)
  | remove (key : K)
  | tryRemove (key : K)
  | revert

def call [BEq V] (t : Transaction K V) : Call K V → Except Fault (Option Bool × Transaction K V)
  | .set key value => return (none, ← t.set key value)
  | .remove key => do
    let (present, t) ← t.remove key
    return (some present, t)
  | .tryRemove key => return (some (t.tryRemove key).1, (t.tryRemove key).2)
  | .revert => return (none, ← t.revert)

def calls [BEq V] (t : Transaction K V) : List (Call K V) → Except Fault (List (Option Bool) × Transaction K V)
  | [] => return ([], t)
  | c :: cs => do
    let (answer, t) ← t.call c
    let (answers, t) ← t.calls cs
    return (answer :: answers, t)

/-- The same call on a plain map, with the base at hand. -/
def plainCall [BEq V] (base m : SortedMap K V) : Call K V → Option Bool × SortedMap K V
  | .set key value => (none, m.insert key (Overlay.kept (base.get? key) value))
  | .remove key => (some (m.contains key), m.erase key)
  | .tryRemove key => (some (m.contains key), m.erase key)
  | .revert => (none, base)

def plainCalls [BEq V] (base m : SortedMap K V) : List (Call K V) → List (Option Bool) × SortedMap K V
  | [] => ([], m)
  | c :: cs =>
    let (answer, m) := plainCall base m c
    let (answers, m) := plainCalls base m cs
    (answer :: answers, m)

/-- All that a transaction lets its user read, told by a plain map. -/
structure ReadsAs (t : Transaction K V) (m : SortedMap K V) : Prop where
  get? : ∀ q, t.get? q = m.get? q
  get : ∀ q, t.get q = match m.get? q with
    | some value => .ok value
    | none => .error .keyNotFound
  contains : ∀ q, t.contains q = m.contains q
  size : t.size = m.size
  isEmpty : t.isEmpty = m.isEmpty
  ascending : t.ascending.YieldsAlike m.entries
  descending : t.descending.YieldsAlike m.entries.reverse
  atLeast : ∀ q, (t.atLeast q).YieldsAlike (m.entries.filter (compare ·.1 q != .lt))
  atMost : ∀ q, (t.atMost q).YieldsAlike (m.entries.filter (compare ·.1 q != .gt)).reverse

theorem readsAs_of_models {t : Transaction K V} {m : SortedMap K V} (hb : Ascending t.base.toList)
    (h : t.overlay.Models t.base m) : t.ReadsAs m := by
  have halike := h.forall₂_toList hb
  have hyields {w : MergedWalk K V} {entries : List (K × V)}
      (hw : List.Forall₂ SameEntry w.toList entries) :
      w.YieldsAlike entries := ⟨w.toList, MergedWalk.shows_toList.yields w, hw⟩
  have hsize : t.size = m.size := by
    have := h.size
    simp only [size, Overlay.mergedSize]
    omega
  constructor
  case get? => exact h.resolve
  case get =>
    intro q
    have hread : t.get? q = m.get? q := h.resolve q
    rw [get]
    cases hfound : m.get? q with
    | none => simp only [hread, hfound]
    | some value => simp only [hread, hfound]
  case contains =>
    intro q
    rw [contains, get?, h.contains]
  case size => exact hsize
  case isEmpty =>
    rw [isEmpty, hsize, SortedMap.isEmpty, SortedMap.size]
    cases m.entries <;> rfl
  case ascending => exact hyields halike
  case descending =>
    apply hyields
    rw [descending, t.overlay.toList_descending hb]
    exact List.rel_reverse halike
  case atLeast =>
    intro q
    apply hyields
    rw [atLeast, t.overlay.toList_atLeast hb]
    refine forall₂_filter (p := (compare · q != .lt)) (fun a b hab => ?_) halike
    rw [Std.TransCmp.congr_left hab]
  case atMost =>
    intro q
    apply hyields
    rw [atMost, t.overlay.toList_atMost hb]
    refine List.rel_reverse (forall₂_filter (p := (compare · q != .gt)) (fun a b hab => ?_) halike)
    rw [Std.TransCmp.congr_left hab]

theorem call_models [BEq V] {t : Transaction K V} {base : Snapshot K V} {m : SortedMap K V}
    (hb : Ascending base.toList) (hbase : t.base = base) (ht : t.status = .active)
    (h : t.overlay.Models base m) (c : Call K V) :
    ∃ t', t.call c = .ok ((plainCall ⟨base.toList, hb⟩ m c).1, t') ∧ t'.base = base ∧
      t'.status = .active ∧ t'.overlay.Models base (plainCall ⟨base.toList, hb⟩ m c).2 := by
  subst hbase
  have hopen (edit : Edit) : t.ensureActive edit = .ok () := by rw [ensureActive, ht]
  have hflag (key : K) : (t.overlay.remove t.base key).1 = m.contains key := by
    rw [t.overlay.remove_fst, h.contains]
  have hremove (key : K) :
      t.remove key = .ok (m.contains key, { t with overlay := (t.overlay.remove t.base key).2 }) := by
    simp only [remove, hopen, ← hflag]
    rfl
  cases c with
  | set key value =>
      refine ⟨{ t with overlay := t.overlay.set t.base key value }, ?_, rfl, ht, ?_⟩
      · simp only [call, set, hopen]
        rfl
      · have hold : t.base.get? key = SortedMap.get? ⟨t.base.toList, hb⟩ key :=
          Snapshot.get?_eq_entryAt hb key
        rw [plainCall, ← hold]
        exact h.set hb key value
  | remove key =>
      refine ⟨{ t with overlay := (t.overlay.remove t.base key).2 }, ?_, rfl, ht, h.remove hb key⟩
      rw [call, hremove]
      rfl
  | tryRemove key =>
      refine ⟨{ t with overlay := (t.overlay.remove t.base key).2 }, ?_, rfl, ht, h.remove hb key⟩
      rw [call, tryRemove, hremove]
      rfl
  | revert =>
      refine ⟨{ t with overlay := .empty }, ?_, rfl, ht, Overlay.models_empty hb⟩
      simp only [call, revert, hopen]
      rfl

theorem calls_models [BEq V] {t : Transaction K V} {base : Snapshot K V} {m : SortedMap K V}
    (hb : Ascending base.toList) (hbase : t.base = base) (ht : t.status = .active)
    (h : t.overlay.Models base m) (cs : List (Call K V)) :
    ∃ t', t.calls cs = .ok ((plainCalls ⟨base.toList, hb⟩ m cs).1, t') ∧
      t'.ReadsAs (plainCalls ⟨base.toList, hb⟩ m cs).2 := by
  induction cs generalizing t m with
  | nil => exact ⟨t, rfl, readsAs_of_models (hbase ▸ hb) (hbase ▸ h)⟩
  | cons c cs ih =>
      obtain ⟨t₁, hcall, hbase₁, ht₁, h₁⟩ := call_models hb hbase ht h c
      obtain ⟨t₂, hcalls, h₂⟩ := ih hbase₁ ht₁ h₁
      refine ⟨t₂, ?_, h₂⟩
      simp only [calls, hcall, bind, Except.bind, hcalls]
      rfl

/-- Whatever is called on an open transaction, it answers and it reads as the plain map does on which
the same calls are performed. -/
theorem calls_refine_plain_map [BEq V] (origin : Pinned K V) (hb : Ascending origin.snapshot.toList)
    (cs : List (Call K V)) :
    ∃ t, (start origin).calls cs =
        .ok ((plainCalls ⟨origin.snapshot.toList, hb⟩ ⟨origin.snapshot.toList, hb⟩ cs).1, t) ∧
      t.ReadsAs (plainCalls ⟨origin.snapshot.toList, hb⟩ ⟨origin.snapshot.toList, hb⟩ cs).2 :=
  calls_models hb rfl rfl (Overlay.models_empty hb) cs

theorem calls_refine_plain_map_cancelling :
    let origin : Pinned Nat Nat := ⟨0, #[(1, 10), (3, 30)], 1⟩
    Ascending origin.snapshot.toList ∧
      ∃ t, (start origin).calls [.set 1 10, .remove 3, .set 3 31, .tryRemove 2, .set 2 20, .remove 1, .tryRemove 2] =
          .ok ([none, some true, none, some false, none, some true, some true], t) ∧
        t.ReadsAs ⟨[(3, 31)], by decide⟩ :=
  ⟨by decide, calls_refine_plain_map _ (by decide) _⟩

end Transaction

end VersionedMap
