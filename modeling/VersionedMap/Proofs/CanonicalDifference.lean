import VersionedMap.Proofs.KeyedDifference
import Mathlib.Data.List.Perm.Subperm

namespace VersionedMap

variable {K V : Type} [Ord K]

theorem Rising.cons {α : Type} {order : α → α → Ordering} {a : α} {items : List α} (h : Rising order items)
    (ha : ∀ b ∈ items, order a b = .lt) : Rising order (a :: items) :=
  List.pairwise_cons.mpr ⟨fun b hb => Ordering.isLE_of_eq_lt (ha b hb), h⟩

namespace Changes

theorem rising_map {entries : List (K × V)} (h : Ascending entries) (op : Operation) :
    Rising (compare ·.item.1 ·.item.1) (entries.map (Change.mk op)) :=
  List.pairwise_map.mpr (h.imp Ordering.isLE_of_eq_lt)

theorem length_le_of_on [Std.LawfulEqOrd K] {cs ds : Changes (K × V)}
    (h : ∀ q, (cs.on q).length ≤ (ds.on q).length) : cs.length ≤ ds.length := by
  classical
  have hcount (es : Changes (K × V)) (q : K) : (es.map (·.item.1)).count q = (es.on q).length := by
    rw [on, List.count, List.countP_map, List.countP_eq_length_filter]
    congr 2
    funext e
    simp [sameKey]
  have hsub : (cs.map (·.item.1)).Subperm (ds.map (·.item.1)) := by
    refine List.subperm_ext_iff.mpr fun q _ => ?_
    rw [hcount, hcount]
    exact h q
  simpa using hsub.length_le

omit [Ord K] in
/-- Changes on a key that lead from one entry to another are no fewer than it takes to replace the one by the other. -/
theorem length_replacing_le {cs : Changes (K × V)} {old? new? : Option (K × V)}
    (h : Alternate old?.isSome (cs.map (·.op))) (hlast : cs.getLast?.elim old? Change.leaves = new?)
    (hne : old? ≠ new?) : (replacing old? new?).length ≤ cs.length := by
  match cs with
  | [] => exact absurd hlast hne
  | [c] =>
      have hop := h.1
      cases old? with
      | none => cases new? <;> simp [replacing]
      | some old =>
          have hnone : new? = none := by
            rw [← hlast]
            simp [Change.leaves, hop, Operation.fitting]
          simp [replacing, hnone]
  | _ :: _ :: cs => cases old? <;> cases new? <;> simp [replacing]

variable [Std.TransOrd K]

theorem on_eq_nil {cs : Changes (K × V)} {q : K} (h : ∀ c ∈ cs, compare q c.item.1 = .lt) : cs.on q = [] := by
  refine List.filter_eq_nil_iff.mpr fun c hc hsame => ?_
  have heq := Std.OrientedCmp.eq_symm (sameKey_iff.mp hsame)
  simp [h c hc] at heq

theorem on_prefix_of_isLE {cs : Changes (K × V)} (h : Rising (compare ·.item.1 ·.item.1) cs) {q : K}
    (hq : ∀ c ∈ cs, (compare q c.item.1).isLE) : cs.on q <+: cs := by
  induction cs with
  | nil => exact List.prefix_rfl
  | cons c cs ih =>
      obtain ⟨hc, hcs⟩ := List.pairwise_cons.mp h
      obtain ⟨hqc, hq⟩ := List.forall_mem_cons.mp hq
      by_cases hsame : compare c.item.1 q = .eq
      · rw [on_cons_same hsame]
        exact (List.prefix_cons_inj c).mpr (ih hcs hq)
      · have hlt : compare q c.item.1 = .lt := by
          cases ho : compare q c.item.1 with
          | lt => rfl
          | eq => exact absurd (Std.OrientedCmp.eq_symm ho) hsame
          | gt => simp [ho] at hqc
        rw [on_cons_other hsame, on_eq_nil fun d hd => Std.TransCmp.lt_of_lt_of_isLE hlt (hc d hd)]
        exact List.nil_prefix

theorem on_infix_of_rising {cs : Changes (K × V)} (h : Rising (compare ·.item.1 ·.item.1) cs) (q : K) : cs.on q <:+: cs := by
  induction cs with
  | nil => exact List.infix_rfl
  | cons c cs ih =>
      obtain ⟨hc, hcs⟩ := List.pairwise_cons.mp h
      by_cases hsame : compare c.item.1 q = .eq
      · have hq : ∀ d ∈ cs, (compare q d.item.1).isLE := fun d hd => by
          rw [← Std.TransCmp.congr_left hsame]
          exact hc d hd
        rw [on_cons_same hsame]
        exact ((List.prefix_cons_inj c).mpr (on_prefix_of_isLE hcs hq)).isInfix
      · rw [on_cons_other hsame]
        exact List.infix_cons (ih hcs)

end Changes

namespace EntryDiff

variable [BEq V] {source target : List (K × V)}

theorem forall_mem_changes {P : K → Prop} (hs : ∀ e ∈ source, P e.1) (ht : ∀ e ∈ target, P e.1) :
    ∀ c ∈ changes source target, P c.item.1 := by
  fun_induction changes source target with
  | case1 target => exact List.forall_mem_map.mpr ht
  | case2 source _ => exact List.forall_mem_map.mpr hs
  | case3 a source b target _ ih =>
      obtain ⟨ha, hs⟩ := List.forall_mem_cons.mp hs
      exact List.forall_mem_cons.mpr ⟨ha, ih hs ht⟩
  | case4 a source b target _ ih =>
      obtain ⟨hb, ht⟩ := List.forall_mem_cons.mp ht
      exact List.forall_mem_cons.mpr ⟨hb, ih hs ht⟩
  | case5 a source b target _ _ ih =>
      exact ih (List.forall_mem_cons.mp hs).2 (List.forall_mem_cons.mp ht).2
  | case6 a source b target _ _ ih =>
      obtain ⟨ha, hs⟩ := List.forall_mem_cons.mp hs
      obtain ⟨hb, ht⟩ := List.forall_mem_cons.mp ht
      exact List.forall_mem_cons.mpr ⟨ha, List.forall_mem_cons.mpr ⟨hb, ih hs ht⟩⟩

theorem rising_changes [Std.TransOrd K] (hs : Ascending source) (ht : Ascending target) :
    Rising (compare ·.item.1 ·.item.1) (changes source target) := by
  fun_induction changes source target with
  | case1 target => exact Changes.rising_map ht .added
  | case2 source _ => exact Changes.rising_map hs .removed
  | case3 a source b target hab ih =>
      obtain ⟨ha, hs⟩ := List.pairwise_cons.mp hs
      have hb : ∀ e ∈ b :: target, compare a.1 e.1 = .lt :=
        List.forall_mem_cons.mpr ⟨hab, fun e he => Std.TransCmp.lt_trans hab (List.rel_of_pairwise_cons ht he)⟩
      exact (ih hs ht).cons (forall_mem_changes (P := (compare a.1 · = .lt)) ha hb)
  | case4 a source b target hab ih =>
      have hba := Std.OrientedCmp.lt_of_gt hab
      obtain ⟨hb, ht⟩ := List.pairwise_cons.mp ht
      have ha : ∀ e ∈ a :: source, compare b.1 e.1 = .lt :=
        List.forall_mem_cons.mpr ⟨hba, fun e he => Std.TransCmp.lt_trans hba (List.rel_of_pairwise_cons hs he)⟩
      exact (ih hs ht).cons (forall_mem_changes (P := (compare b.1 · = .lt)) ha hb)
  | case5 a source b target _ _ ih => exact ih hs.of_cons ht.of_cons
  | case6 a source b target hab _ ih =>
      obtain ⟨ha, hs⟩ := List.pairwise_cons.mp hs
      obtain ⟨hb, ht⟩ := List.pairwise_cons.mp ht
      have hkeys (k : K) : compare a.1 k = compare b.1 k := Std.TransCmp.congr_left hab
      have hbs : ∀ c ∈ changes source target, compare b.1 c.item.1 = .lt :=
        forall_mem_changes (P := (compare b.1 · = .lt)) (fun e he => hkeys e.1 ▸ ha e he) hb
      have hpair : Rising (compare ·.item.1 ·.item.1) (.added b :: changes source target) := (ih hs ht).cons hbs
      refine List.pairwise_cons.mpr
        ⟨List.forall_mem_cons.mpr ⟨Ordering.isLE_of_eq_eq hab, fun c hc => ?_⟩, hpair⟩
      exact Ordering.isLE_of_eq_lt ((hkeys c.item.1).trans (hbs c hc))

end EntryDiff

namespace SortedMap

variable [Std.TransOrd K] [BEq V] [LawfulBEq V] (a b : SortedMap K V)

theorem length_on_diffEntries_le {cs : Changes (K × V)} (h : a.replay cs = (b, none)) (q : K) :
    ((diffEntries a.entries b.entries).on q).length ≤ (cs.on q).length := by
  rw [on_diffEntries]
  split
  · exact Nat.zero_le _
  · rename_i hne
    have hadmits : a.Admits cs := replay_eq_none_iff.mp (by rw [h])
    obtain ⟨m, hreplay, hlookup⟩ := replay_of_admits hadmits
    obtain rfl : b = m := (Prod.mk.inj (h.symm.trans hreplay)).1
    refine Changes.length_replacing_le (hadmits q) (hlookup q).symm fun heq => hne ?_
    rw [get?, get?, heq]
    exact BEq.rfl

/-- Where equality is identity, the difference of two maps is in the order of their keys. It has changes on those
keys only under which the maps hold different values or only one holds any: the removal of the first map's entry,
directly followed by the addition of the second's. It leads from the first map to the second, and nothing shorter
does. -/
theorem diffEntries_canonical [Std.LawfulEqOrd K] :
    let changes := diffEntries a.entries b.entries
    Walk.Yields EntryDiff.next (.start a.entries b.entries) changes ∧
    Rising (compare ·.item.1 ·.item.1) changes ∧
    (∀ q, (changes.on q).length ≤ 2 ∧ changes.on q <:+: changes ∧
      (changes.on q ≠ [] ↔ a.get? q ≠ b.get? q) ∧
      (a.get? q ≠ b.get? q → changes.on q = Changes.replacing (a.lookup? q) (b.lookup? q))) ∧
    a.replay changes = (b, none) ∧ ∀ cs, a.replay cs = (b, none) → changes.length ≤ cs.length := by
  intro changes
  have hrising : Rising (compare ·.item.1 ·.item.1) changes := EntryDiff.rising_changes a.ascending b.ascending
  refine ⟨EntryDiff.shows_toList.yields _, hrising, fun q => ?_, a.replay_difference_eq b,
    fun cs hcs => Changes.length_le_of_on (a.length_on_diffEntries_le b hcs)⟩
  have hon : changes.on q = _ := a.on_diffEntries b q
  have hlength : (Changes.replacing (a.lookup? q) (b.lookup? q)).length ≤ 2 := by
    cases a.lookup? q <;> cases b.lookup? q <;> simp [Changes.replacing]
  cases hsame : a.get? q == b.get? q with
  | true =>
      rw [hsame, if_pos rfl] at hon
      have heq : a.get? q = b.get? q := eq_of_beq hsame
      simp [hon, heq]
  | false =>
      rw [hsame, if_neg Bool.false_ne_true] at hon
      have hne : a.get? q ≠ b.get? q := ne_of_beq_false hsame
      have htouched : Changes.replacing (a.lookup? q) (b.lookup? q) ≠ [] := by
        rw [get?, get?] at hne
        cases hold : a.lookup? q <;> cases hnew : b.lookup? q <;> simp_all [Changes.replacing]
      exact ⟨hon ▸ hlength, Changes.on_infix_of_rising hrising q, by simp [hon, hne, htouched], fun _ => hon⟩

theorem diffEntries_canonical_replaced :
    let a : SortedMap Nat Nat := ⟨[(1, 10), (2, 20), (4, 40)], by decide⟩
    let b : SortedMap Nat Nat := ⟨[(1, 10), (2, 21), (3, 30)], by decide⟩
    let changes := diffEntries a.entries b.entries
    changes = [.removed (2, 20), .added (2, 21), .added (3, 30), .removed (4, 40)] ∧
    Walk.Yields EntryDiff.next (.start a.entries b.entries) changes ∧
    Rising (compare ·.item.1 ·.item.1) changes ∧
    (∀ q, (changes.on q).length ≤ 2 ∧ changes.on q <:+: changes ∧
      (changes.on q ≠ [] ↔ a.get? q ≠ b.get? q) ∧
      (a.get? q ≠ b.get? q → changes.on q = Changes.replacing (a.lookup? q) (b.lookup? q))) ∧
    a.replay changes = (b, none) ∧ ∀ cs, a.replay cs = (b, none) → changes.length ≤ cs.length := by
  intro a b changes
  have hchanges : changes = [.removed (2, 20), .added (2, 21), .added (3, 30), .removed (4, 40)] := by
    simp [changes, a, b, diffEntries, EntryDiff.start, EntryDiff.toList, EntryDiff.changes, Nat.compare_eq_gt.mpr]
  exact ⟨hchanges, diffEntries_canonical a b⟩

end SortedMap

end VersionedMap
