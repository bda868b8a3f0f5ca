import VersionedMap.MergedWalk
import VersionedMap.Proofs.SortedEntries
import Mathlib.Data.List.TakeWhile

namespace VersionedMap

/-- The entry that the merged view shows for a key, given what is pending for it and its base entry. -/
def Overlay.shown {K V : Type} : Option (K × Pending V) → Option (K × V) → Option (K × V)
  | some (key, .upserted value), _ => some (key, value)
  | some (_, .removed), _ => none
  | none, old => old

namespace MergedWalk

open Overlay

variable {K V α : Type} [Ord K]

def Along (descending : Bool) (entries : List (K × α)) : Prop :=
  entries.Pairwise fun a b => order descending a.1 b.1 = .lt

theorem along_true {entries : List (K × α)} : Along true entries ↔ Ascending entries.reverse :=
  List.pairwise_reverse.symm

variable [Std.TransOrd K] {d : Bool}

instance trans_order : Std.TransCmp (order d : K → K → Ordering) := by
  cases d with
  | false => exact inferInstanceAs (Std.TransCmp fun a b : K => compare a b)
  | true => exact inferInstanceAs (Std.TransCmp fun a b : K => compare b a)

theorem order_eq_iff {a b : K} : order d a b = .eq ↔ compare a b = .eq := by
  cases d with
  | false => rfl
  | true => exact Std.OrientedCmp.eq_comm

theorem compare_ne_of_order {a b : K} (h : order d a b ≠ .eq) : compare a b ≠ .eq :=
  fun heq => h (order_eq_iff.mpr heq)

theorem Along.distinct {entries : List (K × α)} (h : Along d entries) : Distinct entries := by
  refine h.imp fun hlt => compare_ne_of_order (d := d) ?_
  rw [hlt]
  exact nofun

def behind (d : Bool) (key : K) (base : List (K × V)) : List (K × V) :=
  dropShadowed d key (base.dropWhile (before d key))

omit [Std.TransOrd K] in
theorem merge_cons (key : K) (op : Pending V) (ops : List (K × Pending V)) (base : List (K × V)) :
    merge d base ((key, op) :: ops) = base.takeWhile (before d key) ++
      ((shown (some (key, op)) none).toList ++ merge d (behind d key base) ops) := by
  cases op <;> rfl

omit [Std.TransOrd K] in
theorem dropShadowed_sublist (key : K) (base : List (K × V)) : (dropShadowed d key base).Sublist base := by
  cases base with
  | nil => exact .slnil
  | cons e base =>
      rw [dropShadowed]
      split
      · exact List.sublist_cons_self e base
      · exact List.Sublist.refl _

omit [Std.TransOrd K] in
theorem behind_sublist (key : K) (base : List (K × V)) : (behind d key base).Sublist base :=
  (dropShadowed_sublist key _).trans (List.dropWhile_sublist _)

omit [Std.TransOrd K] in
theorem before_of_mem_takeWhile {key : K} {base : List (K × V)} {e : K × V}
    (h : e ∈ base.takeWhile (before d key)) : order d e.1 key = .lt := by
  simpa [before] using List.mem_takeWhile_imp h

theorem after_of_mem_behind {key : K} {base : List (K × V)} (hb : Along d base) :
    ∀ e ∈ behind d key base, order d key e.1 = .lt := by
  have hrest : Along d (base.dropWhile (before d key)) := hb.sublist (List.dropWhile_sublist _)
  have hhead := List.head?_dropWhile_not (before d key) base
  unfold behind
  cases hc : base.dropWhile (before d key) with
  | nil => simp [dropShadowed]
  | cons x xs =>
      rw [hc] at hrest hhead
      have hx : order d x.1 key ≠ .lt := by simpa [before] using hhead
      intro e he
      rw [dropShadowed] at he
      split at he
      · rename_i heq
        exact Std.TransCmp.lt_of_eq_of_lt (Std.OrientedCmp.eq_symm heq) (List.rel_of_pairwise_cons hrest he)
      · rename_i hne
        have hkx : order d key x.1 = .lt := by
          cases ho : order d x.1 key with
          | lt => exact absurd ho hx
          | eq => exact absurd ho hne
          | gt => exact Std.OrientedCmp.lt_of_gt ho
        rcases List.mem_cons.mp he with rfl | he
        · exact hkx
        · exact Std.TransCmp.lt_trans hkx (List.rel_of_pairwise_cons hrest he)

theorem entryAt_dropShadowed {key q : K} (hq : compare key q ≠ .eq) (base : List (K × V)) :
    entryAt (dropShadowed d key base) q = entryAt base q := by
  cases base with
  | nil => rfl
  | cons e base =>
      rw [dropShadowed]
      split
      · rename_i he
        have hne : compare e.1 q ≠ .eq := fun heq =>
          hq (Std.TransCmp.eq_trans (Std.OrientedCmp.eq_symm (order_eq_iff.mp he)) heq)
        rw [entryAt_cons_other hne]
      · rfl

theorem entryAt_split {key q : K} (hq : compare key q ≠ .eq) (base : List (K × V)) :
    entryAt base q =
      (entryAt (base.takeWhile (before d key)) q).or (entryAt (behind d key base) q) := by
  rw [behind, entryAt_dropShadowed hq, ← entryAt_append, List.takeWhile_append_dropWhile]

omit [Std.TransOrd K] in
theorem forall_mem_merge {P : K → Prop} {base : List (K × V)} {ops : List (K × Pending V)}
    (hb : ∀ e ∈ base, P e.1) (ho : ∀ e ∈ ops, P e.1) : ∀ e ∈ merge d base ops, P e.1 := by
  induction ops generalizing base with
  | nil => exact hb
  | cons op ops ih =>
      obtain ⟨key, op⟩ := op
      have htail : ∀ e ∈ merge d (behind d key base) ops, P e.1 :=
        ih (fun e he => hb e ((behind_sublist key base).subset he))
          fun e he => ho e (List.mem_cons_of_mem _ he)
      intro e he
      rw [merge_cons] at he
      rcases List.mem_append.mp he with he | he
      · exact hb e ((List.takeWhile_sublist _).subset he)
      · rcases List.mem_append.mp he with he | he
        · cases op with
          | upserted value =>
              cases List.mem_singleton.mp he
              exact ho (key, .upserted value) List.mem_cons_self
          | removed => exact nomatch he
        · exact htail e he

theorem merge_along {base : List (K × V)} {ops : List (K × Pending V)} (hb : Along d base)
    (ho : Along d ops) : Along d (merge d base ops) := by
  induction ops generalizing base with
  | nil => exact hb
  | cons op ops ih =>
      obtain ⟨key, op⟩ := op
      obtain ⟨hkey, hops⟩ := List.pairwise_cons.mp ho
      have habove := forall_mem_merge (d := d) (P := fun k => order d key k = .lt)
        (after_of_mem_behind hb) hkey
      have htail : Along d (merge d (behind d key base) ops) :=
        ih (hb.sublist (behind_sublist key base)) hops
      have hrest : Along d ((shown (some (key, op)) none).toList ++ merge d (behind d key base) ops) := by
        cases op with
        | upserted value => exact List.pairwise_cons.mpr ⟨habove, htail⟩
        | removed => exact htail
      rw [merge_cons]
      refine List.pairwise_append.mpr ⟨hb.sublist (List.takeWhile_sublist _), hrest, ?_⟩
      intro a ha b hab
      have hak := before_of_mem_takeWhile ha
      rcases List.mem_append.mp hab with hab | hab
      · cases op with
        | upserted value =>
            cases List.mem_singleton.mp hab
            exact hak
        | removed => exact nomatch hab
      · exact Std.TransCmp.lt_trans hak (habove b hab)

/-- Under every key the merged list holds what is pending for the key, or else what the base holds. -/
theorem entryAt_merge {base : List (K × V)} {ops : List (K × Pending V)} (hb : Along d base)
    (ho : Along d ops) (q : K) :
    entryAt (merge d base ops) q = shown (entryAt ops q) (entryAt base q) := by
  induction ops generalizing base with
  | nil => rfl
  | cons op ops ih =>
      obtain ⟨key, op⟩ := op
      obtain ⟨hkey, hops⟩ := List.pairwise_cons.mp ho
      rw [merge_cons, entryAt_append, entryAt_append]
      by_cases hq : compare key q = .eq
      · have hqk : order d q key = .eq := order_eq_iff.mpr (Std.OrientedCmp.eq_symm hq)
        have hfront : entryAt (base.takeWhile (before d key)) q = none := by
          refine entryAt_eq_none fun e he heq => ?_
          have hlt := before_of_mem_takeWhile he
          rw [Std.TransCmp.congr_left (order_eq_iff.mpr heq), hqk] at hlt
          exact nomatch hlt
        have hback : entryAt (merge d (behind d key base) ops) q = none := by
          refine entryAt_eq_none fun e he heq => ?_
          have hlt := forall_mem_merge (d := d) (P := fun k => order d key k = .lt)
            (after_of_mem_behind hb) hkey e he
          rw [order_eq_iff.mpr (Std.TransCmp.eq_trans hq (Std.OrientedCmp.eq_symm heq))] at hlt
          exact nomatch hlt
        rw [hfront, hback]
        cases op <;> simp [entryAt, sameKey, hq, shown]
      · have hop : entryAt (shown (some (key, op)) none).toList q = none := by
          cases op <;> simp [entryAt, sameKey, hq, shown]
        rw [hop, Option.none_or, ih (hb.sublist (behind_sublist key base)) hops, entryAt_cons_other hq,
          entryAt_split (d := d) hq base]
        cases hfront : entryAt (base.takeWhile (before d key)) q with
        | none => rw [Option.none_or, Option.none_or]
        | some e =>
            have he := List.mem_of_find?_eq_some hfront
            have hsame : compare e.1 q = .eq :=
              sameKey_iff.mp (List.find?_some (p := fun e : K × V => sameKey e.1 q) hfront)
            have hqk : order d q key = .lt := by
              rw [← Std.TransCmp.congr_left (order_eq_iff.mpr hsame)]
              exact before_of_mem_takeWhile he
            have hnone : entryAt ops q = none := by
              refine entryAt_eq_none fun o hmem heq => ?_
              have hlt := Std.TransCmp.lt_trans hqk (hkey o hmem)
              rw [order_eq_iff.mpr (Std.OrientedCmp.eq_symm heq)] at hlt
              exact nomatch hlt
            rw [hnone]
            rfl

/-- Against the order of the keys the merged list is the same, from the other end. -/
theorem merge_reverse {base : List (K × V)} {ops : List (K × Pending V)} (hb : Ascending base)
    (ho : Ascending ops) : merge true base.reverse ops.reverse = (merge false base ops).reverse := by
  have hbase : Along true base.reverse := along_true.mpr (by rwa [List.reverse_reverse])
  have hops : Along true ops.reverse := along_true.mpr (by rwa [List.reverse_reverse])
  have hback := merge_along hbase hops
  rw [← List.reverse_eq_iff]
  refine (along_true.mp hback).eq_of_entryAt (merge_along (d := false) hb ho) fun q => ?_
  rw [hback.distinct.entryAt_reverse, entryAt_merge hbase hops, ho.distinct.entryAt_reverse,
    hb.distinct.entryAt_reverse, entryAt_merge (d := false) hb ho]

end MergedWalk

namespace Overlay

open MergedWalk

variable {K V : Type} [Ord K] [Std.TransOrd K] (o : Overlay K V) {base : Snapshot K V}

theorem ascending_toList (hb : Ascending base.toList) : Ascending (o.ascending base).toList :=
  merge_along (d := false) hb o.ops.ascending

theorem entryAt_toList (hb : Ascending base.toList) (q : K) :
    entryAt (o.ascending base).toList q = shown (o.ops.lookup? q) (entryAt base.toList q) :=
  entryAt_merge (d := false) hb o.ops.ascending q

theorem toList_descending (hb : Ascending base.toList) :
    (o.descending base).toList = (o.ascending base).toList.reverse :=
  merge_reverse hb o.ops.ascending

/-- Merging two ranges of keys is the range of the merged view. -/
theorem merge_filter (hb : Ascending base.toList) {p : K → Bool}
    (hp : ∀ a b, compare a b = .eq → p a = p b) :
    merge false (base.toList.filter (p ·.1)) (o.ops.entries.filter (p ·.1)) =
      (o.ascending base).toList.filter (p ·.1) := by
  have hbase : Ascending (base.toList.filter (p ·.1)) := hb.filter _
  have hops : Ascending (o.ops.entries.filter (p ·.1)) := o.ops.ascending.filter _
  have hmerged : Ascending (merge false (base.toList.filter (p ·.1)) (o.ops.entries.filter (p ·.1))) :=
    merge_along (d := false) hbase hops
  refine hmerged.eq_of_entryAt ((o.ascending_toList hb).filter _) fun q => ?_
  rw [entryAt_merge (d := false) hbase hops, entryAt_filter hp, entryAt_filter hp, entryAt_filter hp,
    o.entryAt_toList hb]
  cases p q with
  | true => rfl
  | false => rfl

theorem toList_atLeast (hb : Ascending base.toList) (q : K) :
    (o.atLeast base q).toList = (o.ascending base).toList.filter (compare ·.1 q != .lt) := by
  have hp : ∀ a b : K, compare a b = .eq → (compare a q != .lt) = (compare b q != .lt) := by
    intro a b h
    rw [Std.TransCmp.congr_left h]
  rw [← o.merge_filter hb hp, ← hb.dropWhile_below, ← o.ops.ascending.dropWhile_below,
    ← Cursor.toList_atLeast hb]
  rfl

theorem toList_atMost (hb : Ascending base.toList) (q : K) :
    (o.atMost base q).toList = ((o.ascending base).toList.filter (compare ·.1 q != .gt)).reverse := by
  have hp : ∀ a b : K, compare a b = .eq → (compare a q != .gt) = (compare b q != .gt) := by
    intro a b h
    rw [Std.TransCmp.congr_left h]
  have hwalk : (o.atMost base q).toList =
      merge true (base.toList.filter (compare ·.1 q != .gt)).reverse
        (o.ops.entries.filter (compare ·.1 q != .gt)).reverse := by
    rw [← hb.takeWhile_notAbove, ← o.ops.ascending.takeWhile_notAbove, ← Cursor.toList_atMost hb]
    rfl
  rw [hwalk, merge_reverse (hb.filter _) (o.ops.ascending.filter _), o.merge_filter hb hp]

end Overlay

end VersionedMap
