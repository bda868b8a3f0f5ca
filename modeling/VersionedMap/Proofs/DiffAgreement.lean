import VersionedMap.Store
import VersionedMap.Proofs.Sessions

namespace VersionedMap

variable {K V : Type} [Ord K] [Std.TransOrd K]

namespace EntryDiff

variable [BEq V]

theorem changes_append {front : List (K × V)} (hf : ∀ e ∈ front, (e.2 == e.2) = true)
    (source target : List (K × V)) : changes (front ++ source) (front ++ target) = changes source target := by
  induction front with
  | nil => rfl
  | cons e front ih =>
      obtain ⟨he, hf⟩ := List.forall_mem_cons.mp hf
      simp [changes, he, ih hf]

theorem changes_of_source_above {b : K × V} {source : List (K × V)}
    (hs : ∀ e ∈ source, compare b.1 e.1 = .lt) (target : List (K × V)) :
    changes source (b :: target) = .added b :: changes source target := by
  cases source with
  | nil => simp
  | cons a source =>
      have hab : compare a.1 b.1 = .gt := Std.OrientedCmp.gt_of_lt (hs a List.mem_cons_self)
      simp [changes, hab]

omit [Std.TransOrd K] in
theorem changes_of_target_above {a : K × V} {target : List (K × V)}
    (ht : ∀ e ∈ target, compare a.1 e.1 = .lt) (source : List (K × V)) :
    changes (a :: source) target = .removed a :: changes source target := by
  cases target with
  | nil => simp
  | cons b target => simp [changes, ht b List.mem_cons_self]

end EntryDiff

namespace MergedWalk

theorem dropWhile_before {base : List (K × V)} (hb : Ascending base) (key : K) :
    base.dropWhile (before false key) = (entryAt base key).toList ++ behind false key base := by
  have hfind : entryAt base key = (base.dropWhile (before false key)).head?.filter (sameKey ·.1 key) :=
    Snapshot.find?_of_ascending hb key
  rw [hfind, behind]
  cases base.dropWhile (before false key) with
  | nil => rfl
  | cons e rest =>
      by_cases he : compare e.1 key = .eq
      · simp [dropShadowed, order, sameKey, he, Option.filter]
      · simp [dropShadowed, order, sameKey, he, Option.filter]

theorem entryAt_behind {key q : K} (hq : compare key q = .lt) (base : List (K × V)) :
    entryAt (behind false key base) q = entryAt base q := by
  have hne : compare key q ≠ .eq := by simp [hq]
  have hfront : entryAt (base.takeWhile (before false key)) q = none := by
    refine entryAt_eq_none fun e he heq => ?_
    have hlt : compare e.1 q = .lt := Std.TransCmp.lt_trans (before_of_mem_takeWhile he) hq
    simp [heq] at hlt
  rw [entryAt_split (d := false) hne base, hfront, Option.none_or]

end MergedWalk

namespace Overlay

variable [BEq V]

/-- An operation does something to the value under its key. -/
def Alters : Pending V → Option V → Prop
  | .upserted value, original? => original?.any (· == value) = false
  | .removed, original? => original?.isSome = true

def Effective (o : Overlay K V) (base : Snapshot K V) : Prop :=
  ∀ q op, o.ops.get? q = some op → Alters op (base.get? q)

variable {base : Snapshot K V} {o : Overlay K V}

omit [Std.TransOrd K] in
theorem effective_empty : (empty : Overlay K V).Effective base :=
  nofun

theorem Effective.erase (h : o.Effective base) (key : K) (growth : Int) :
    Effective ⟨o.ops.erase key, growth⟩ base := by
  intro q op hq
  rw [SortedMap.get?_erase] at hq
  split at hq
  · cases hq
  · exact h q op hq

theorem Effective.insert (hb : Ascending base.toList) (h : o.Effective base) {key : K} {op : Pending V}
    (hop : Alters op (base.get? key)) (growth : Int) : Effective ⟨o.ops.insert key op, growth⟩ base := by
  intro q op' hq
  rw [SortedMap.get?_insert] at hq
  split at hq
  · rename_i hsame
    cases hq
    rwa [← Snapshot.get?_congr hb (sameKey_iff.mp hsame)]
  · exact h q op' hq

theorem Effective.set (hb : Ascending base.toList) (h : o.Effective base) (key : K) (value : V) :
    (o.set base key value).Effective base := by
  by_cases hcancel : (base.get? key).any (· == value) = true
  · rw [Overlay.set, if_pos hcancel]
    exact h.erase key _
  · rw [Overlay.set, if_neg hcancel]
    have halters : Alters (.upserted value) (base.get? key) := Bool.eq_false_iff.mpr hcancel
    exact h.insert hb halters _

theorem Effective.remove (hb : Ascending base.toList) (h : o.Effective base) (key : K) :
    (o.remove base key).2.Effective base := by
  rw [Overlay.remove]
  split
  · exact h
  · cases hold : base.lookup? key with
    | none => exact h.erase key _
    | some entry =>
        rw [Snapshot.lookup?_eq_entryAt hb] at hold
        have hmem := (hb.distinct.entryAt_eq_some_iff.mp hold).1
        refine h.insert hb ?_ _
        rw [Snapshot.get?_eq_entryAt hb, hb.distinct.entryAt_of_mem hmem]
        rfl

end Overlay

namespace OverlayDiff

open MergedWalk EntryDiff

variable [BEq V]

/-- What an operation reports is what comparing the base and the merged view finds around its key. -/
theorem changes_at {key : K} {op : Pending V} {base rest merged : List (K × V)}
    (hop : Overlay.Alters op ((entryAt base key).map (·.2)))
    (hrest : ∀ e ∈ rest, compare key e.1 = .lt) (hmerged : ∀ e ∈ merged, compare key e.1 = .lt) :
    EntryDiff.changes ((entryAt base key).toList ++ rest)
        ((Overlay.shown (some (key, op)) none).toList ++ merged) =
      report key op (entryAt base key) ++ EntryDiff.changes rest merged := by
  cases hold : entryAt base key with
  | none =>
      cases op with
      | upserted value => exact changes_of_source_above (b := (key, value)) hrest merged
      | removed => simp [hold, Overlay.Alters] at hop
  | some old =>
      have hkey : compare old.1 key = .eq := compare_of_entryAt hold
      cases op with
      | upserted value =>
          have hne : (old.2 == value) = false := by simpa [hold, Overlay.Alters] using hop
          simp [Overlay.shown, report, EntryDiff.changes, hkey, hne]
      | removed =>
          refine changes_of_target_above (fun e he => ?_) rest
          rw [Std.TransCmp.congr_left hkey]
          exact hmerged e he

theorem changes_merge {base : List (K × V)} (hb : Ascending base) (hv : ∀ e ∈ base, (e.2 == e.2) = true)
    {ops : List (K × Pending V)} (ho : Ascending ops)
    (hops : ∀ e ∈ ops, Overlay.Alters e.2 ((entryAt base e.1).map (·.2))) :
    EntryDiff.changes base (merge false base ops) = reports base ops := by
  -- each operation leaves the part of the base behind its key to those after it
  induction ops generalizing base with
  | nil => simpa [merge, reports] using changes_append hv [] []
  | cons op ops ih =>
      obtain ⟨key, op⟩ := op
      obtain ⟨hkey, ho⟩ := List.pairwise_cons.mp ho
      obtain ⟨hop, hops⟩ := List.forall_mem_cons.mp hops
      have hrest : ∀ e ∈ behind false key base, compare key e.1 = .lt := after_of_mem_behind hb
      have hmerged := forall_mem_merge (d := false) (P := fun k => compare key k = .lt) hrest hkey
      have hsame : ∀ e ∈ ops, entryAt (behind false key base) e.1 = entryAt base e.1 :=
        fun e he => entryAt_behind (hkey e he) base
      have htail : EntryDiff.changes (behind false key base) (merge false (behind false key base) ops) =
          reports base ops := by
        have hsub := behind_sublist (d := false) key base
        rw [ih (hb.sublist hsub) (fun e he => hv e (hsub.subset he)) ho fun e he => by
          rw [hsame e he]; exact hops e he]
        exact List.flatMap_congr fun e he => by rw [hsame e he]
      have hfront : ∀ e ∈ base.takeWhile (before false key), (e.2 == e.2) = true :=
        fun e he => hv e ((List.takeWhile_sublist _).subset he)
      have hsplit : base.takeWhile (before false key) ++
          ((entryAt base key).toList ++ behind false key base) = base := by
        rw [← dropWhile_before hb, List.takeWhile_append_dropWhile]
      -- up to the key both sides have the same entries, which are no change
      have hskip := changes_append hfront ((entryAt base key).toList ++ behind false key base)
        ((Overlay.shown (some (key, op)) none).toList ++ merge false (behind false key base) ops)
      rw [hsplit, ← merge_cons] at hskip
      calc EntryDiff.changes base (merge false base ((key, op) :: ops))
        _ = EntryDiff.changes ((entryAt base key).toList ++ behind false key base)
              ((Overlay.shown (some (key, op)) none).toList ++ merge false (behind false key base) ops) := hskip
        _ = report key op (entryAt base key) ++ reports base ops := by
            rw [changes_at hop hrest hmerged, htail]
        _ = reports base ((key, op) :: ops) := rfl

end OverlayDiff

theorem Overlay.Effective.diff_eq [BEq V] {base : Snapshot K V} {o : Overlay K V} (h : o.Effective base)
    (hb : Ascending base.toList) (hv : ∀ e ∈ base.toList, (e.2 == e.2) = true) :
    (o.diff base).toList = diffEntries base.toList (o.ascending base).toList := by
  rw [o.toList_diff hb]
  refine (OverlayDiff.changes_merge hb hv o.ops.ascending fun e he => ?_).symm
  have hpending : o.ops.get? e.1 = some e.2 := by
    rw [SortedMap.get?, SortedMap.lookup?, ← entryAt, o.ops.ascending.distinct.entryAt_of_mem he]
    rfl
  rw [← Snapshot.get?_eq_entryAt hb]
  exact h e.1 e.2 hpending

namespace Transaction

variable [BEq V] {t t' : Transaction K V}

theorem effective_call (hb : Ascending t.base.toList) (h : t.overlay.Effective t.base) {c : Call K V}
    {answer : Option Bool} (hc : t.call c = .ok (answer, t')) : t'.overlay.Effective t.base := by
  have hremove {key : K} {present : Bool} {t' : Transaction K V} (ht : t.remove key = .ok (present, t')) :
      t'.overlay.Effective t.base := by
    obtain ⟨_, _, hremoved⟩ := ok_of_bind ht
    cases hremoved
    exact h.remove hb key
  cases c with
  | set key value =>
      obtain ⟨_, hset, hcalled⟩ := ok_of_bind hc
      obtain ⟨_, _, hset⟩ := ok_of_bind hset
      cases hset
      cases hcalled
      exact h.set hb key value
  | remove key =>
      obtain ⟨_, ht, hcalled⟩ := ok_of_bind hc
      cases hcalled
      exact hremove ht
  | tryRemove key =>
      cases hc
      rw [tryRemove]
      split
      · exact hremove ‹_›
      · exact h
  | revert =>
      obtain ⟨_, hrevert, hcalled⟩ := ok_of_bind hc
      obtain ⟨_, _, hrevert⟩ := ok_of_bind hrevert
      cases hrevert
      cases hcalled
      exact Overlay.effective_empty

theorem effective_calls (hb : Ascending t.base.toList) (h : t.overlay.Effective t.base) {cs : List (Call K V)}
    {answers : List (Option Bool)} (hc : t.calls cs = .ok (answers, t')) :
    t'.origin = t.origin ∧ t'.status = t.status ∧ t'.overlay.Effective t.base := by
  induction cs generalizing t answers with
  | nil =>
      cases hc
      exact ⟨rfl, rfl, h⟩
  | cons c cs ih =>
      obtain ⟨⟨_, next⟩, hcall, hc⟩ := ok_of_bind hc
      obtain ⟨_, hcalls, hc⟩ := ok_of_bind hc
      cases hc
      obtain ⟨horigin, hstatus⟩ := call_keeps hcall
      have hbase : next.base = t.base := congrArg Pinned.snapshot horigin
      have hnext := effective_call hb h hcall
      rw [← hbase] at hb hnext ⊢
      obtain ⟨horigin', hstatus', hoverlay⟩ := ih hb hnext hcalls
      exact ⟨horigin'.trans horigin, hstatus'.trans hstatus, hoverlay⟩

omit [Std.TransOrd K] [BEq V] in
theorem diff_eq_nil (t : Transaction K V) (h : t.hasChanges = false) : t.diff.toList = [] := by
  have hops : t.overlay.ops.entries = [] := by
    simpa [hasChanges, Overlay.isEmpty, SortedMap.isEmpty] using h
  simp [diff, Overlay.diff, OverlayDiff.toList, hops, OverlayDiff.changes]

/-- The changes a transaction hands out are those found by comparing its base with its merged view, and
those between its base and the snapshot that a commit installs. -/
theorem diff_eq_diffEntries {ν : Type} [DecidableEq ν] (origin : Pinned K V)
    (hb : Ascending origin.snapshot.toList) (hv : ∀ e ∈ origin.snapshot.toList, (e.2 == e.2) = true)
    (cs : List (Call K V)) :
    ∃ answers t entries changes, (start origin).calls cs = .ok (answers, t) ∧
      Walk.Yields MergedWalk.next t.ascending entries ∧ Walk.Yields OverlayDiff.next t.diff changes ∧
      Walk.Yields EntryDiff.next (.start origin.snapshot.toList entries) changes ∧
      ∀ s : Store ν K V, ∃ t' s', s.commit t = .ok (changes, t', s') ∧
        (t.hasChanges = true → s'.snapshot.toList = entries ∧ origin.snapshot.diff s'.snapshot = changes) := by
  obtain ⟨t, hcalls, _⟩ := calls_models hb rfl rfl (Overlay.models_empty hb) cs (t := start origin)
  obtain ⟨horigin, hstatus, hoverlay⟩ := effective_calls (t := start origin) hb Overlay.effective_empty hcalls
  have hbase : t.base = origin.snapshot := congrArg Pinned.snapshot horigin
  have hdiff : t.diff.toList = diffEntries origin.snapshot.toList t.toList := by
    rw [diff, toList, ascending, hbase]
    exact hoverlay.diff_eq hb hv
  refine ⟨_, t, t.toList, t.diff.toList, hcalls, MergedWalk.shows_toList.yields _,
    OverlayDiff.shows_toList.yields _, ?_, fun s => ?_⟩
  · rw [hdiff]
    exact EntryDiff.shows_toList.yields _
  · rw [s.commit_eq, hstatus]
    cases hc : t.hasChanges with
    | true => exact ⟨_, _, rfl, fun _ => ⟨rfl, hdiff.symm⟩⟩
    | false =>
        have hnone : t.diff.toList = [] := t.diff_eq_nil hc
        exact ⟨_, _, by rw [hnone]; rfl, nofun⟩

theorem diff_eq_diffEntries_reinserted :
    let origin : Pinned Nat Nat := ⟨0, #[(1, 10), (3, 30), (5, 50)], 1⟩
    Ascending origin.snapshot.toList ∧ (∀ e ∈ origin.snapshot.toList, (e.2 == e.2) = true) ∧
      ∃ answers t entries changes,
        (start origin).calls [.set 1 11, .remove 3, .set 4 40, .set 1 10, .remove 5, .set 5 55, .tryRemove 2] =
          .ok (answers, t) ∧
        Walk.Yields MergedWalk.next t.ascending entries ∧ Walk.Yields OverlayDiff.next t.diff changes ∧
        Walk.Yields EntryDiff.next (.start origin.snapshot.toList entries) changes ∧
        ∀ s : Store Nat Nat Nat, ∃ t' s', s.commit t = .ok (changes, t', s') ∧
          (t.hasChanges = true → s'.snapshot.toList = entries ∧ origin.snapshot.diff s'.snapshot = changes) :=
  ⟨by decide, by decide, diff_eq_diffEntries _ (by decide) (by decide) _⟩

end Transaction

end VersionedMap
