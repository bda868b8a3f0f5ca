import VersionedMap.Proofs.Commit
import VersionedMap.Proofs.Isolation
import VersionedMap.Proofs.ItemDifference
import VersionedMap.Proofs.PendingCalls
import VersionedMap.Proofs.Subscribers
import VersionedMap.Proofs.WalkSteps

namespace VersionedMap

variable {τ ν K V α : Type}

namespace Change

def inverse : Change α → Change α
  | added item => removed item
  | removed item => added item

end Change

theorem Changes.additions_inverse (cs : Changes α) : additions (cs.map Change.inverse) = cs.removals := by
  have hinverse (c : Change α) : c.inverse.isAdded = c.isRemoved ∧ c.inverse.item = c.item := by
    obtain ⟨op, item⟩ := c
    cases op <;> exact ⟨rfl, rfl⟩
  simp [additions, removals, List.filter_map, Function.comp_def, hinverse]

namespace ItemDiff

variable {order : α → α → Ordering} {source target : List α}

theorem changes_inverse [Std.OrientedCmp order] (source target : List α) :
    changes order target source = (changes order source target).map Change.inverse := by
  fun_induction changes order source target with
  | case1 target => simp [Change.inverse]
  | case2 source _ => simp [Change.inverse]
  | case3 a source b target hab ih =>
      have hba : order b a = .gt := Std.OrientedCmp.gt_of_lt hab
      simpa [changes, hba, Change.inverse] using ih
  | case4 a source b target hab ih =>
      have hba : order b a = .lt := Std.OrientedCmp.lt_of_gt hab
      simpa [changes, hba, Change.inverse] using ih
  | case5 a source b target hab ih =>
      have hba : order b a = .eq := Std.OrientedCmp.eq_symm hab
      simpa [changes, hba] using ih

variable [Std.TransCmp order]

theorem additions_changes (hs : source.Pairwise (order · · = .lt)) (ht : target.Pairwise (order · · = .lt)) :
    (changes order source target).additions = target.filter fun b => (alike order b source).isEmpty := by
  fun_induction changes order source target with
  | case1 target => simp [Changes.additions, Change.isAdded, alike, List.filter_map, Function.comp_def]
  | case2 source _ => simp [Changes.additions, Change.isAdded, List.filter_map, Function.comp_def]
  | case3 a source b target hab ih =>
      have habove := lt_of_rising (ht.imp Ordering.isLE_of_eq_lt) hab
      refine (ih hs.of_cons ht).trans (List.filter_congr fun x hx => ?_)
      rw [alike_cons_other (by simp [habove x hx])]
  | case4 a source b target hab ih =>
      have hba : order b a = .lt := Std.OrientedCmp.lt_of_gt hab
      have hnew : alike order b (a :: source) = [] :=
        alike_eq_nil (hs.imp Ordering.isLE_of_eq_lt) hba Std.ReflCmp.compare_self
      rw [List.filter_cons_of_pos (by rw [hnew]; rfl), ← ih hs ht.of_cons]
      rfl
  | case5 a source b target hab ih =>
      have habove (x : α) (hx : x ∈ target) : order a x = .lt :=
        Std.TransCmp.lt_of_eq_of_lt hab (List.rel_of_pairwise_cons ht hx)
      rw [List.filter_cons_of_neg (by simp [alike_cons_same hab]), ih hs.of_cons ht.of_cons]
      refine List.filter_congr fun x hx => ?_
      rw [alike_cons_other (by simp [habove x hx])]

theorem removals_changes (hs : source.Pairwise (order · · = .lt)) (ht : target.Pairwise (order · · = .lt)) :
    (changes order source target).removals = source.filter fun a => (alike order a target).isEmpty := by
  rw [← Changes.additions_inverse, ← changes_inverse]
  exact additions_changes ht hs

theorem ascending_changes (hs : source.Pairwise (order · · = .lt)) (ht : target.Pairwise (order · · = .lt)) :
    (changes order source target).Pairwise (order ·.item ·.item = .lt) :=
  pairwise_changes id Std.TransCmp.lt_trans hs ht

end ItemDiff

namespace KeySet

theorem units_keys (entries : List (K × Unit)) : ((keys entries).map fun key => (key, ())) = entries := by
  rw [keys, List.map_map]
  exact List.map_id entries

theorem bare_unbare (changes : Changes K) : bare (unbare changes) = changes := by
  rw [bare, unbare, Changes.mapItems, Changes.mapItems, List.map_map]
  exact List.map_id changes

variable [Ord K]

theorem bare_diffEntries (source target : List (K × Unit)) :
    bare (diffEntries source target) = diff (keys source) (keys target) := by
  rw [← bare_unbare (diff (keys source) (keys target)), ← diffEntries_units, units_keys, units_keys]

theorem any_keys (entries : List (K × Unit)) (key : K) :
    (keys entries).any (sameKey · key) = (entryAt entries key).isSome := by
  rw [keys, List.any_map, entryAt, Bool.eq_iff_iff, List.find?_isSome, List.any_eq_true]
  rfl

theorem isEmpty_alike (members : List K) (key : K) :
    (alike compare key members).isEmpty = !members.any (sameKey · key) := by
  rw [alike, Bool.eq_iff_iff, List.isEmpty_iff, List.filter_eq_nil_iff, Bool.not_eq_true', List.any_eq_false]
  rfl

end KeySet

namespace Overlay

variable [Ord K] [Std.TransOrd K] {base : Snapshot K Unit} {o : Overlay K Unit}

/-- A key that the merged view has can be set again, under any spelling, and nothing changes. -/
theorem set_of_present (h : o.Effective base) {key : K} (hkey : o.resolve base key = some ()) :
    o.set base key () = o := by
  have hops : (o.set base key ()).ops = o.ops := by
    refine SortedMap.ext_lookup? fun q => ?_
    rw [lookup?_set]
    split
    · rename_i hq
      rw [← o.ops.lookup?_congr (sameKey_iff.mp hq)]
      cases hpending : o.ops.lookup? key with
      | none =>
          have hbase : base.get? key = some () := by simpa [resolve, SortedMap.get?, hpending] using hkey
          simp [hbase]
      | some entry =>
          obtain ⟨spelled, op⟩ := entry
          have hop : o.ops.get? key = some op := by rw [SortedMap.get?, hpending]; rfl
          cases op with
          | removed => simp [resolve, hop] at hkey
          | upserted value =>
              have hnew : (base.get? key).any (· == ()) = false := h key _ hop
              rw [hnew]
              rfl
    · rfl
  have hgrowth : (o.set base key ()).growth = o.growth := by
    rw [set, hkey]
    rfl
  exact (Overlay.mk.injEq ..).mpr ⟨hops, hgrowth⟩

end Overlay

theorem Transaction.effective_attempt [Ord K] [Std.TransOrd K] [BEq V] {t : Transaction K V}
    (hb : Ascending t.base.toList) (ht : t.overlay.Effective t.base) (c : Call K V) :
    (t.attempt c).overlay.Effective (t.attempt c).base := by
  rw [attempt]
  cases hc : t.call c with
  | error fault => exact ht
  | ok result =>
      have hbase : result.2.base = t.base := congrArg Pinned.snapshot (call_keeps hc).1
      change result.2.overlay.Effective result.2.base
      rw [hbase]
      exact effective_call hb ht hc

namespace Session

variable [Ord K] [Std.TransOrd K] [BEq V] [DecidableEq τ]

theorem Op.effective_own {t : Transaction K V} (hb : Ascending t.base.toList) (ht : t.overlay.Effective t.base)
    (op : Op τ ν K V) (name : τ) : (op.own name t).overlay.Effective (op.own name t).base := by
  cases op with
  | set | remove | tryRemove | revert =>
      simp only [own, call?]
      split
      · exact Transaction.effective_attempt hb ht _
      · exact ht
  | commit =>
      rw [own]
      split <;> exact ht
  | start | drop | subscribe | disconnect | detach | count => exact ht

theorem Op.effective_act {current : Pinned K V} {name : τ} {t? : Option (Transaction K V)}
    (ht : ∀ t ∈ t?, Ascending t.base.toList ∧ t.overlay.Effective t.base) (op : Op τ ν K V) :
    ∀ t ∈ op.act current name t?, t.overlay.Effective t.base := by
  intro t hmem
  cases op with
  | start other =>
      rw [act] at hmem
      split at hmem
      · cases hmem
        exact Overlay.effective_empty
      · exact (ht t hmem).2
  | drop other =>
      rw [act] at hmem
      split at hmem
      · cases hmem
      · exact (ht t hmem).2
  | set | remove | tryRemove | revert | commit | subscribe | disconnect | detach | count =>
      obtain ⟨t, hold, rfl⟩ := Option.map_eq_some_iff.mp hmem
      exact effective_own (ht t hold).1 (ht t hold).2 _ name

variable [DecidableEq ν]

theorem Reachable.effective {s : Session τ ν K V} (h : s.Reachable) :
    ∀ name, ∀ t ∈ s.transaction? name, t.overlay.Effective t.base := by
  induction h with
  | opened entries => exact fun _ _ ht => nomatch ht
  | @step s op h ih =>
      intro name t ht
      rw [transaction?_step h.names op name] at ht
      refine Op.effective_act (fun t ht => ⟨?_, ih name t ht⟩) op t ht
      exact (h.sound.opened _ (mem_of_transaction? ht)).ascending

end Session

namespace KeySet

open Session

variable [Ord K] [Std.TransOrd K] [DecidableEq τ] [DecidableEq ν]

def received (s : Session τ ν K Unit) : List (Nat × Changes K) :=
  s.store.changed.deliveries.map fun d => (d.id, bare d.changes)

/-- What an open transaction of a set shows and reports: `entries` under its keys, and `changes`. -/
structure Reports (s : Session τ ν K Unit) (name : τ) (t : Transaction K Unit) (entries : List (K × Unit))
    (changes : Changes (K × Unit)) : Prop where
  shows : Walk.Yields MergedWalk.next t.ascending entries
  reports : Walk.Yields OverlayDiff.next t.diff changes
  contains : ∀ key, t.contains key = (keys entries).any (sameKey · key)
  verbatim : Walk.Yields ItemDiff.next ⟨compare, keys t.base.toList, keys entries⟩ (bare changes) ∧
    bare changes = diff (keys t.base.toList) (keys entries)
  once : (bare changes).Pairwise (compare ·.item ·.item = .lt)
  additions : (bare changes).additions = (keys entries).filter fun key => !t.base.contains key
  removals : (bare changes).removals = (keys t.base.toList).filter fun key => !t.contains key
  insert : ∀ key, ∃ s', step s (.insert name key) = (.flag (!t.contains key), s') ∧
    (t.contains key = true → s' = s)
  commit : ∃ s', step s (.any (.commit name)) = (.committed changes, s') ∧
    received s' = received s ++ if (bare changes).isEmpty then [] else
      s.store.changed.members.map fun m => (m.id, bare changes)

theorem contains_base {t : Transaction K Unit} (hb : Ascending t.base.toList) (key : K) :
    t.base.contains key = (keys t.base.toList).any (sameKey · key) := by
  rw [any_keys, Snapshot.contains, Snapshot.lookup?_eq_entryAt hb]

theorem contains_view {t : Transaction K Unit} (hb : Ascending t.base.toList) (key : K) :
    t.contains key = (keys t.toList).any (sameKey · key) := by
  rw [any_keys, Transaction.contains, Transaction.get?, t.overlay.resolve_eq_shown hb, Option.isSome_map,
    ← t.overlay.entryAt_toList hb]
  rfl

theorem step_insert {s : Session τ ν K Unit} (hs : s.Reachable) {name : τ} {t : Transaction K Unit}
    (ht : s.transaction? name = some t) (hopen : t.status = .active) (key : K) :
    ∃ s', step s (.insert name key) = (.flag (!t.contains key), s') ∧ (t.contains key = true → s' = s) := by
  have hactive : t.ensureActive .set = .ok () := by rw [Transaction.ensureActive, hopen]
  refine ⟨s.hold name { t with overlay := t.overlay.set t.base key () }, ?_, fun hthere => ?_⟩
  · simp only [step, edit, ht, insert, Transaction.set, hactive, bind, Except.bind, pure, Except.pure]
  · obtain ⟨⟨⟩, hkey⟩ := Option.isSome_iff_exists.mp hthere
    rw [Overlay.set_of_present (hs.effective name t ht) hkey]
    exact hold_self hs.names ht

theorem step_commit {s : Session τ ν K Unit} (hs : s.Reachable) {name : τ} {t : Transaction K Unit}
    (ht : s.transaction? name = some t) (hopen : t.status = .active) :
    ∃ s', step s (.any (.commit name)) = (.committed t.diff.toList, s') ∧
      received s' = received s ++ if (bare t.diff.toList).isEmpty then [] else
        s.store.changed.members.map fun m => (m.id, bare t.diff.toList) := by
  have hbare : (bare t.diff.toList).isEmpty = t.diff.toList.isEmpty := List.isEmpty_map
  cases hc : t.hasChanges with
  | false =>
      have hnone := t.diff_eq_nil hc
      refine ⟨s.hold name { t with status := .committed }, ?_, ?_⟩
      · rw [hnone]
        exact commit_of_unchanged ht hopen hc
      · rw [hnone]
        exact (List.append_nil _).symm
  | true =>
      refine ⟨_, commit_of_changed ht hopen hc, ?_⟩
      rw [received, hbare]
      change (s.store.publish t.base.version t.toList t.diff.toList).changed.deliveries.map _ = _
      rw [Store.deliveries_publish hs.sound.store.rests.settled, List.map_append]
      split
      · rfl
      · rw [List.map_map]
        rfl

/-- A subscriber receives what is committed, as bare keys, until its subscription is dropped. -/
theorem subscriber_receives_keys {s s' : Session τ ν K Unit} (hs : s.Reachable) {subscriber : ν}
    {handler : Handler ν} {id : Nat} (hsubscribed : step s (.any (.subscribe subscriber handler)) = (.subscribed id, s'))
    {ops : List (Op τ ν K)} (hkept : s'.keeps id (ops.map Op.plain) = true) {name : τ} {t : Transaction K Unit}
    (ht : (run s' ops).transaction? name = some t) (hopen : t.status = .active)
    (hchanges : bare t.diff.toList ≠ []) :
    (id, bare t.diff.toList) ∈ received (step (run s' ops) (.any (.commit name))).2 := by
  have hplain := run_plain s' ops
  have hreachable : (run s' ops).Reachable := by
    rw [hplain, ← (Prod.mk.inj hsubscribed).2]
    exact (hs.step (.subscribe subscriber handler)).run _
  obtain ⟨m, hm, hid⟩ := List.mem_map.mp (hs.subscriber_stays hsubscribed hkept)
  obtain ⟨_, hcommit, hreceived⟩ := step_commit hreachable ht hopen
  rw [hcommit, hreceived, if_neg (by simpa using hchanges), hplain]
  exact List.mem_append_right _ (List.mem_map.mpr ⟨m, hm, by rw [hid]⟩)

def lastDigit : Nat → Nat → Ordering :=
  compareOn (· % 10)

instance : Std.TransCmp lastDigit := inferInstanceAs (Std.TransCmp (compareOn (· % 10)))

/-- A new key is added under two spellings, and a member removed under another than its own. -/
def respelled : Session Nat Nat (Ranked lastDigit) Unit :=
  run (ofStore (ofList ([1, 2] : List Nat))) [.any (.subscribe 0 ⟨fun _ => ⟨[], .returned⟩, []⟩), .any (.start 0),
    .insert 0 (13 : Nat), .any (.remove 0 (11 : Nat)), .insert 0 (23 : Nat)]

end KeySet

end VersionedMap
