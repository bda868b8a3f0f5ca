import VersionedMap.Replica
import VersionedMap.Proofs.Commit
import VersionedMap.Proofs.Subscribers

namespace VersionedMap

namespace Replica

variable {ν K V ρ : Type} [Ord K] [Std.TransOrd K]

def watch (r : Replica K V) (events : List (Event ν (K × V) ρ)) : Replica K V :=
  events.foldl (fun r e => (r.observe e).1) r

/-- Every change set that its subscription receives can be replayed, and leaves the replica with the entries
that can be read at that moment. -/
def Follows (r : Replica K V) : List (Event ν (K × V) (Snapshot K V)) → Prop
  | [] => True
  | e :: es =>
    (r.observe e).2 = none ∧
      (∀ name call changes seen, e = .received name r.id call changes seen →
        (r.observe e).1.map.entries = seen.toList) ∧
      (r.observe e).1.Follows es

def hear (r : Replica K V) (d : Delivery (K × V) ρ) : Replica K V × Option Fault :=
  if d.id = r.id then r.receive d.changes else (r, none)

def afterAll (r : Replica K V) (ds : List (Delivery (K × V) ρ)) : Replica K V :=
  ds.foldl (fun r d => (r.hear d).1) r

def Hears (r : Replica K V) : List (Delivery (K × V) (Snapshot K V)) → Prop
  | [] => True
  | d :: ds =>
    (r.hear d).2 = none ∧ (d.id = r.id → (r.hear d).1.map.entries = d.seen.toList) ∧ (r.hear d).1.Hears ds

theorem observe_eq (r : Replica K V) (e : Event ν (K × V) ρ) :
    r.observe e = e.delivery?.elim (r, none) r.hear := by
  cases e <;> rfl

theorem id_hear (r : Replica K V) (d : Delivery (K × V) ρ) : (r.hear d).1.id = r.id := by
  rw [hear]
  split <;> rfl

theorem watch_eq (r : Replica K V) (es : List (Event ν (K × V) ρ)) :
    r.watch es = r.afterAll (es.filterMap Event.delivery?) := by
  induction es generalizing r with
  | nil => rfl
  | cons e es ih =>
      rw [watch, List.foldl_cons, ← watch, ih, observe_eq, List.filterMap_cons]
      cases e.delivery? <;> rfl

theorem follows_of_hears {r : Replica K V} {es : List (Event ν (K × V) (Snapshot K V))}
    (h : r.Hears (es.filterMap Event.delivery?)) : r.Follows es := by
  induction es generalizing r with
  | nil => trivial
  | cons e es ih =>
      rw [List.filterMap_cons] at h
      rw [Follows, observe_eq]
      cases hd : e.delivery? with
      | none =>
          rw [hd] at h
          refine ⟨rfl, ?_, ih h⟩
          rintro name call changes seen rfl
          cases hd
      | some d =>
          rw [hd] at h
          obtain ⟨hfault, hentries, hrest⟩ := h
          refine ⟨hfault, ?_, ih hrest⟩
          rintro name call changes seen rfl
          cases hd
          exact hentries rfl

theorem hears_append {r : Replica K V} {ds ds' : List (Delivery (K × V) (Snapshot K V))}
    (h : r.Hears ds) (h' : (r.afterAll ds).Hears ds') : r.Hears (ds ++ ds') := by
  induction ds generalizing r with
  | nil => exact h'
  | cons d ds ih => exact ⟨h.1, h.2.1, ih h.2.2 h'⟩

theorem afterAll_append (r : Replica K V) (ds ds' : List (Delivery (K × V) ρ)) :
    r.afterAll (ds ++ ds') = (r.afterAll ds).afterAll ds' :=
  List.foldl_append

theorem id_afterAll (r : Replica K V) (ds : List (Delivery (K × V) ρ)) : (r.afterAll ds).id = r.id := by
  induction ds generalizing r with
  | nil => rfl
  | cons d ds ih => exact (ih _).trans (r.id_hear d)

variable {r : Replica K V} (changes : Changes (K × V)) (seen : Snapshot K V)

theorem hear_other {id : Nat} (h : id ≠ r.id) : r.hear ⟨id, changes, seen⟩ = (r, none) :=
  if_neg h

theorem hears_others {ids : List Nat} (h : r.id ∉ ids) :
    r.Hears (ids.map (⟨·, changes, seen⟩)) ∧ r.afterAll (ids.map (⟨·, changes, seen⟩)) = r := by
  induction ids with
  | nil => exact ⟨trivial, rfl⟩
  | cons id ids ih =>
      have hne := List.ne_of_not_mem_cons h
      obtain ⟨hhears, hafter⟩ := ih (List.not_mem_of_not_mem_cons h)
      have hother := hear_other changes seen (Ne.symm hne)
      rw [List.map_cons, Hears, afterAll, List.foldl_cons, hother]
      exact ⟨⟨rfl, fun heq => absurd heq.symm hne, hhears⟩, hafter⟩

theorem hears_once {ids : List Nat} (hd : ids.Nodup) (h : r.id ∈ ids) {m : SortedMap K V}
    (hm : r.map.replay changes = (m, none)) (hs : m.entries = seen.toList) :
    r.Hears (ids.map (⟨·, changes, seen⟩)) ∧ (r.afterAll (ids.map (⟨·, changes, seen⟩))).map = m := by
  induction ids with
  | nil => cases h
  | cons id ids ih =>
      obtain ⟨hid, hids⟩ := List.nodup_cons.mp hd
      rw [List.map_cons, Hears, afterAll, List.foldl_cons]
      by_cases hown : id = r.id
      · subst hown
        have hhear : r.hear ⟨r.id, changes, seen⟩ = (⟨r.id, m⟩, none) := by
          rw [hear, if_pos rfl, receive, hm]
        obtain ⟨hhears, hafter⟩ := hears_others (r := ⟨r.id, m⟩) changes seen hid
        rw [hhear]
        exact ⟨⟨rfl, fun _ => hs, hhears⟩, congrArg Replica.map hafter⟩
      · rw [hear_other changes seen hown]
        obtain ⟨hhears, hafter⟩ := ih hids ((List.mem_cons.mp h).resolve_left (Ne.symm hown))
        exact ⟨⟨rfl, fun heq => absurd heq hown, hhears⟩, hafter⟩

end Replica

namespace Signal

variable {ν α ρ : Type} {s s' : Signal ν α ρ} {moving moving' : List Nat}

theorem Sheds.ids_subset (h : Sheds moving s moving' s') : s'.members.map (·.id) ⊆ s.members.map (·.id) := by
  obtain ⟨_, gone, h⟩ := h
  change (s'.registry moving').ids ⊆ _
  rw [h.ids]
  exact List.diff_subset _ gone

theorem ids_connect [DecidableEq ν] (ha : s.alive = true) (name : ν) (handler : Handler ν) (drops : List ν)
    (changes : Changes α) (seen : ρ) :
    (s.connect name handler drops changes seen).2.members.map (·.id) ⊆ s.members.map (·.id) ++ [s.nextId] := by
  obtain ⟨r, _, gone, _, gone', hbefore, hafter⟩ := connect_joins ha name handler drops changes seen
  intro id hid
  change id ∈ (Signal.registry [] _).ids at hid
  rw [hafter.ids] at hid
  rcases List.mem_append.mp (List.diff_subset _ gone' hid) with hid | hid
  · rw [hbefore.ids] at hid
    exact List.mem_append_left _ (List.diff_subset _ gone hid)
  · exact List.mem_append_right _ hid

end Signal

namespace Store

open Replica

variable {ν K V : Type} [Ord K] [Std.TransOrd K] {s s' : Store ν K V}

/-- Every replica kept by a subscription has followed the store so far. -/
structure Mirrored (s : Store ν K V) : Prop where
  hears : ∀ id, (Replica.start id : Replica K V).Hears s.changed.deliveries
  current : ∀ id ∈ s.changed.members.map (·.id),
    ((Replica.start id).afterAll s.changed.deliveries).map.entries = s.snapshot.toList
  unborn : ∀ id, s.changed.nextId ≤ id → (Replica.start id).afterAll s.changed.deliveries = .start id

theorem mirrored_ofList (entries : List (K × V)) : (ofList entries : Store ν K V).Mirrored where
  hears _ := trivial
  current _ h := nomatch h
  unborn _ _ := rfl

theorem Mirrored.deliver (h : s.Mirrored) (ids : List Nat) (changes : Changes (K × V)) (hids : ids.Nodup)
    (hd : s'.changed.deliveries = s.changed.deliveries ++ ids.map (⟨·, changes, s'.snapshot⟩))
    (hr : ∀ id ∈ ids, ∃ m, ((Replica.start id).afterAll s.changed.deliveries).map.replay changes = (m, none) ∧
      m.entries = s'.snapshot.toList)
    (hm : ∀ id ∈ s'.changed.members.map (·.id),
      id ∈ ids ∨ id ∈ s.changed.members.map (·.id) ∧ s'.snapshot = s.snapshot)
    (hn : s.changed.nextId ≤ s'.changed.nextId) (hlt : ∀ id ∈ ids, id < s'.changed.nextId) :
    s'.Mirrored := by
  have hid (id : Nat) : ((Replica.start id : Replica K V).afterAll s.changed.deliveries).id = id :=
    id_afterAll _ _
  refine ⟨fun id => ?_, fun id hmem => ?_, fun id hfresh => ?_⟩
  · rw [hd]
    apply hears_append (h.hears id)
    by_cases hown : id ∈ ids
    · obtain ⟨m, hreplay, hentries⟩ := hr id hown
      exact (hears_once _ _ hids ((hid id).symm ▸ hown) hreplay hentries).1
    · exact (hears_others _ _ ((hid id).symm ▸ hown)).1
  · rw [hd, afterAll_append]
    by_cases hown : id ∈ ids
    · obtain ⟨m, hreplay, hentries⟩ := hr id hown
      rw [(hears_once _ _ hids ((hid id).symm ▸ hown) hreplay hentries).2, hentries]
    · obtain ⟨hold, hsame⟩ := (hm id hmem).resolve_left hown
      rw [(hears_others _ _ ((hid id).symm ▸ hown)).2, h.current id hold, hsame]
  · have hown : id ∉ ids := fun hmem => Nat.not_lt.mpr hfresh (hlt id hmem)
    rw [hd, afterAll_append, (hears_others _ _ ((hid id).symm ▸ hown)).2, h.unborn id (hn.trans hfresh)]

theorem Mirrored.quiet (h : s.Mirrored) (hd : s'.changed.deliveries = s.changed.deliveries)
    (hs : s'.snapshot = s.snapshot)
    (hm : s'.changed.members.map (·.id) ⊆ s.changed.members.map (·.id))
    (hn : s'.changed.nextId = s.changed.nextId) : s'.Mirrored :=
  h.deliver [] [] .nil (hd.trans (List.append_nil _).symm) (fun _ hid => nomatch hid)
    (fun _ hid => .inr ⟨hm hid, hs⟩) hn.ge (fun _ hid => nomatch hid)

theorem Mirrored.record (h : s.Mirrored) {e : Event ν (K × V) (Snapshot K V)} (he : e.delivery? = none) :
    (s.record e).Mirrored :=
  h.quiet (Signal.reads_record_none he s.changed) rfl (List.Subset.refl _) rfl

variable [DecidableEq ν]

theorem Mirrored.subscribe (h : s.Mirrored) (hs : s.Sound) (name : ν) (handler : Handler ν) :
    (s.subscribe name handler).2.Mirrored := by
  have hnext : (s.subscribe name handler).2.changed.nextId = s.changed.nextId + 1 :=
    s.changed.nextId_connect name handler [] _ _
  refine h.deliver [s.changed.nextId] _ (List.nodup_singleton _)
    (Signal.deliveries_connect s.changed name handler [] _ _) ?_ ?_ (hnext ▸ Nat.le_succ _) ?_
  · intro id hid
    rw [List.mem_singleton.mp hid, h.unborn _ (Nat.le_refl _)]
    exact ⟨⟨s.snapshot.toList, hs.ascending⟩, SortedMap.replay_populate ⟨s.snapshot.toList, hs.ascending⟩, rfl⟩
  · intro id hid
    rcases List.mem_append.mp (Signal.ids_connect hs.rests.alive name handler [] _ _ hid) with hid | hid
    · exact .inr ⟨hid, rfl⟩
    · exact .inl hid
  · intro id hid
    rw [List.mem_singleton.mp hid, hnext]
    exact Nat.lt_succ_self _

theorem Mirrored.publish (h : s.Mirrored) (hs : s.Sound) {t : Transaction K V} (ht : t.OpenedOn s.snapshot)
    (hc : t.hasChanges = true) (hfresh : s.isStale t = false) :
    (s.publish t.base.version t.toList t.diff.toList).Mirrored := by
  have hbase : t.base = s.snapshot := ht.fresh (bne_eq_false_iff_eq.mp hfresh).symm
  obtain ⟨hsheds, hnext⟩ := hs.sheds_publish t.base.version t.toList t.diff.toList
  have hinstalls := hs.installs ht hc
  refine h.deliver (s.changed.members.map (·.id)) t.diff.toList hinstalls.once ?_ ?_
    (fun id hid => .inl (hsheds.ids_subset hid)) hnext.ge ?_
  · rw [hinstalls.delivered, List.map_map]
    rfl
  · intro id hid
    have hentries := congrArg Snapshot.toList hbase
    have hmap : ((Replica.start id).afterAll s.changed.deliveries).map = ⟨t.base.toList, ht.ascending⟩ :=
      SortedMap.ext ((h.current id hid).trans hentries.symm)
    rw [hmap]
    exact ⟨_, t.overlay.replay_diff ht.ascending, rfl⟩
  · intro id hid
    rw [hnext]
    exact hs.rests.wellFormed.below id hid

end Store

namespace Session

variable {τ ν K V : Type} [Ord K] {s : Session τ ν K V}

theorem mirrored_discard [Std.TransOrd K] (h : s.store.Mirrored) (t? : Option (Transaction K V)) :
    (s.discard t?).store.Mirrored := by
  rcases s.discard_cases t? with hd | ⟨_, _, hd⟩ <;> rw [hd]
  · exact h
  · exact h.record rfl

variable [DecidableEq τ]

/-- Whether an operation commits changes over a later commit. -/
def replaces (s : Session τ ν K V) : Op τ ν K V → Bool
  | .commit name =>
    (s.transaction? name).any fun t => decide (t.status = .active) && t.hasChanges && s.store.isStale t
  | _ => false

variable [DecidableEq ν] [Std.TransOrd K]

theorem mirrored_commit (h : s.store.Mirrored) (hs : s.Sound) {name : τ}
    (hr : s.replaces (.commit name) = false) : (s.commit name).2.store.Mirrored := by
  have hcases := s.commit_cases name
  generalize s.commit name = result at hcases ⊢
  cases hcases with
  | unknown | refused | unchanged => exact h
  | changed t ht hstatus hc =>
      have hfresh : s.store.isStale t = false := by simpa [replaces, ht, hstatus, hc] using hr
      exact h.publish hs.store (hs.opened _ (mem_of_transaction? ht)) hc hfresh

variable [BEq V]

theorem mirrored_step (h : s.store.Mirrored) (hs : s.Sound) {op : Op τ ν K V} (hr : s.replaces op = false) :
    (s.step op).2.store.Mirrored := by
  cases op with
  | start name => exact mirrored_discard (h.record rfl) _
  | set | remove | tryRemove | revert =>
      simp only [step, store_edit]
      exact h
  | commit name => exact mirrored_commit h hs hr
  | drop name =>
      exact mirrored_discard (s := { s with transactions := s.transactions.eraseP (·.1 == name) }) h _
  | subscribe name handler => exact h.subscribe hs.store name handler
  | disconnect name =>
      exact h.quiet (Signal.reads_disconnect Event.overlooks_delivery? s.store.changed name) rfl
        (Signal.sheds_disconnect hs.store.rests.alive [] name).ids_subset (s.store.changed.nextId_disconnect name)
  | detach name => exact h.quiet rfl rfl (List.Subset.refl _) rfl
  | count =>
      exact h.quiet (Signal.reads_settle Event.overlooks_delivery? s.store.changed) rfl
        (Signal.sheds_settle [] s.store.changed).ids_subset s.store.changed.nextId_settle

def neverReplaces : Session τ ν K V → List (Op τ ν K V) → Bool
  | _, [] => true
  | s, op :: ops => !s.replaces op && neverReplaces (s.step op).2 ops

theorem mirrored_run (h : s.store.Mirrored) (hs : s.Sound) {ops : List (Op τ ν K V)}
    (hr : s.neverReplaces ops = true) : (s.run ops).store.Mirrored := by
  induction ops generalizing s with
  | nil => exact h
  | cons op ops ih =>
      rw [neverReplaces, Bool.and_eq_true, Bool.not_eq_true'] at hr
      exact ih (mirrored_step h hs hr.1) (sound_step hs op) hr.2

/-- The replica of a subscriber holds the current entries until its subscription is dropped. -/
theorem subscriber_follows (hs : s.Reachable) (h : s.store.Mirrored) {name : ν} {handler : Handler ν} {id : Nat}
    {s' : Session τ ν K V} (hsubscribed : s.step (.subscribe name handler) = (.subscribed id, s'))
    {ops : List (Op τ ν K V)} (hr : s'.neverReplaces ops = true) (hkept : s'.keeps id ops = true) :
    ((Replica.start id).watch (s'.run ops).store.changed.trace).map.entries =
      (s'.run ops).store.snapshot.toList := by
  have hstays := hs.subscriber_stays hsubscribed hkept
  obtain ⟨_, rfl⟩ := Prod.mk.inj hsubscribed
  have hmirrored := mirrored_run (mirrored_step h hs.sound rfl) (hs.step (.subscribe name handler)).sound hr
  rw [Replica.watch_eq]
  exact hmirrored.current id hstays

end Session

end VersionedMap
