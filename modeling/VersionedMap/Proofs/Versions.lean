import VersionedMap.Proofs.Isolation
import Mathlib.Data.List.Induction

namespace VersionedMap

variable {τ ν K V : Type}

namespace Pinned

/-- Stamps and versions have counted up over `pins`, and neither was given out twice. -/
structure Counted (pins : List (Pinned K V)) (stamps version : Nat) : Prop where
  stamped : ∀ p ∈ pins, p.stamp < stamps
  bounded : ∀ p ∈ pins, p.snapshot.version ≤ version
  same : ∀ p ∈ pins, ∀ q ∈ pins, p.snapshot.version = q.snapshot.version ∨ p.stamp = q.stamp → p = q

variable {pins : List (Pinned K V)} {stamps version : Nat}

theorem counted_singleton (p : Pinned K V) : Counted [p] (p.stamp + 1) p.snapshot.version := by
  constructor
  · simp
  · simp
  · simp

theorem Counted.again (h : Counted pins stamps version) {p : Pinned K V} (hp : p ∈ pins) :
    Counted (pins ++ [p]) stamps version := by
  have hmem {q : Pinned K V} (hq : q ∈ pins ++ [p]) : q ∈ pins := by
    rcases List.mem_append.mp hq with hq | hq
    · exact hq
    · exact List.mem_singleton.mp hq ▸ hp
  exact ⟨fun q hq => h.stamped q (hmem hq), fun q hq => h.bounded q (hmem hq),
    fun q hq r hr => h.same q (hmem hq) r (hmem hr)⟩

theorem Counted.next (h : Counted pins stamps version) {p : Pinned K V} (hstamp : p.stamp = stamps)
    (hversion : p.snapshot.version = version + 1) : Counted (pins ++ [p]) (stamps + 1) (version + 1) := by
  have hnew {q : Pinned K V} (hq : q ∈ pins) :
      q.snapshot.version ≠ p.snapshot.version ∧ q.stamp ≠ p.stamp := by
    have hstamped := h.stamped q hq
    have hbounded := h.bounded q hq
    omega
  refine ⟨fun q hq => ?_, fun q hq => ?_, fun q hq r hr heq => ?_⟩
  · rcases List.mem_append.mp hq with hq | hq
    · exact Nat.lt_succ_of_lt (h.stamped q hq)
    · rw [List.mem_singleton.mp hq, hstamp]
      exact Nat.lt_succ_self _
  · rcases List.mem_append.mp hq with hq | hq
    · exact Nat.le_succ_of_le (h.bounded q hq)
    · rw [List.mem_singleton.mp hq, hversion]
  · rcases List.mem_append.mp hq with hq | hq <;> rcases List.mem_append.mp hr with hr | hr
    · exact h.same q hq r hr heq
    · rw [List.mem_singleton.mp hr] at heq
      exact absurd heq (not_or.mpr (hnew hq))
    · rw [List.mem_singleton.mp hq, eq_comm, @eq_comm _ p.stamp] at heq
      exact absurd heq (not_or.mpr (hnew hr))
    · exact (List.mem_singleton.mp hq).trans (List.mem_singleton.mp hr).symm

end Pinned

variable [Ord K] [Std.TransOrd K]

namespace SortedMap

omit [Std.TransOrd K] in
theorem isEmpty_insertWith (merge : K × V → K × V) (key : K) (entry : K × V) (entries : List (K × V)) :
    (insertWith merge key entry entries).isEmpty = false := by
  cases entries with
  | nil => rfl
  | cons e entries =>
      rw [insertWith]
      split <;> rfl

theorem isEmpty_ofList (entries : List (K × V)) : (ofList entries).entries.isEmpty = entries.isEmpty := by
  have hputs (m : SortedMap K V) : (entries.foldl (fun m e => m.put e.1 e.2) m).entries.isEmpty =
      (m.entries.isEmpty && entries.isEmpty) := by
    induction entries generalizing m with
    | nil => exact (Bool.and_true _).symm
    | cons e entries ih =>
        rw [List.foldl_cons, ih, put, isEmpty_insertWith, Bool.false_and, List.isEmpty_cons, Bool.and_false]
  exact hputs empty

end SortedMap

namespace Store

theorem version_ofList (entries : List (K × V)) :
    (ofList entries : Store ν K V).version = if entries.isEmpty then 0 else 1 := by
  rw [← SortedMap.isEmpty_ofList]
  rfl

end Store

namespace Session

open Transaction

def Reply.lands : Reply K V → Bool
  | .committed changes => !changes.isEmpty
  | _ => false

section Runs

variable [DecidableEq τ] [DecidableEq ν] [BEq V]

def replies (s : Session τ ν K V) (ops : List (Op τ ν K V)) : List (Reply K V) :=
  (trail step s ops).map (·.1)

/-- The current snapshot before a run and after each of its operations. -/
def pins (s : Session τ ν K V) (ops : List (Op τ ν K V)) : List (Pinned K V) :=
  s.store.current :: (trail step s ops).map (·.2.store.current)

end Runs

variable {s : Session τ ν K V} {pins : List (Pinned K V)}

/-- An operation lands changes and installs the next snapshot, or it does neither. -/
inductive Moves (s s' : Session τ ν K V) : Bool → Prop
  | stays (current : s'.store.current = s.store.current) (stamps : s'.store.stamps = s.store.stamps) : Moves s s' false
  | installs (entries : List (K × V)) (ascending : Ascending entries)
      (current : s'.store.current = ⟨s.store.stamps, ⟨entries.toArray, s.store.version + 1⟩⟩)
      (stamps : s'.store.stamps = s.store.stamps + 1) : Moves s s' true

variable [DecidableEq τ]

structure Versioned (s : Session τ ν K V) (pins : List (Pinned K V)) : Prop where
  sound : s.Sound
  names : (s.transactions.map (·.1)).Nodup
  current : s.store.current ∈ pins
  counted : Pinned.Counted pins s.store.stamps s.store.version
  ascending : ∀ p ∈ pins, Ascending p.snapshot.toList
  exposed : ∀ d ∈ s.store.changed.deliveries, ∃ p ∈ pins, p.snapshot = d.seen
  based : ∀ name t, s.transaction? name = some t → t.origin ∈ pins

theorem versioned_ofList (entries : List (K × V)) :
    (ofStore (Store.ofList entries) : Session τ ν K V).Versioned
      [(Store.ofList entries : Store ν K V).current] where
  sound := sound_ofStore (Store.sound_ofList entries)
  names := List.nodup_nil
  current := List.mem_cons_self
  counted := Pinned.counted_singleton _
  ascending _ hp := List.mem_singleton.mp hp ▸ (SortedMap.ofList entries).ascending
  exposed _ hd := nomatch hd
  based _ _ ht := nomatch ht

omit [Std.TransOrd K] in
theorem moves_edit (s : Session τ ν K V) (name : τ)
    {change : Transaction K V → Except Fault (Reply K V × Transaction K V)}
    (h : ∀ t reply t', change t = .ok (reply, t') → reply.lands = false) :
    s.Moves (s.edit name change).2 (s.edit name change).1.lands := by
  have hlands : (s.edit name change).1.lands = false := by
    rw [edit]
    split
    · rfl
    · split
      · rfl
      · exact h _ _ _ ‹_›
  rw [hlands]
  have hstore := s.store_edit name change
  exact .stays (by rw [hstore]) (by rw [hstore])

omit [Std.TransOrd K] [DecidableEq τ] in
theorem moves_discard {u : Session τ ν K V} (h : s.Moves u false) (t? : Option (Transaction K V)) :
    s.Moves (u.discard t?) false := by
  obtain ⟨hcurrent, hstamps⟩ := h
  rcases u.discard_cases t? with hd | ⟨_, _, hd⟩ <;> rw [hd]
  · exact .stays hcurrent hstamps
  · exact .stays hcurrent hstamps

variable [DecidableEq ν]

theorem moves_commit (hs : s.Sound) (name : τ) : s.Moves (s.commit name).2 (s.commit name).1.lands := by
  have hcases := s.commit_cases name
  generalize s.commit name = result at hcases ⊢
  cases hcases with
  | unknown | refused | unchanged => exact .stays rfl rfl
  | changed t ht _ hc =>
      have hopened := hs.opened _ (mem_of_transaction? ht)
      have hsome : t.diff.toList.isEmpty = false :=
        List.isEmpty_eq_false_iff.mpr (hopened.grounded.diff_ne_nil hopened.ascending (Bool.not_eq_true' _ ▸ hc))
      rw [Reply.lands, hsome]
      exact .installs t.toList (t.overlay.ascending_toList hopened.ascending) rfl rfl

variable [BEq V]

theorem moves_step (hs : s.Sound) (op : Op τ ν K V) : s.Moves (s.step op).2 (s.step op).1.lands := by
  cases op with
  | start name =>
      refine moves_discard (u := _) ?_ _
      exact .stays rfl rfl
  | set name | remove name | revert name =>
      refine moves_edit s name fun t reply t' ht => ?_
      obtain ⟨_, _, hreply⟩ := ok_of_bind ht
      cases hreply
      rfl
  | tryRemove name key =>
      refine moves_edit s name fun t reply t' ht => ?_
      cases ht
      rfl
  | commit name => exact moves_commit hs name
  | drop name =>
      refine moves_discard (u := { s with transactions := s.transactions.eraseP (·.1 == name) }) ?_ _
      exact .stays rfl rfl
  | subscribe | disconnect | detach | count => exact .stays rfl rfl

/-- What is new among the deliveries could read the snapshot that is current then. -/
theorem exposed_step (hs : s.Sound) (op : Op τ ν K V) : ∀ d ∈ (s.step op).2.store.changed.deliveries,
    d ∈ s.store.changed.deliveries ∨ d.seen = (s.step op).2.store.snapshot := by
  have hrecorded (u : Session τ ν K V) (t? : Option (Transaction K V)) :
      (u.discard t?).store.changed.deliveries = u.store.changed.deliveries := by
    rcases u.discard_cases t? with hd | ⟨_, _, hd⟩ <;> rw [hd]
    exact Signal.reads_record_none rfl _
  intro d hd
  cases op with
  | start name =>
      rw [step, start, hrecorded] at hd
      change d ∈ (s.store.changed.record _).deliveries at hd
      rw [Signal.deliveries, Signal.reads_record_none rfl] at hd
      exact .inl hd
  | set | remove | tryRemove | revert =>
      rw [step, store_edit] at hd
      exact .inl hd
  | commit name =>
      have hcases := s.commit_cases name
      rw [step] at hd ⊢
      generalize s.commit name = result at hcases hd ⊢
      cases hcases with
      | unknown | refused | unchanged => exact .inl hd
      | changed t =>
          change d ∈ (s.store.publish t.base.version t.toList t.diff.toList).changed.deliveries at hd
          rw [Store.deliveries_publish hs.store.rests.settled] at hd
          rcases List.mem_append.mp hd with hd | hd
          · exact .inl hd
          · split at hd
            · cases hd
            · obtain ⟨m, _, rfl⟩ := List.mem_map.mp hd
              exact .inr rfl
  | drop name =>
      rw [step, drop, hrecorded] at hd
      exact .inl hd
  | subscribe name handler =>
      change d ∈ (s.store.changed.connect name handler [] _ _).2.deliveries at hd
      rw [Signal.deliveries_connect] at hd
      rcases List.mem_append.mp hd with hd | hd
      · exact .inl hd
      · exact .inr (List.mem_singleton.mp hd ▸ rfl)
  | disconnect name =>
      change d ∈ (s.store.changed.disconnect name).deliveries at hd
      rw [Signal.deliveries, Signal.reads_disconnect Event.overlooks_delivery?] at hd
      exact .inl hd
  | detach name => exact .inl hd
  | count =>
      change d ∈ s.store.changed.settle.deliveries at hd
      rw [Signal.deliveries, Signal.reads_settle Event.overlooks_delivery?] at hd
      exact .inl hd

omit [DecidableEq ν] in
theorem Op.origin_own (name : τ) (t : Transaction K V) (op : Op τ ν K V) : (op.own name t).origin = t.origin := by
  have hattempt (c : Call K V) : (t.attempt c).origin = t.origin := by
    rw [attempt]
    split
    · exact (call_keeps ‹_›).1
    · rfl
  cases op with
  | set | remove | tryRemove | revert =>
      simp only [own, call?]
      split
      · exact hattempt _
      · rfl
  | commit =>
      rw [own]
      split <;> rfl
  | start | drop | subscribe | disconnect | detach | count => rfl

theorem origin_step (h : (s.transactions.map (·.1)).Nodup) {op : Op τ ν K V} {name : τ} {t : Transaction K V}
    (ht : (s.step op).2.transaction? name = some t) :
    (op = .start name ∧ t.origin = s.store.current) ∨
      (op.ends name = false ∧ ∃ before, s.transaction? name = some before ∧ t.origin = before.origin) := by
  rw [transaction?_step h] at ht
  have hkept (hown : (s.transaction? name).map (Op.own name · op) = some t) :
      ∃ before, s.transaction? name = some before ∧ t.origin = before.origin := by
    obtain ⟨before, hbefore, rfl⟩ := Option.map_eq_some_iff.mp hown
    exact ⟨before, hbefore, op.origin_own name before⟩
  cases op with
  | start other =>
      rw [Op.act] at ht
      split at ht
      · cases ht
        exact .inl ⟨by subst_vars; rfl, rfl⟩
      · exact .inr ⟨decide_eq_false ‹_›, t, ht, rfl⟩
  | drop other =>
      rw [Op.act] at ht
      split at ht
      · cases ht
      · exact .inr ⟨decide_eq_false ‹_›, t, ht, rfl⟩
  | set | remove | tryRemove | revert | commit | subscribe | disconnect | detach | count =>
      exact .inr ⟨rfl, hkept ht⟩

theorem Versioned.step (h : s.Versioned pins) (op : Op τ ν K V) :
    (s.step op).2.Versioned (pins ++ [(s.step op).2.store.current]) := by
  have hsound := sound_step h.sound op
  have hcurrent : (s.step op).2.store.current ∈ pins ++ [(s.step op).2.store.current] :=
    List.mem_append_right _ List.mem_cons_self
  refine ⟨hsound, names_step h.names op, hcurrent, ?counted, ?ascending, ?exposed, ?based⟩
  case counted =>
    have hmoves := moves_step h.sound op
    rw [Store.version, Store.snapshot]
    generalize (s.step op).1.lands = landed at hmoves
    cases hmoves with
    | stays hsame hstamps =>
        rw [hsame, hstamps]
        exact h.counted.again h.current
    | installs entries _ hnext hstamps =>
        rw [hnext, hstamps]
        exact h.counted.next rfl rfl
  case ascending =>
    intro p hp
    rcases List.mem_append.mp hp with hp | hp
    · exact h.ascending p hp
    · exact List.mem_singleton.mp hp ▸ hsound.store.ascending
  case exposed =>
    intro d hd
    rcases exposed_step h.sound op d hd with hold | hseen
    · obtain ⟨p, hp, hpd⟩ := h.exposed d hold
      exact ⟨p, List.mem_append_left _ hp, hpd⟩
    · exact ⟨_, hcurrent, hseen.symm⟩
  case based =>
    intro name t ht
    rcases origin_step h.names ht with ⟨_, horigin⟩ | ⟨_, before, hbefore, horigin⟩
    · exact List.mem_append_left _ (horigin ▸ h.current)
    · exact List.mem_append_left _ (horigin ▸ h.based name before hbefore)

theorem Versioned.run (h : s.Versioned pins) (ops : List (Op τ ν K V)) :
    (s.run ops).Versioned (pins ++ (trail Session.step s ops).map (·.2.store.current)) := by
  induction ops generalizing s pins with
  | nil => exact (List.append_nil pins).symm ▸ h
  | cons op ops ih =>
      rw [trail, List.map_cons, List.append_cons]
      exact ih (h.step op)

theorem version_step (hs : s.Sound) (op : Op τ ν K V) :
    (s.step op).2.store.version = s.store.version + if (s.step op).1.lands then 1 else 0 := by
  have hmoves := moves_step hs op
  rw [Store.version, Store.snapshot]
  generalize (s.step op).1.lands = landed at hmoves
  cases hmoves with
  | stays hsame _ =>
      rw [hsame]
      rfl
  | installs entries _ hnext _ =>
      rw [hnext]
      rfl

theorem version_run (hs : s.Sound) (ops : List (Op τ ν K V)) :
    (s.run ops).store.version = s.store.version + (s.replies ops).countP Reply.lands := by
  induction ops generalizing s with
  | nil => rfl
  | cons op ops ih =>
      refine (ih (sound_step hs op)).trans ?_
      rw [version_step hs op, replies, replies, trail, List.map_cons, List.countP_cons]
      omega

theorem run_concat (s : Session τ ν K V) (ops : List (Op τ ν K V)) (op : Op τ ν K V) :
    s.run (ops ++ [op]) = ((s.run ops).step op).2 :=
  List.foldl_concat ..

theorem started_in_run (h : s.Versioned pins) {ops : List (Op τ ν K V)} {name : τ} {t : Transaction K V}
    (hnone : s.transaction? name = none) (ht : (s.run ops).transaction? name = some t) :
    ∃ before after, ops = before ++ .start name :: after ∧ (∀ op ∈ after, op.ends name = false) ∧
      t.origin = (s.run before).store.current := by
  induction ops using List.reverseRecOn generalizing t with
  | nil =>
      have hsome : s.transaction? name = some t := ht
      rw [hnone] at hsome
      cases hsome
  | append_singleton ops op ih =>
      rw [run_concat] at ht
      rcases origin_step (h.run ops).names ht with ⟨rfl, horigin⟩ | ⟨hends, u, hu, horigin⟩
      · exact ⟨ops, [], rfl, nofun, horigin⟩
      · obtain ⟨before, after, rfl, hafter, hfirst⟩ := ih hu
        refine ⟨before, after ++ [op], by simp, fun later hlater => ?_, horigin.trans hfirst⟩
        rcases List.mem_append.mp hlater with hlater | hlater
        · exact hafter later hlater
        · exact List.mem_singleton.mp hlater ▸ hends

/-- The version of a dictionary counts the commits that changed it. Among all snapshots it ever had, which are the
only ones that are handed out, each version belongs to one. A transaction is stale if and only if its base is no
longer the current snapshot, and that is so once changes were committed after it was started. -/
theorem version_identifies_snapshot (entries : List (K × V)) (ops : List (Op τ ν K V)) :
    let first : Session τ ν K V := ofStore (Store.ofList entries)
    let s := first.run ops
    let pins := first.pins ops
    s.store.version = (if entries.isEmpty then 0 else 1) + (first.replies ops).countP Reply.lands ∧
      s.store.current ∈ pins ∧ (∀ p ∈ pins, Ascending p.snapshot.toList) ∧
      (∀ d ∈ s.store.changed.deliveries, ∃ p ∈ pins, p.snapshot = d.seen) ∧
      (∀ p ∈ pins, ∀ q ∈ pins, p.snapshot.version = q.snapshot.version ∨ p.stamp = q.stamp → p = q) ∧
      ∀ name t, s.transaction? name = some t → t.origin ∈ pins ∧ t.base.version ≤ s.store.version ∧
        (s.store.isStale t = false ↔ t.origin = s.store.current) ∧
        ∃ before after, ops = before ++ .start name :: after ∧ (∀ op ∈ after, op.ends name = false) ∧
          t.origin = (first.run before).store.current ∧
          (s.store.isStale t = false ↔
            ∀ reply ∈ (first.run (before ++ [.start name])).replies after, reply.lands = false) := by
  intro first s pins
  have hfirst : first.Versioned [first.store.current] := versioned_ofList entries
  have h : s.Versioned pins := hfirst.run ops
  have hversion : s.store.version = (Store.ofList entries : Store ν K V).version + _ := version_run hfirst.sound ops
  rw [Store.version_ofList] at hversion
  refine ⟨hversion, h.current, h.ascending, h.exposed, h.counted.same, fun name t ht => ?_⟩
  have horigin := h.based name t ht
  have hfresh : s.store.isStale t = false ↔ t.base.version = s.store.version := by
    rw [Store.isStale, bne_eq_false_iff_eq, eq_comm]
  have hsame : t.base.version = s.store.version ↔ t.origin = s.store.current :=
    ⟨fun hv => h.counted.same _ horigin _ h.current (.inl hv), fun ho => by rw [base, ho]; rfl⟩
  refine ⟨horigin, h.counted.bounded _ horigin, hfresh.trans hsame, ?_⟩
  obtain ⟨before, after, rfl, hafter, hstarted⟩ := started_in_run hfirst rfl ht
  refine ⟨before, after, rfl, hafter, hstarted, hfresh.trans ?_⟩
  -- starting a transaction installs nothing, so every version since is counted from its base
  have hbefore := hfirst.run before
  have hstart : (first.run (before ++ [.start name])).store.version = t.base.version := by
    rw [run_concat, base, hstarted]
    exact version_step hbefore.sound (.start name)
  have hrun : s = (first.run (before ++ [.start name])).run after := by
    rw [run_concat]
    exact List.foldl_append ..
  have hlast := version_run (hfirst.run (before ++ [.start name])).sound after
  rw [← hrun, hstart] at hlast
  rw [hlast, eq_comm, Nat.add_eq_left, List.countP_eq_zero]
  simp

theorem version_identifies_snapshot_overtaken :
    let ops : List (Op Nat Nat Nat Nat) := [.start 1, .start 2, .set 1 1 11, .set 2 3 30, .commit 1]
    let first : Session Nat Nat Nat Nat := ofStore (Store.ofList [(1, 10)])
    let s := first.run ops
    (first.replies ops).countP Reply.lands = 1 ∧ s.store.version = 1 + (first.replies ops).countP Reply.lands ∧
      ∃ t, s.transaction? 2 = some t ∧ t.status = .active ∧ s.store.isStale t = true ∧
        t.base.version ≤ s.store.version ∧ t.origin ≠ s.store.current := by
  intro ops first s
  obtain ⟨hversion, _, _, _, _, htransactions⟩ := version_identifies_snapshot (τ := Nat) (ν := Nat) [(1, 10)] ops
  have hany : (s.transaction? 2).any (fun t => decide (t.status = .active) && s.store.isStale t) = true := by
    decide +kernel
  obtain ⟨t, ht, hopen⟩ := (Option.any_eq_true _ _).mp hany
  rw [Bool.and_eq_true, decide_eq_true_iff] at hopen
  obtain ⟨hactive, hstale⟩ := hopen
  obtain ⟨_, hbound, hfresh, _⟩ := htransactions 2 t ht
  refine ⟨by decide +kernel, hversion, t, ht, hactive, hstale, hbound, fun hcurrent => ?_⟩
  have hnot : s.store.isStale t = false := hfresh.mpr hcurrent
  rw [hstale] at hnot
  cases hnot

end Session

end VersionedMap
