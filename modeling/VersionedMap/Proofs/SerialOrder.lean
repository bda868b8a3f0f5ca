import VersionedMap.Proofs.Replication
import Mathlib.Logic.Function.Basic

namespace VersionedMap

variable {τ ν K V : Type}

inductive Write (K V : Type) where
  | set (key : K) (value : V)
  | remove (key : K)
deriving DecidableEq

/-- The writes to be made at a commit, after a call. -/
def Transaction.redraft (ws : List (Write K V)) : Transaction.Call K V → List (Write K V)
  | .set key value => ws ++ [.set key value]
  | .remove key | .tryRemove key => ws ++ [.remove key]
  | .revert => []

namespace Session

open Transaction

def Op.call? : Op τ ν K V → Option (τ × Call K V)
  | .set name key value => some (name, .set key value)
  | .remove name key => some (name, .remove key)
  | .tryRemove name key => some (name, .tryRemove key)
  | .revert name => some (name, .revert)
  | _ => none

variable [DecidableEq τ] {drafts : τ → List (Write K V)}

def draft (drafts : τ → List (Write K V)) (op : Op τ ν K V) : τ → List (Write K V) :=
  match op with
  | .start name => Function.update drafts name []
  | op =>
    match op.call? with
    | some (name, c) => Function.update drafts name (redraft (drafts name) c)
    | none => drafts

theorem draft_of_call {op : Op τ ν K V} {name : τ} {c : Call K V} (h : op.call? = some (name, c)) :
    draft drafts op = Function.update drafts name (redraft (drafts name) c) := by
  cases op with
  | set | remove | tryRemove | revert => cases h; rfl
  | start | commit | drop | subscribe | disconnect | detach | count => cases h

end Session

variable [Ord K] [Std.TransOrd K]

namespace SortedMap

def write (m : SortedMap K V) : Write K V → SortedMap K V
  | .set key value => m.insert key value
  | .remove key => m.erase key

def writeAll (m : SortedMap K V) (ws : List (Write K V)) : SortedMap K V :=
  ws.foldl write m

theorem writeAll_append (m : SortedMap K V) (ws ws' : List (Write K V)) :
    m.writeAll (ws ++ ws') = (m.writeAll ws).writeAll ws' :=
  List.foldl_append

end SortedMap

theorem Overlay.Models.toList_eq [Std.LawfulEqOrd K] {o : Overlay K V} {base : Snapshot K V}
    {m : SortedMap K V} (hb : Ascending base.toList) (h : Models o base m) :
    (o.ascending base).toList = m.entries := by
  refine List.forall₂_eq_eq_eq ▸ (h.forall₂_toList hb).imp ?_
  rintro ⟨k, v⟩ ⟨k', v'⟩ ⟨hk, hv⟩
  exact Prod.ext (Std.LawfulEqOrd.eq_of_compare hk) hv

theorem Transaction.plainCall_eq_writeAll [BEq V] [LawfulBEq V] (base : SortedMap K V) (ws : List (Write K V))
    (c : Call K V) : (plainCall base (base.writeAll ws) c).2 = base.writeAll (redraft ws c) := by
  -- setting an equal value keeps the one from the base, which is the same here
  have hkept (original? : Option V) (value : V) : Overlay.kept original? value = value := by
    cases original? with
    | none => rfl
    | some original =>
        rw [Overlay.kept]
        split
        · exact eq_of_beq ‹_›
        · rfl
  cases c with
  | set key value =>
      rw [redraft, SortedMap.writeAll_append, plainCall, hkept]
      rfl
  | remove key | tryRemove key =>
      rw [redraft, SortedMap.writeAll_append]
      rfl
  | revert => rfl

namespace Session

open Transaction

variable {s s' : Session τ ν K V} {drafts drafts' : τ → List (Write K V)}

/-- Each name holds one transaction, and an active one shows its base after the writes asked of it. -/
structure Drafted (s : Session τ ν K V) (drafts : τ → List (Write K V)) : Prop where
  names : (s.transactions.map (·.1)).Nodup
  models : ∀ e ∈ s.transactions, e.2.status = .active → ∀ m : SortedMap K V, m.entries = e.2.base.toList →
    e.2.overlay.Models e.2.base (m.writeAll (drafts e.1))

theorem Drafted.sublist (h : s.Drafted drafts) (hs : s'.transactions.Sublist s.transactions) :
    s'.Drafted drafts :=
  ⟨h.names.sublist (hs.map _), fun e he => h.models e (hs.subset he)⟩

omit [Std.TransOrd K] in
theorem transactions_discard (s : Session τ ν K V) (t? : Option (Transaction K V)) :
    (s.discard t?).transactions = s.transactions := by
  rcases s.discard_cases t? with hd | ⟨_, _, hd⟩ <;> rw [hd]

variable [DecidableEq τ]

omit [Std.TransOrd K] in
theorem transaction?_of_mem {name : τ} {t : Transaction K V} (h : (s.transactions.map (·.1)).Nodup)
    (ht : (name, t) ∈ s.transactions) : s.transaction? name = some t := by
  rw [transaction?]
  generalize s.transactions = entries at h ht
  induction entries with
  | nil => cases ht
  | cons e entries ih =>
      obtain ⟨he, h⟩ := List.nodup_cons.mp h
      rw [List.lookup_cons]
      rcases List.mem_cons.mp ht with rfl | ht
      · simp
      · have hne : (name == e.1) = false := by
          refine beq_eq_false_iff_ne.mpr fun heq => he ?_
          exact List.mem_map.mpr ⟨(name, t), ht, heq⟩
        rw [hne]
        exact ih h ht

omit [Std.TransOrd K] in
theorem mem_hold {name : τ} {t : Transaction K V} {e : τ × Transaction K V}
    (he : e ∈ (s.hold name t).transactions) : e = (name, t) ∨ e ∈ s.transactions ∧ e.1 ≠ name := by
  rw [hold] at he
  split at he
  · obtain ⟨old, hold, rfl⟩ := List.mem_map.mp he
    by_cases hname : old.1 = name
    · simp [hname]
    · simp [hname, hold]
  · rename_i hnone
    rcases List.mem_cons.mp he with rfl | he
    · exact .inl rfl
    · refine .inr ⟨he, fun hname => hnone ?_⟩
      exact List.any_eq_true.mpr ⟨e, he, by simp [hname]⟩

omit [Std.TransOrd K] in
theorem names_hold (h : (s.transactions.map (·.1)).Nodup) (name : τ) (t : Transaction K V) :
    ((s.hold name t).transactions.map (·.1)).Nodup := by
  rw [hold]
  split
  · have hmap : (s.transactions.map fun e => if e.1 = name then (name, t) else e).map (·.1) =
        s.transactions.map (·.1) := by
      rw [List.map_map]
      refine List.map_congr_left fun e _ => ?_
      by_cases he : e.1 = name <;> simp [he]
    rwa [hmap]
  · rename_i hnone
    refine List.nodup_cons.mpr ⟨fun hname => hnone ?_, h⟩
    obtain ⟨e, he, rfl⟩ := List.mem_map.mp hname
    exact List.any_eq_true.mpr ⟨e, he, by simp⟩

theorem Drafted.hold (h : s.Drafted drafts) {name : τ} (hd : ∀ other, other ≠ name → drafts' other = drafts other)
    {t : Transaction K V} (ht : t.status = .active → ∀ m : SortedMap K V, m.entries = t.base.toList →
      t.overlay.Models t.base (m.writeAll (drafts' name))) : (s.hold name t).Drafted drafts' := by
  refine ⟨names_hold h.names name t, fun e he => ?_⟩
  rcases mem_hold he with rfl | ⟨he, hname⟩
  · exact ht
  · rw [hd e.1 hname]
    exact h.models e he

theorem Drafted.refused (h : s.Drafted drafts) {name : τ}
    (hd : ∀ other, other ≠ name → drafts' other = drafts other)
    (hn : ∀ t, s.transaction? name = some t → t.status ≠ .active) : s.Drafted drafts' := by
  refine ⟨h.names, fun e he hactive => ?_⟩
  have hname : e.1 ≠ name := fun hname => hn e.2 (transaction?_of_mem h.names (hname ▸ he)) hactive
  rw [hd e.1 hname]
  exact h.models e he hactive

theorem Drafted.start (h : s.Drafted drafts) (hs : s.Sound) (name : τ) :
    (s.start name).Drafted (Function.update drafts name []) := by
  have hrecorded : Drafted { s with store := s.store.record (.started s.store.version) } drafts :=
    h.sublist (List.Sublist.refl _)
  have hothers : ∀ other, other ≠ name → Function.update drafts name [] other = drafts other :=
    fun other hne => Function.update_of_ne hne _ _
  have hheld := hrecorded.hold (t := .start s.store.current) hothers fun _ m hm => by
    have hm' : m = ⟨s.store.snapshot.toList, hs.store.ascending⟩ := SortedMap.ext hm
    rw [Function.update_self, hm']
    exact Overlay.models_empty hs.store.ascending
  refine hheld.sublist ?_
  rw [Session.start, transactions_discard]

variable [DecidableEq ν] [BEq V]

theorem step_of_call {op : Op τ ν K V} {name : τ} {c : Call K V} (h : op.call? = some (name, c)) :
    (s.step op).2 = match s.transaction? name with
      | none => s
      | some t =>
        match t.call c with
        | .error _ => s
        | .ok (_, t') => s.hold name t' := by
  cases op with
  | set name key value =>
      cases h
      simp only [step, edit, call]
      cases s.transaction? name with
      | none => rfl
      | some t => cases ht : t.set key value <;> simp [ht, bind, Except.bind, pure, Except.pure]
  | remove name key =>
      cases h
      simp only [step, edit, call]
      cases s.transaction? name with
      | none => rfl
      | some t => cases ht : t.remove key <;> simp [ht, bind, Except.bind, pure, Except.pure]
  | tryRemove name key =>
      cases h
      simp only [step, edit, call]
      cases s.transaction? name <;> rfl
  | revert name =>
      cases h
      simp only [step, edit, call]
      cases s.transaction? name with
      | none => rfl
      | some t => cases ht : t.revert <;> simp [ht, bind, Except.bind, pure, Except.pure]
  | start | commit | drop | subscribe | disconnect | detach | count => cases h

theorem Drafted.call [LawfulBEq V] (h : s.Drafted drafts) (hs : s.Sound) {op : Op τ ν K V} {name : τ} {c : Call K V}
    (hc : op.call? = some (name, c)) : (s.step op).2.Drafted (draft drafts op) := by
  have hothers : ∀ other, other ≠ name → draft drafts op other = drafts other := by
    intro other hne
    rw [draft_of_call hc, Function.update_of_ne hne]
  have hname : draft drafts op name = redraft (drafts name) c := by
    rw [draft_of_call hc, Function.update_self]
  rw [step_of_call hc]
  cases ht : s.transaction? name with
  | none => exact h.refused hothers (by simp [ht])
  | some t =>
      have hmem := mem_of_transaction? ht
      have hb : Ascending t.base.toList := (hs.opened _ hmem).ascending
      cases hstatus : t.status with
      | active =>
          let base : SortedMap K V := ⟨t.base.toList, hb⟩
          obtain ⟨t', hcall, hbase, _, hmodels⟩ :=
            call_models hb rfl hstatus (h.models _ hmem hstatus base rfl) c
          simp only [hcall]
          refine h.hold hothers fun _ m hm => ?_
          have hm' : m = base := SortedMap.ext (hm.trans (congrArg Snapshot.toList hbase))
          rw [hname, hm', hbase, ← plainCall_eq_writeAll]
          exact hmodels
      | committed =>
          have hclosed : ∀ t', s.transaction? name = some t' → t'.status ≠ .active := by
            simp [ht, hstatus]
          cases hcall : t.call c with
          | error fault =>
              simp only [hcall]
              exact h.refused hothers hclosed
          | ok result =>
              obtain ⟨answer, t'⟩ := result
              simp only [hcall]
              have ht' : t'.status = .committed := (call_keeps hcall).2.trans hstatus
              exact h.hold hothers fun hactive => by simp [ht'] at hactive

omit [BEq V] in
theorem Drafted.commit (h : s.Drafted drafts) (name : τ) : (s.commit name).2.Drafted drafts := by
  have hclose (s' : Session τ ν K V) (h' : s'.Drafted drafts) (t : Transaction K V) :
      (s'.hold name { t with status := .committed }).Drafted drafts :=
    h'.hold (fun _ _ => rfl) fun hactive => by cases hactive
  have hcases := s.commit_cases name
  generalize s.commit name = result at hcases ⊢
  cases hcases with
  | unknown | refused => exact h
  | unchanged t => exact hclose s h t
  | changed t =>
      exact hclose { s with store := s.store.publish t.base.version t.toList t.diff.toList } ⟨h.names, h.models⟩ t

theorem drafted_step [LawfulBEq V] (h : s.Drafted drafts) (hs : s.Sound) (op : Op τ ν K V) :
    (s.step op).2.Drafted (draft drafts op) := by
  cases op with
  | start name => exact h.start hs name
  | set | remove | tryRemove | revert => exact h.call hs rfl
  | commit name => exact h.commit name
  | drop name =>
      refine h.sublist ?_
      rw [step, drop, transactions_discard]
      exact List.eraseP_sublist
  | subscribe | disconnect | detach | count => exact h.sublist (List.Sublist.refl _)

omit [Std.TransOrd K] [DecidableEq ν] [BEq V] in
/-- The transaction that an operation commits with changes. -/
def lands? (s : Session τ ν K V) : Op τ ν K V → Option τ
  | .commit name =>
    if (s.transaction? name).any fun t => decide (t.status = .active) && t.hasChanges then some name else none
  | _ => none

/-- The writes that the commits of a run put into effect, in the order of the commits. -/
def landed : Session τ ν K V → (τ → List (Write K V)) → List (Op τ ν K V) → List (Write K V)
  | _, _, [] => []
  | s, drafts, op :: ops =>
    (s.lands? op).elim [] drafts ++ landed (s.step op).2 (draft drafts op) ops

omit [Std.TransOrd K] [DecidableEq τ] [DecidableEq ν] [BEq V] in
theorem snapshot_discard (s : Session τ ν K V) (t? : Option (Transaction K V)) :
    (s.discard t?).store.snapshot = s.store.snapshot := by
  rcases s.discard_cases t? with hd | ⟨_, _, hd⟩ <;> rw [hd]
  rfl

omit [BEq V] in
/-- A commit over its own base puts the writes asked of the transaction into effect, once each. -/
theorem Drafted.lands [Std.LawfulEqOrd K] (h : s.Drafted drafts) (hs : s.Sound) {name : τ}
    (hr : s.replaces (.commit name) = false) {m : SortedMap K V} (hm : m.entries = s.store.snapshot.toList) :
    (m.writeAll ((s.lands? (.commit name)).elim [] drafts)).entries =
      (s.commit name).2.store.snapshot.toList := by
  cases ht : s.transaction? name with
  | none =>
      have hlands : s.lands? (.commit name) = none := by simp [lands?, ht]
      rw [hlands, commit_of_unknown ht]
      exact hm
  | some t =>
      cases hstatus : t.status with
      | committed =>
          have hlands : s.lands? (.commit name) = none := by simp [lands?, ht, hstatus]
          rw [hlands, commit_of_committed ht hstatus]
          exact hm
      | active =>
          cases hc : t.hasChanges with
          | false =>
              have hlands : s.lands? (.commit name) = none := by simp [lands?, ht, hc]
              rw [hlands, commit_of_unchanged ht hstatus hc]
              exact hm
          | true =>
              have hlands : s.lands? (.commit name) = some name := by simp [lands?, ht, hstatus, hc]
              have hmem := mem_of_transaction? ht
              have hopened := hs.opened _ hmem
              have hfresh : s.store.isStale t = false := by simpa [replaces, ht, hstatus, hc] using hr
              -- not stale, so its base is the snapshot that the plain map stands for
              have hbase : t.base = s.store.snapshot := hopened.fresh (bne_eq_false_iff_eq.mp hfresh).symm
              have hmodels := h.models _ hmem hstatus m (hm.trans (congrArg Snapshot.toList hbase.symm))
              rw [hlands, commit_of_changed ht hstatus hc]
              exact (hmodels.toList_eq hopened.ascending).symm

theorem Drafted.landed_step [Std.LawfulEqOrd K] (h : s.Drafted drafts) (hs : s.Sound) {op : Op τ ν K V}
    (hr : s.replaces op = false) {m : SortedMap K V} (hm : m.entries = s.store.snapshot.toList) :
    (m.writeAll ((s.lands? op).elim [] drafts)).entries = (s.step op).2.store.snapshot.toList := by
  cases op with
  | commit name => exact h.lands hs hr hm
  | set | remove | tryRemove | revert =>
      simp only [step, store_edit]
      exact hm
  | start name =>
      simp only [step, Session.start, snapshot_discard]
      exact hm
  | drop name =>
      simp only [step, Session.drop, snapshot_discard]
      exact hm
  | subscribe | disconnect | detach | count => exact hm

omit [DecidableEq τ] [DecidableEq ν] [BEq V] in
theorem drafted_ofStore (store : Store ν K V) (drafts : τ → List (Write K V)) :
    (ofStore store : Session τ ν K V).Drafted drafts :=
  ⟨List.nodup_nil, fun _ he => nomatch he⟩

theorem landed_run [Std.LawfulEqOrd K] [LawfulBEq V] (h : s.Drafted drafts) (hs : s.Sound)
    {ops : List (Op τ ν K V)} (hr : s.neverReplaces ops = true) {m : SortedMap K V}
    (hm : m.entries = s.store.snapshot.toList) :
    (m.writeAll (landed s drafts ops)).entries = (s.run ops).store.snapshot.toList := by
  induction ops generalizing s drafts m with
  | nil => exact hm
  | cons op ops ih =>
      rw [neverReplaces, Bool.and_eq_true, Bool.not_eq_true'] at hr
      rw [landed, SortedMap.writeAll_append]
      exact ih (drafted_step h hs op) (sound_step hs op) hr.2 (h.landed_step hs hr.1 hm)

/-- While no transaction commits over a later commit, a store holds what the writes of the commits with
changes make of its first entries: those asked of each transaction since it was started or reverted, taken
as plain insertions and deletions, one commit after the other. -/
theorem entries_eq_serial [Std.LawfulEqOrd K] [LawfulBEq V] (entries : List (K × V)) (ops : List (Op τ ν K V))
    (hr : (ofStore (Store.ofList entries) : Session τ ν K V).neverReplaces ops = true) :
    ((ofStore (Store.ofList entries) : Session τ ν K V).run ops).store.snapshot.toList =
      ((SortedMap.ofList entries).writeAll (landed (ofStore (Store.ofList entries)) (fun _ => []) ops)).entries :=
  (landed_run (drafted_ofStore _ _) (sound_ofStore (Store.sound_ofList entries)) hr rfl).symm

theorem entries_eq_serial_interleaved :
    let ops : List (Op Nat Nat Nat Nat) :=
      [.subscribe 0 ⟨fun _ => ⟨[0], .returned⟩, []⟩, .start 1, .start 2, .set 1 1 11, .remove 1 2, .set 2 1 10,
        .commit 1, .commit 2, .start 2, .start 3, .start 4, .remove 3 1, .revert 3, .set 3 5 50, .set 4 6 60, .drop 4,
        .tryRemove 3 7, .commit 3, .start 2, .set 2 1 12, .remove 2 5, .set 2 5 51, .commit 2]
    let s : Session Nat Nat Nat Nat := ofStore (Store.ofList [(1, 10), (2, 20)])
    s.neverReplaces ops = true ∧
      landed s (fun _ => []) ops =
        [.set 1 11, .remove 2, .set 5 50, .remove 7, .set 1 12, .remove 5, .set 5 51] ∧
      (s.run ops).store.snapshot.toList =
        ((SortedMap.ofList [(1, 10), (2, 20)]).writeAll (landed s (fun _ => []) ops)).entries := by
  intro ops s
  have hr : s.neverReplaces ops = true := by decide +kernel
  exact ⟨hr, by decide +kernel, entries_eq_serial [(1, 10), (2, 20)] ops hr⟩

end Session

end VersionedMap
