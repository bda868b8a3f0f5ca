import VersionedMap.Session
import VersionedMap.Proofs.PlainMap
import VersionedMap.Proofs.OverlayReplay
import VersionedMap.Proofs.SignalDeliveries

namespace VersionedMap

def trail {σ ω β : Type} (step : σ → ω → β × σ) : σ → List ω → List (β × σ)
  | _, [] => []
  | s, op :: ops => step s op :: trail step (step s op).2 ops

variable {τ ν K V : Type} [Ord K]

namespace Overlay

variable {base : Snapshot K V} {o : Overlay K V}

/-- A removal is pending only for a key that the base holds. -/
def Grounded (o : Overlay K V) (base : Snapshot K V) : Prop :=
  ∀ q, o.ops.get? q = some .removed → (base.get? q).isSome = true

theorem grounded_empty : (empty : Overlay K V).Grounded base := by
  intro q hq
  cases hq

variable [Std.TransOrd K]

theorem Grounded.erase (h : o.Grounded base) (key : K) (growth : Int) :
    Grounded ⟨o.ops.erase key, growth⟩ base := by
  intro q hq
  rw [SortedMap.get?_erase] at hq
  split at hq
  · cases hq
  · exact h q hq

theorem Grounded.set [BEq V] (h : o.Grounded base) (key : K) (value : V) :
    (o.set base key value).Grounded base := by
  by_cases hcancel : (base.get? key).any (· == value) = true
  · rw [Overlay.set, if_pos hcancel]
    exact h.erase key _
  · rw [Overlay.set, if_neg hcancel]
    intro q hq
    rw [SortedMap.get?_insert] at hq
    split at hq
    · cases hq
    · exact h q hq

theorem Grounded.remove (hb : Ascending base.toList) (h : o.Grounded base) (key : K) :
    (o.remove base key).2.Grounded base := by
  rw [Overlay.remove]
  split
  · exact h
  · cases hold : base.lookup? key with
    | none => exact h.erase key _
    | some entry =>
        intro q hq
        rw [SortedMap.get?_insert] at hq
        split at hq
        · rename_i hsame
          rw [Snapshot.lookup?_eq_entryAt hb] at hold
          have hkey := (hb.distinct.entryAt_eq_some_iff.mp hold)
          rw [← Snapshot.get?_congr hb (sameKey_iff.mp hsame), Snapshot.get?_eq_entryAt hb,
            hb.distinct.entryAt_of_mem hkey.1]
          rfl
        · exact h q hq

/-- Where something is pending there is something to report. -/
theorem Grounded.diff_ne_nil (hb : Ascending base.toList) (h : o.Grounded base) (ho : o.isEmpty = false) :
    (o.diff base).toList ≠ [] := by
  rw [o.toList_diff hb, OverlayDiff.reports]
  cases hops : o.ops.entries with
  | nil =>
      rw [isEmpty, SortedMap.isEmpty, hops] at ho
      cases ho
  | cons e rest =>
      rw [List.flatMap_cons]
      apply List.append_ne_nil_of_left_ne_nil
      obtain ⟨key, op⟩ := e
      cases op with
      | upserted value => cases entryAt base.toList key <;> exact List.cons_ne_nil _ _
      | removed =>
          have hmem : (key, .removed) ∈ o.ops.entries := hops ▸ List.mem_cons_self
          have hpending : o.ops.lookup? key = some (key, .removed) :=
            o.ops.ascending.distinct.entryAt_of_mem hmem
          have hthere := h key (by rw [SortedMap.get?, hpending]; rfl)
          rw [Snapshot.get?_eq_entryAt hb, Option.isSome_map] at hthere
          obtain ⟨old, hold⟩ := Option.isSome_iff_exists.mp hthere
          rw [hold]
          exact List.cons_ne_nil _ _

end Overlay

namespace Signal

variable {α ρ : Type} {s : Signal ν α ρ}

/-- A signal between two operations: nothing is left to remove. -/
structure Rests (s : Signal ν α ρ) : Prop where
  alive : s.alive = true
  settled : s.retired = []
  wellFormed : s.WellFormed

theorem rests_empty : (empty : Signal ν α ρ).Rests :=
  ⟨rfl, rfl, wellFormed_empty⟩

theorem Rests.record (h : s.Rests) (e : Event ν α ρ) : (s.record e).Rests :=
  ⟨h.alive, h.settled, h.wellFormed⟩

theorem retired_drop (h : s.retired = []) (id : Nat) : (s.drop id).retired = [] := by
  rw [drop]
  split
  · exact retired_settle _
  · exact h

variable [DecidableEq ν]

theorem retired_hold (h : s.retired = []) (name : ν) (id : Nat) : (s.hold name id).retired = [] := by
  rw [hold]
  split
  · exact h
  · exact retired_drop (s := { s.release name with held := (name, id) :: (s.release name).held }) h _

theorem Rests.disconnect (h : s.Rests) (name : ν) : (s.disconnect name).Rests := by
  refine ⟨?_, ?_, h.wellFormed.of_sheds (sheds_disconnect h.alive [] name) (s.nextId_disconnect name)⟩
  · rw [Signal.disconnect]
    split
    · exact h.alive
    · exact (alive_drop _ _).trans h.alive
  · rw [Signal.disconnect]
    split
    · exact h.settled
    · exact retired_drop (s := s.release name) h.settled _

theorem Rests.detach (h : s.Rests) (name : ν) : (s.detach name).Rests :=
  ⟨h.alive, h.settled, ((advances_detach h.wellFormed name).goesOn h.alive).1⟩

theorem Rests.announce (h : s.Rests) (changes : Changes α) (seen : ρ) : (s.announce changes seen).Rests := by
  obtain ⟨_, _, _, _, hshape⟩ := s.announce_shape changes seen
  refine ⟨?_, ?_, h.wellFormed.of_sheds (sheds_announce [] s changes seen) ?_⟩
  · rw [hshape]
    exact h.alive
  · rw [Signal.announce]
    split
    · exact h.settled
    · exact retired_settle _
  · rw [hshape]

theorem Rests.connect (h : s.Rests) (name : ν) (handler : Handler ν) (drops : List ν) (changes : Changes α)
    (seen : ρ) : (s.connect name handler drops changes seen).2.Rests := by
  have halive := (s.alive_connect name handler drops changes seen).trans h.alive
  refine ⟨halive, ?_, ((advances_connect h.alive h.wellFormed name handler drops changes seen).goesOn halive).1⟩
  rw [connect_eq]
  exact retired_hold (retired_settle _) name s.nextId

end Signal

namespace Store

structure Sound (s : Store ν K V) : Prop where
  ascending : Ascending s.snapshot.toList
  rests : s.changed.Rests

theorem sound_ofList [Std.TransOrd K] (entries : List (K × V)) : (ofList entries : Store ν K V).Sound :=
  ⟨(SortedMap.ofList entries).ascending, Signal.rests_empty⟩

example [Std.TransOrd K] : (ofList [] : Store ν K V) = empty :=
  rfl

variable {s : Store ν K V}

theorem Sound.record (h : s.Sound) (e : Event ν (K × V) (Snapshot K V)) : (s.record e).Sound :=
  ⟨h.ascending, h.rests.record e⟩

variable [DecidableEq ν]

theorem Sound.subscribe (h : s.Sound) (name : ν) (handler : Handler ν) : (s.subscribe name handler).2.Sound :=
  ⟨h.ascending, h.rests.connect name handler [] _ _⟩

theorem Sound.publish (h : s.Sound) (baseVersion : Nat) {entries : List (K × V)} (he : Ascending entries)
    (changes : Changes (K × V)) : (s.publish baseVersion entries changes).Sound := by
  refine ⟨he, ?_⟩
  rw [Store.publish, Signal.settle_of_retired_nil h.rests.settled]
  refine Signal.Rests.announce (Signal.Rests.record ?_ _) _ _
  split
  · exact h.rests
  · exact h.rests.record _

theorem Sound.sheds_publish (h : s.Sound) (baseVersion : Nat) (entries : List (K × V))
    (changes : Changes (K × V)) :
    Signal.Sheds [] s.changed [] (s.publish baseVersion entries changes).changed ∧
      (s.publish baseVersion entries changes).changed.nextId = s.changed.nextId := by
  have hannounce : ∃ trace, (s.publish baseVersion entries changes).changed =
      Signal.announce { s.changed with trace } changes (s.publish baseVersion entries changes).snapshot := by
    rw [Store.publish, Signal.settle_of_retired_nil h.rests.settled]
    split
    · exact ⟨_, rfl⟩
    · exact ⟨_, rfl⟩
  obtain ⟨trace, hchanged⟩ := hannounce
  rw [hchanged]
  refine ⟨Signal.sheds_announce [] { s.changed with trace } _ _, ?_⟩
  obtain ⟨_, _, _, _, hshape⟩ := Signal.announce_shape { s.changed with trace } changes
    (s.publish baseVersion entries changes).snapshot
  rw [hshape]

omit [Ord K] in
theorem version_lt_publish (s : Store ν K V) (baseVersion : Nat) (entries : List (K × V))
    (changes : Changes (K × V)) : s.snapshot.version < (s.publish baseVersion entries changes).snapshot.version :=
  Nat.lt_succ_self s.version

theorem commit_eq (s : Store ν K V) (t : Transaction K V) :
    s.commit t = match t.status with
      | .committed => .error (.committed .commit)
      | .active => .ok (if t.hasChanges then
          (t.diff.toList, { t with status := .committed }, s.publish t.base.version t.toList t.diff.toList)
        else ([], { t with status := .committed }, s)) := by
  simp only [commit, Transaction.ensureActive, bind, Except.bind]
  cases t.status with
  | committed => rfl
  | active =>
      cases t.hasChanges with
      | true => rfl
      | false => rfl

end Store

namespace Transaction

/-- What holds of a transaction after it was started on a store, whose snapshot is now `current`. -/
structure OpenedOn (t : Transaction K V) (current : Snapshot K V) : Prop where
  ascending : Ascending t.base.toList
  grounded : t.overlay.Grounded t.base
  notAhead : t.base.version ≤ current.version
  fresh : t.base.version = current.version → t.base = current

variable {t t' : Transaction K V} {current : Snapshot K V}

theorem openedOn_start {origin : Pinned K V} (h : Ascending origin.snapshot.toList) :
    (start origin).OpenedOn origin.snapshot :=
  ⟨h, Overlay.grounded_empty, Nat.le_refl _, fun _ => rfl⟩

theorem OpenedOn.publish (h : t.OpenedOn current) {next : Snapshot K V} (hn : current.version < next.version) :
    t.OpenedOn next :=
  ⟨h.ascending, h.grounded, h.notAhead.trans hn.le, fun he => absurd (he ▸ h.notAhead) hn.not_ge⟩

theorem OpenedOn.committed (h : t.OpenedOn current) : OpenedOn { t with status := .committed } current :=
  ⟨h.ascending, h.grounded, h.notAhead, h.fresh⟩

theorem OpenedOn.revert (h : t.OpenedOn current) (ht : t.revert = .ok t') : t'.OpenedOn current := by
  obtain ⟨_, _, hreverted⟩ := ok_of_bind ht
  cases hreverted
  exact ⟨h.ascending, Overlay.grounded_empty, h.notAhead, h.fresh⟩

variable [Std.TransOrd K]

theorem call_keeps [BEq V] {c : Call K V} {answer : Option Bool} (hc : t.call c = .ok (answer, t')) :
    t'.origin = t.origin ∧ t'.status = t.status := by
  have hremove {key : K} {present : Bool} {t' : Transaction K V} (ht : t.remove key = .ok (present, t')) :
      t'.origin = t.origin ∧ t'.status = t.status := by
    obtain ⟨_, _, hremoved⟩ := ok_of_bind ht
    cases hremoved
    exact ⟨rfl, rfl⟩
  cases c with
  | set key value =>
      obtain ⟨_, hset, hcalled⟩ := ok_of_bind hc
      obtain ⟨_, _, hset⟩ := ok_of_bind hset
      cases hset
      cases hcalled
      exact ⟨rfl, rfl⟩
  | remove key =>
      obtain ⟨_, ht, hcalled⟩ := ok_of_bind hc
      cases hcalled
      exact hremove ht
  | tryRemove key =>
      cases hc
      rw [tryRemove]
      split
      · exact hremove ‹_›
      · exact ⟨rfl, rfl⟩
  | revert =>
      obtain ⟨_, hrevert, hcalled⟩ := ok_of_bind hc
      obtain ⟨_, _, hrevert⟩ := ok_of_bind hrevert
      cases hrevert
      cases hcalled
      exact ⟨rfl, rfl⟩

theorem OpenedOn.set [BEq V] (h : t.OpenedOn current) {key : K} {value : V} (ht : t.set key value = .ok t') :
    t'.OpenedOn current := by
  obtain ⟨_, _, hset⟩ := ok_of_bind ht
  cases hset
  exact ⟨h.ascending, h.grounded.set key value, h.notAhead, h.fresh⟩

theorem OpenedOn.remove (h : t.OpenedOn current) {key : K} {present : Bool}
    (ht : t.remove key = .ok (present, t')) : t'.OpenedOn current := by
  obtain ⟨_, _, hremoved⟩ := ok_of_bind ht
  cases hremoved
  exact ⟨h.ascending, h.grounded.remove h.ascending key, h.notAhead, h.fresh⟩

theorem OpenedOn.tryRemove (h : t.OpenedOn current) (key : K) : (t.tryRemove key).2.OpenedOn current := by
  rw [Transaction.tryRemove]
  split
  · rename_i result hresult
    exact h.remove hresult
  · exact h

end Transaction

namespace Session

structure Sound (s : Session τ ν K V) : Prop where
  store : s.store.Sound
  opened : ∀ e ∈ s.transactions, e.2.OpenedOn s.store.snapshot

theorem sound_ofStore {store : Store ν K V} (h : store.Sound) : (ofStore store : Session τ ν K V).Sound :=
  ⟨h, fun _ he => nomatch he⟩

variable {s : Session τ ν K V}

theorem discard_cases (s : Session τ ν K V) (t? : Option (Transaction K V)) : s.discard t? = s ∨
    ∃ base pending, s.discard t? = { s with store := s.store.record (.discarded base pending) } := by
  cases t? with
  | none => exact .inl rfl
  | some t =>
      rw [Session.discard]
      split
      · exact .inr ⟨_, _, rfl⟩
      · exact .inl rfl

theorem Sound.discard (h : s.Sound) (t? : Option (Transaction K V)) : (s.discard t?).Sound := by
  rcases s.discard_cases t? with hd | ⟨_, _, hd⟩ <;> rw [hd]
  · exact h
  · exact ⟨h.store.record _, h.opened⟩

theorem Sound.publish [Std.TransOrd K] [DecidableEq ν] (h : s.Sound) {t : Transaction K V} (ht : t.OpenedOn s.store.snapshot) :
    Sound { s with store := s.store.publish t.base.version t.toList t.diff.toList } := by
  refine ⟨h.store.publish _ (t.overlay.ascending_toList ht.ascending) _, ?_⟩
  intro e he
  exact (h.opened e he).publish (s.store.version_lt_publish _ _ _)

variable [DecidableEq τ]

theorem mem_of_transaction? {name : τ} {t : Transaction K V} (h : s.transaction? name = some t) :
    (name, t) ∈ s.transactions := by
  obtain ⟨before, after, hsplit, _⟩ := List.lookup_eq_some_iff.mp h
  rw [hsplit]
  exact List.mem_append_right _ List.mem_cons_self

theorem Sound.hold (h : s.Sound) (name : τ) {t : Transaction K V} (ht : t.OpenedOn s.store.snapshot) :
    (s.hold name t).Sound := by
  refine ⟨h.store, ?_⟩
  intro e he
  rw [Session.hold] at he
  split at he
  · obtain ⟨old, hold, rfl⟩ := List.mem_map.mp he
    split
    · exact ht
    · exact h.opened old hold
  · rcases List.mem_cons.mp he with rfl | he
    · exact ht
    · exact h.opened e he

theorem Sound.start (h : s.Sound) (name : τ) : (s.start name).Sound := by
  have hstarted : Sound { s with store := s.store.record (.started s.store.version) } :=
    ⟨h.store.record _, h.opened⟩
  exact (hstarted.hold name (Transaction.openedOn_start h.store.ascending)).discard _

theorem Sound.drop (h : s.Sound) (name : τ) : (s.drop name).Sound := by
  have hrest : Sound { s with transactions := s.transactions.eraseP (·.1 == name) } :=
    ⟨h.store, fun e he => h.opened e (List.mem_of_mem_eraseP he)⟩
  exact hrest.discard _

theorem Sound.edit (h : s.Sound) (name : τ)
    {change : Transaction K V → Except Fault (Reply K V × Transaction K V)}
    (hchange : ∀ t reply t', t.OpenedOn s.store.snapshot → change t = .ok (reply, t') →
      t'.OpenedOn s.store.snapshot) : (s.edit name change).2.Sound := by
  rw [Session.edit]
  split
  case h_1 => exact h
  case h_2 t ht =>
      split
      case h_1 => exact h
      case h_2 reply t' ht' =>
          exact h.hold name (hchange t reply t' (h.opened _ (mem_of_transaction? ht)) ht')

theorem transaction?_hold (s : Session τ ν K V) (name : τ) (t : Transaction K V) :
    (s.hold name t).transaction? name = some t := by
  rw [transaction?, Session.hold]
  split
  case isTrue hany =>
      generalize s.transactions = entries at hany
      induction entries with
      | nil => cases hany
      | cons e entries ih =>
          rw [List.map_cons, List.lookup_cons]
          by_cases he : e.1 = name
          · rw [if_pos he, beq_self_eq_true]
          · have hne : (name == e.1) = false := beq_eq_false_iff_ne.mpr (Ne.symm he)
            rw [if_neg he, hne]
            rw [List.any_cons, beq_eq_false_iff_ne.mpr he, Bool.false_or] at hany
            exact ih hany
  case isFalse =>
      rw [List.lookup_cons, beq_self_eq_true]

variable [DecidableEq ν]

theorem commit_of_unknown {name : τ} (h : s.transaction? name = none) : s.commit name = (.unknown, s) := by
  rw [Session.commit, h]

theorem commit_of_committed {name : τ} {t : Transaction K V} (h : s.transaction? name = some t)
    (ht : t.status = .committed) : s.commit name = (.refused (.committed .commit), s) := by
  simp only [Session.commit, h, s.store.commit_eq, ht]

theorem commit_of_unchanged {name : τ} {t : Transaction K V} (h : s.transaction? name = some t)
    (ht : t.status = .active) (hc : t.hasChanges = false) :
    s.commit name = (.committed [], s.hold name { t with status := .committed }) := by
  simp only [Session.commit, h, s.store.commit_eq, ht, hc]
  rfl

theorem commit_of_changed {name : τ} {t : Transaction K V} (h : s.transaction? name = some t)
    (ht : t.status = .active) (hc : t.hasChanges = true) :
    s.commit name = (.committed t.diff.toList,
      { s with store := s.store.publish t.base.version t.toList t.diff.toList }.hold name
        { t with status := .committed }) := by
  simp only [Session.commit, h, s.store.commit_eq, ht, hc]
  rfl

inductive Commits (s : Session τ ν K V) (name : τ) : Reply K V × Session τ ν K V → Prop
  | unknown (h : s.transaction? name = none) : Commits s name (.unknown, s)
  | refused (t : Transaction K V) (h : s.transaction? name = some t) (ht : t.status = .committed) :
    Commits s name (.refused (.committed .commit), s)
  | unchanged (t : Transaction K V) (h : s.transaction? name = some t) (ht : t.status = .active)
    (hc : t.hasChanges = false) : Commits s name (.committed [], s.hold name { t with status := .committed })
  | changed (t : Transaction K V) (h : s.transaction? name = some t) (ht : t.status = .active)
    (hc : t.hasChanges = true) : Commits s name (.committed t.diff.toList,
      { s with store := s.store.publish t.base.version t.toList t.diff.toList }.hold name
        { t with status := .committed })

theorem commit_cases (s : Session τ ν K V) (name : τ) : s.Commits name (s.commit name) := by
  cases ht : s.transaction? name with
  | none =>
      rw [commit_of_unknown ht]
      exact .unknown ht
  | some t =>
      cases hstatus : t.status with
      | committed =>
          rw [commit_of_committed ht hstatus]
          exact .refused t ht hstatus
      | active =>
          cases hc : t.hasChanges with
          | false =>
              rw [commit_of_unchanged ht hstatus hc]
              exact .unchanged t ht hstatus hc
          | true =>
              rw [commit_of_changed ht hstatus hc]
              exact .changed t ht hstatus hc

theorem Sound.commit [Std.TransOrd K] (h : s.Sound) (name : τ) : (s.commit name).2.Sound := by
  have hcases := s.commit_cases name
  generalize s.commit name = result at hcases ⊢
  cases hcases with
  | unknown | refused => exact h
  | unchanged t ht => exact h.hold name (h.opened _ (mem_of_transaction? ht)).committed
  | changed t ht =>
      have ho := h.opened _ (mem_of_transaction? ht)
      exact (h.publish ho).hold name (ho.publish (s.store.version_lt_publish _ _ _)).committed

variable [Std.TransOrd K] [BEq V]

theorem sound_step (h : s.Sound) (op : Op τ ν K V) : (s.step op).2.Sound := by
  cases op with
  | start name => exact h.start name
  | set name key value =>
      refine h.edit name fun t reply t' ho ht => ?_
      obtain ⟨_, hset, hreply⟩ := ok_of_bind ht
      cases hreply
      exact ho.set hset
  | remove name key =>
      refine h.edit name fun t reply t' ho ht => ?_
      obtain ⟨_, hremove, hreply⟩ := ok_of_bind ht
      cases hreply
      exact ho.remove hremove
  | tryRemove name key =>
      refine h.edit name fun t reply t' ho ht => ?_
      cases ht
      exact ho.tryRemove key
  | revert name =>
      refine h.edit name fun t reply t' ho ht => ?_
      obtain ⟨_, hrevert, hreply⟩ := ok_of_bind ht
      cases hreply
      exact ho.revert hrevert
  | commit name => exact h.commit name
  | drop name => exact h.drop name
  | subscribe name handler => exact ⟨h.store.subscribe name handler, h.opened⟩
  | disconnect name => exact ⟨⟨h.store.ascending, h.store.rests.disconnect name⟩, h.opened⟩
  | detach name => exact ⟨⟨h.store.ascending, h.store.rests.detach name⟩, h.opened⟩
  | count =>
      refine ⟨⟨h.store.ascending, ?_⟩, h.opened⟩
      change s.store.changed.settle.Rests
      rw [Signal.settle_of_retired_nil h.store.rests.settled]
      exact h.store.rests

/-- The states of sessions on a new store, seeded or empty. -/
inductive Reachable : Session τ ν K V → Prop where
  | opened (entries : List (K × V)) : Reachable (ofStore (Store.ofList entries))
  | step {s : Session τ ν K V} (op : Op τ ν K V) (h : Reachable s) : Reachable (s.step op).2

theorem Reachable.run (h : s.Reachable) (ops : List (Op τ ν K V)) : (s.run ops).Reachable := by
  induction ops generalizing s with
  | nil => exact h
  | cons op ops ih => exact ih (h.step op)

theorem Reachable.sound (h : s.Reachable) : s.Sound := by
  induction h with
  | opened entries => exact sound_ofStore (Store.sound_ofList entries)
  | step op h ih => exact sound_step ih op

end Session

end VersionedMap
