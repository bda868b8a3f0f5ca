import VersionedMap.Proofs.Sweeps

namespace VersionedMap

namespace Event

variable {ν α ρ : Type}

def connections (log : List (Event ν α ρ)) : List Nat :=
  log.filterMap connection?

def disconnections (log : List (Event ν α ρ)) : List Nat :=
  log.filterMap disconnection?

/-- Ids count up from zero as handlers are connected, and a handler is disconnected at most once and
after that. -/
structure Orderly (n : Nat) (log : List (Event ν α ρ)) : Prop where
  connected : connections log = List.range n
  once : (disconnections log).Nodup
  after : ∀ past, past <+: log → disconnections past ⊆ connections past

variable {n : Nat} {log es : List (Event ν α ρ)} {e : Event ν α ρ}

theorem orderly_nil : Orderly 0 ([] : List (Event ν α ρ)) where
  connected := rfl
  once := .nil
  after past h := by simp [List.prefix_nil.1 h, disconnections]

theorem connections_concat : connections (log ++ [e]) = connections log ++ e.connection?.toList := by
  cases h : e.connection? <;> simp [connections, h]

theorem disconnections_concat :
    disconnections (log ++ [e]) = disconnections log ++ e.disconnection?.toList := by
  cases h : e.disconnection? <;> simp [disconnections, h]

theorem Orderly.quiet (h : Orderly n log) (he : e.Quiet) : Orderly n (log ++ [e]) := by
  obtain ⟨hc, hd⟩ := he
  refine ⟨?_, ?_, ?_⟩
  · simpa [connections_concat, hc] using h.connected
  · simpa [disconnections_concat, hd] using h.once
  · intro past hp
    rcases List.prefix_concat_iff.1 hp with rfl | hp
    · simpa [connections_concat, disconnections_concat, hc, hd] using h.after log (List.prefix_refl _)
    · exact h.after past hp

theorem Orderly.quietAll (h : Orderly n log) (hes : ∀ e ∈ es, e.Quiet) : Orderly n (log ++ es) := by
  induction es generalizing log with
  | nil => simpa using h
  | cons e es ih =>
      rw [List.append_cons]
      exact ih (h.quiet (hes e (by simp))) fun e he => hes e (by simp [he])

theorem disconnections_quietAll (hes : ∀ e ∈ es, e.Quiet) :
    disconnections (log ++ es) = disconnections log := by
  have hnone : disconnections es = [] := List.filterMap_eq_nil_iff.2 fun e he => (hes e he).2
  rw [disconnections, List.filterMap_append, ← disconnections, ← disconnections, hnone, List.append_nil]

theorem Orderly.connect (h : Orderly n log) : Orderly (n + 1) (log ++ [.connected n]) := by
  refine ⟨?_, ?_, ?_⟩
  · rw [connections_concat, h.connected, List.range_succ]
    rfl
  · simpa [disconnections_concat, disconnection?] using h.once
  · intro past hp
    rcases List.prefix_concat_iff.1 hp with rfl | hp
    · intro id hid
      have hid : id ∈ disconnections log := by simpa [disconnections_concat, disconnection?] using hid
      rw [connections_concat]
      exact List.mem_append_left _ (h.after log (List.prefix_refl _) hid)
    · exact h.after past hp

theorem Orderly.disconnect (h : Orderly n log) {id : Nat} (hid : id < n) (hd : id ∉ disconnections log) :
    Orderly n (log ++ [.disconnected id]) := by
  refine ⟨?_, ?_, ?_⟩
  · simpa [connections_concat, connection?] using h.connected
  · rw [disconnections_concat]
    exact List.nodup_append.2 ⟨h.once, List.nodup_singleton id, by
      rintro a ha b hb rfl
      exact hd (List.mem_singleton.1 hb ▸ ha)⟩
  · intro past hp
    rcases List.prefix_concat_iff.1 hp with rfl | hp
    · intro x hx
      rw [disconnections_concat] at hx
      rw [connections_concat, h.connected]
      apply List.mem_append_left
      rcases List.mem_append.1 hx with hx | hx
      · exact h.connected ▸ h.after log (List.prefix_refl _) hx
      · exact List.mem_range.2 (List.mem_singleton.1 hx ▸ hid)
    · exact h.after past hp

end Event

namespace Signal

open Event

variable {ν α ρ : Type}

/-- Ids below `n` have been given to handlers that were connected, and the handlers connected now are
those not disconnected since. -/
structure Logged (n : Nat) (s : Signal ν α ρ) : Prop where
  log : Orderly n s.trace
  ids : s.alive = true → s.ids = (List.range n).filter (· ∉ disconnections s.trace)

variable {n : Nat} {s s' : Signal ν α ρ}

theorem logged_empty : (empty : Signal ν α ρ).Logged 0 :=
  ⟨orderly_nil, fun _ => rfl⟩

theorem Logged.mem_ids (h : s.Logged n) (ha : s.alive = true) {id : Nat} :
    id ∈ s.ids ↔ id < n ∧ id ∉ disconnections s.trace := by
  simp [h.ids ha]

theorem Logged.pairwise_ids (h : s.Logged n) (ha : s.alive = true) : s.ids.Pairwise (· < ·) := by
  rw [h.ids ha]
  exact List.pairwise_lt_range.filter _

theorem Logged.nodup_ids (h : s.Logged n) (ha : s.alive = true) : s.ids.Nodup :=
  (h.pairwise_ids ha).imp Nat.ne_of_lt

theorem Logged.balance (h : s.Logged n) (ha : s.alive = true) :
    (connections s.trace).length = (disconnections s.trace).length + s.members.length := by
  have hgone : ((List.range n).filter (· ∈ disconnections s.trace)).Perm (disconnections s.trace) := by
    refine (List.perm_ext_iff_of_nodup (List.nodup_range.filter _) h.log.once).2 fun id => ?_
    have hrange := h.log.after s.trace (List.prefix_refl _)
    rw [h.log.connected] at hrange
    simpa using fun hid => List.mem_range.1 (hrange hid)
  have hthere : s.members.length = ((List.range n).filter (· ∉ disconnections s.trace)).length := by
    rw [← h.ids ha, Signal.ids, List.length_map]
  rw [h.log.connected, ← hgone.length_eq, hthere,
    List.length_eq_length_filter_add (fun id => decide (id ∈ disconnections s.trace))]
  simp

theorem Logged.quietly (h : s.Logged n) (hi : s'.ids = s.ids) (ha : s'.alive = s.alive)
    {es : List (Event ν α ρ)} (ht : s'.trace = s.trace ++ es) (hes : ∀ e ∈ es, e.Quiet) : s'.Logged n := by
  refine ⟨ht ▸ h.log.quietAll hes, fun hs => ?_⟩
  rw [hi, ht, disconnections_quietAll hes]
  exact h.ids (ha ▸ hs)

theorem Logged.remove (h : s.Logged n) (ha : s.alive = true) (id : Nat) : (s.remove id).Logged n := by
  rcases s.remove_cases id with ⟨_, hs⟩ | ⟨m, hm, hid, hs, hi⟩
  · rwa [hs]
  · have hmem : id ∈ s.ids := List.mem_map.2 ⟨m, hm, hid⟩
    obtain ⟨hlt, hd⟩ := (h.mem_ids ha).1 hmem
    refine ⟨by simpa only [hs] using h.log.disconnect hlt hd, fun _ => ?_⟩
    -- ids ascend, so the one taken out stood there once
    rw [hi, (h.nodup_ids ha).erase_eq_filter, h.ids ha, List.filter_filter]
    simp only [hs]
    apply List.filter_congr
    intro x _
    simp only [disconnections_concat, disconnection?, Option.toList_some, List.mem_append, List.mem_singleton,
      not_or, Bool.decide_and, decide_not]
    exact Bool.and_comm _ _

theorem Logged.settle (h : s.Logged n) (ha : s.alive = true) : s.settle.Logged n := by
  fun_induction Signal.settle s with
  | case1 s => exact h
  | case2 s id rest _ ih =>
      have hrest : { s with retired := rest }.Logged n := ⟨h.log, h.ids⟩
      obtain ⟨_, _, _, hs⟩ := remove_shape { s with retired := rest } id
      exact ih (hrest.remove ha id) (by rw [hs]; exact ha)

theorem Logged.drop (h : s.Logged n) (id : Nat) : (s.drop id).Logged n := by
  cases ha : s.alive with
  | false => simpa [Signal.drop, ha] using h
  | true =>
      rw [drop_eq_settle ha]
      exact Logged.settle ⟨h.log, h.ids⟩ ha

theorem Logged.enroll (h : s.Logged n) {m : Member ν} (hm : m.id = n) :
    ((s.enroll m).record (.connected n)).Logged (n + 1) := by
  refine ⟨h.log.connect, fun ha => ?_⟩
  have hfresh : n ∉ disconnections s.trace := by
    intro hn
    have hc := h.log.after s.trace (List.prefix_refl _) hn
    rw [h.log.connected] at hc
    exact List.not_mem_range_self hc
  have hids : ((s.enroll m).record (.connected n)).ids = s.ids ++ [n] := by
    simp [Signal.ids, Signal.enroll, record, hm]
  have hlog : disconnections ((s.enroll m).record (.connected n)).trace = disconnections s.trace := by
    simp [record, Signal.enroll, disconnections_concat, disconnection?]
  rw [hids, hlog, h.ids ha, List.range_succ, List.filter_append]
  simp [hfresh]

variable [DecidableEq ν] {names : List ν}

theorem Logged.retires (h : s.Logged n) (hr : Retires names s s') : s'.Logged n := by
  obtain ⟨es, ht, hes⟩ := hr.trace
  exact h.quietly (ids_of_roster hr.roster) hr.alive ht hes

theorem Logged.hold (h : s.Logged n) (name : ν) (id : Nat) : (s.hold name id).Logged n := by
  rw [Signal.hold]
  split
  · exact ⟨h.log, h.ids⟩
  · exact Logged.drop (s := { s.release name with held := (name, id) :: (s.release name).held })
      ⟨h.log, h.ids⟩ _

theorem Logged.emit (h : s.Logged n) (ha : s.alive = true) (drops : List ν) (changes : Changes α)
    (seen : ρ) : (s.emit drops changes seen).Logged n := by
  obtain ⟨t, ht, he⟩ := s.emit_retires drops changes seen
  have hlog := (h.settle ha).retires ht
  rcases he with he | he
  · exact he ▸ hlog
  · exact he ▸ hlog.settle (ht.alive.trans (s.alive_settle.trans ha))

theorem Logged.gather (h : s.Logged n) (names : List ν) : (s.gather names).2.Logged n := by
  obtain ⟨_, hg⟩ := s.gather_shape names
  exact hg ▸ ⟨h.log, h.ids⟩

theorem Logged.joined (h : s.Logged s.nextId) (ha : s.alive = true) (name : ν) (handler : Handler ν)
    (drops : List ν) (changes : Changes α) (seen : ρ) :
    (s.joined name handler drops changes seen).Logged (s.nextId + 1) := by
  have hsettled := (h.gather handler.owns).settle ((s.alive_gather _).trans ha)
  have hbusy : { (s.gather handler.owns).2.settle with nextId := s.nextId + 1 }.Logged s.nextId :=
    ⟨hsettled.log, hsettled.ids⟩
  exact (hbusy.retires (s.retires_offered name handler drops changes seen)).enroll
    (m := { s.newcomer name handler with calls := 1 }) rfl

theorem Logged.connect (h : s.Logged s.nextId) (ha : s.alive = true) (name : ν) (handler : Handler ν)
    (drops : List ν) (changes : Changes α) (seen : ρ) :
    (s.connect name handler drops changes seen).2.Logged (s.nextId + 1) := by
  have hjoined := h.joined ha name handler drops changes seen
  rw [connect_eq]
  exact (hjoined.settle ((s.alive_joined name handler drops changes seen).trans ha)).hold name s.nextId

theorem Logged.entrust (h : s.Logged n) (name : ν) (owner : Nat) : (s.entrust name owner).Logged n := by
  rcases s.entrust_cases name owner with ⟨_, hs⟩ | ⟨id, _, _, hs⟩
  · rwa [hs]
  · refine hs ▸ h.quietly ?_ rfl (List.append_nil _).symm (by simp)
    simp [Signal.ids, id_entrusted, Function.comp_def]

theorem Logged.disconnect (h : s.Logged n) (name : ν) : (s.disconnect name).Logged n := by
  rw [Signal.disconnect]
  split
  · exact h
  · exact Logged.drop (s := s.release name) ⟨h.log, h.ids⟩ _

def Reply.id? : Reply α → Option Nat
  | .subscribed id => some id
  | _ => none

def subscriptions (seen : ρ) : Signal ν α ρ → List (Op ν α) → List Nat
  | _, [] => []
  | s, op :: ops => (s.step seen op).1.id?.toList ++ subscriptions seen (s.step seen op).2 ops

theorem nextId_step (seen : ρ) (s : Signal ν α ρ) (op : Op ν α) :
    (s.step seen op).1.id? = some s.nextId ∧ (s.step seen op).2.nextId = s.nextId + 1 ∨
      (s.step seen op).1.id? = none ∧ (s.step seen op).2.nextId = s.nextId := by
  unfold step
  cases ha : s.alive with
  | false => cases op <;> simp [Reply.id?, nextId_disconnect, detach, release]
  | true =>
      cases op with
      | connect name handler drops populate =>
          exact .inl ⟨by simp [stepAlive, connect_eq, Reply.id?], s.nextId_connect name handler drops populate seen⟩
      | emit drops changes => exact .inr ⟨rfl, s.nextId_emit drops changes seen⟩
      | count => exact .inr ⟨rfl, s.nextId_settle⟩
      | disconnect name => exact .inr ⟨rfl, s.nextId_disconnect name⟩
      | entrust name owner => exact .inr ⟨rfl, s.nextId_entrust name owner⟩
      | detach | close => exact .inr ⟨rfl, rfl⟩

theorem logged_step (h : s.Logged s.nextId) (seen : ρ) (op : Op ν α) :
    (s.step seen op).2.Logged (s.step seen op).2.nextId := by
  unfold step
  cases ha : s.alive with
  | false =>
      cases op with
      | disconnect name => simpa [nextId_disconnect] using h.disconnect name
      | detach name => exact ⟨h.log, h.ids⟩
      | connect | emit | count | entrust | close => exact h
  | true =>
      cases op with
      | connect name handler drops populate =>
          simpa [stepAlive, nextId_connect] using h.connect ha name handler drops populate seen
      | emit drops changes => simpa [stepAlive, nextId_emit] using h.emit ha drops changes seen
      | count => simpa [stepAlive, count, nextId_settle] using h.settle ha
      | disconnect name => simpa [stepAlive, nextId_disconnect] using h.disconnect name
      | detach name => exact ⟨h.log, h.ids⟩
      | entrust name owner => simpa [stepAlive, nextId_entrust] using h.entrust name owner
      | close => exact ⟨h.log, fun hc => nomatch hc⟩

theorem logged_run (h : s.Logged s.nextId) (seen : ρ) (ops : List (Op ν α)) :
    (s.run seen ops).Logged (s.run seen ops).nextId := by
  induction ops generalizing s with
  | nil => exact h
  | cons op ops ih => exact ih (logged_step h seen op)

theorem subscriptions_run (seen : ρ) (s : Signal ν α ρ) (ops : List (Op ν α)) :
    ∃ k, subscriptions seen s ops = List.range' s.nextId k ∧ (s.run seen ops).nextId = s.nextId + k := by
  induction ops generalizing s with
  | nil => exact ⟨0, rfl, rfl⟩
  | cons op ops ih =>
      obtain ⟨k, hk, hn⟩ := ih (s.step seen op).2
      rw [subscriptions, hk, run, List.foldl_cons, ← run, hn]
      rcases nextId_step seen s op with ⟨hi, hs⟩ | ⟨hi, hs⟩
      · refine ⟨k + 1, ?_, by omega⟩
        simp [hi, hs, List.range'_succ]
      · exact ⟨k, by simp [hi, hs], by omega⟩

end Signal

end VersionedMap
