import VersionedMap.Proofs.SignalDeliveries
import Mathlib.Logic.Function.Iterate

namespace VersionedMap

namespace Event

variable {ν α ρ : Type}

def connection? : Event ν α ρ → Option Nat
  | connected id => some id
  | _ => none

def disconnection? : Event ν α ρ → Option Nat
  | disconnected id => some id
  | _ => none

def Quiet (e : Event ν α ρ) : Prop :=
  e.connection? = none ∧ e.disconnection? = none

end Event

namespace Signal

open Event

variable {ν α ρ : Type}

def ids (s : Signal ν α ρ) : List Nat :=
  s.members.map (·.id)

def roster (s : Signal ν α ρ) : List (Nat × List Nat) :=
  s.members.map fun m => (m.id, m.owned)

variable {s s' s'' : Signal ν α ρ}

theorem ids_of_roster (h : s'.roster = s.roster) : s'.ids = s.ids := by
  have hids : ∀ t : Signal ν α ρ, t.ids = t.roster.map (·.1) := fun t => by simp [Signal.ids, roster]
  rw [hids, hids, h]

theorem remove_cases (s : Signal ν α ρ) (id : Nat) : (id ∉ s.ids ∧ s.remove id = s) ∨
    ∃ m ∈ s.members, m.id = id ∧ s.remove id =
      { s with
        members := s.members.eraseP (·.id == id)
        retired := s.retired ++ m.owned
        trace := s.trace ++ [.disconnected id] } ∧ (s.remove id).ids = s.ids.erase id := by
  cases hm : s.members.find? (·.id == id) with
  | none =>
      refine .inl ⟨?_, by simp [remove, hm]⟩
      simpa [Signal.ids] using hm
  | some m =>
      have hid : m.id = id := by simpa using List.find?_some hm
      refine .inr ⟨m, List.mem_of_find?_eq_some hm, hid, by simp [remove, hm, record], ?_⟩
      simp [remove, hm, record, Signal.ids, ids_eraseP]

theorem settle_cons {id : Nat} {rest : List Nat} (h : s.retired = id :: rest) :
    s.settle = ({ s with retired := rest }.remove id).settle := by
  obtain ⟨nextId, members, retired, held, alive, trace⟩ := s
  cases h
  rw [settle]

/-- One pass over the subscriptions retired by now; those it retires wait for the next. -/
def pass (s : Signal ν α ρ) : Signal ν α ρ :=
  s.retired.foldl remove { s with retired := [] }

theorem remove_queued (s : Signal ν α ρ) (queue : List Nat) (id : Nat) :
    { s with retired := queue ++ s.retired }.remove id =
      { s.remove id with retired := queue ++ (s.remove id).retired } := by
  cases hm : s.members.find? (·.id == id) <;> simp [remove, hm, record]

theorem settle_queued (s : Signal ν α ρ) (queue : List Nat) :
    { s with retired := queue ++ s.retired }.settle = (queue.foldl remove s).settle := by
  induction queue generalizing s with
  | nil => rfl
  | cons id queue ih =>
      rw [List.foldl_cons, ← ih, ← remove_queued, settle]
      rfl

theorem settle_pass (s : Signal ν α ρ) : s.pass.settle = s.settle := by
  have hqueue := settle_queued { s with retired := [] } s.retired
  simp only [List.append_nil] at hqueue
  exact hqueue.symm

theorem removeAll_shrinks (s : Signal ν α ρ) (ids : List Nat) :
    (ids.foldl remove s).members.length < s.members.length ∨
      (ids.foldl remove s).members = s.members ∧ (ids.foldl remove s).retired = s.retired := by
  induction ids generalizing s with
  | nil => exact .inr ⟨rfl, rfl⟩
  | cons id ids ih =>
      rw [List.foldl_cons]
      rcases remove_shrinks s id with hid | ⟨hm, hr⟩
      · rcases ih (s.remove id) with hids | ⟨hids, _⟩
        · exact .inl (Nat.lt_trans hids hid)
        · exact .inl (hids ▸ hid)
      · rw [← hm, ← hr]
        exact ih (s.remove id)

theorem pass_of_settled {s : Signal ν α ρ} (hs : s.retired = []) : s.pass = s := by
  rw [pass, hs, List.foldl_nil, ← hs]

/-- Passes come to an end: each removes a handler or is the last. -/
theorem passes_settle (s : Signal ν α ρ) {n : Nat} (hn : s.members.length < n) :
    pass^[n] s = s.settle := by
  induction n generalizing s with
  | zero => exact absurd hn (Nat.not_lt_zero _)
  | succ n ih =>
      rw [Function.iterate_succ_apply, ← settle_pass]
      rcases removeAll_shrinks { s with retired := [] } s.retired with hless | ⟨_, hnone⟩
      · exact ih s.pass (Nat.lt_of_lt_of_le hless (Nat.le_of_lt_succ hn))
      · -- no handler was removed, so nothing was retired in turn
        have hdone : s.pass.retired = [] := hnone
        rw [settle_of_retired_nil hdone]
        exact Function.iterate_fixed (pass_of_settled hdone) n

variable [DecidableEq ν] {names names' : List ν}

theorem gather_append (s : Signal ν α ρ) (names names' : List ν) :
    s.gather (names ++ names') = ((s.gather names).1 ++ ((s.gather names).2.gather names').1,
      ((s.gather names).2.gather names').2) := by
  induction names generalizing s with
  | nil => rfl
  | cons name names ih => simp [gather, ih]

theorem gather_congr (hs : s.held = s'.held) (names : List ν) :
    (s.gather names).1 = (s'.gather names).1 ∧ (s.gather names).2.held = (s'.gather names).2.held := by
  induction names generalizing s s' with
  | nil => exact ⟨rfl, hs⟩
  | cons name names ih =>
      have hrelease : (s.release name).held = (s'.release name).held := by simp [release, hs]
      obtain ⟨hi, hh⟩ := ih hrelease
      refine ⟨?_, hh⟩
      simp [gather, held?, hs, hi]

theorem retireAll_eq (s : Signal ν α ρ) (names : List ν) :
    names.foldl retire s = { (s.gather names).2 with retired := s.retired ++ (s.gather names).1 } := by
  induction names generalizing s with
  | nil => simp [gather]
  | cons name names ih =>
      rw [List.foldl_cons, ih, gather, retire]
      cases hn : s.held? name with
      | none => simp [release_of_none hn]
      | some id =>
          let t := { s.release name with retired := s.retired ++ [id] }
          have hheld : t.held = (s.release name).held := rfl
          obtain ⟨hi, hh⟩ := gather_congr hheld names
          obtain ⟨_, h⟩ := t.gather_shape names
          obtain ⟨_, h'⟩ := (s.release name).gather_shape names
          simp_all [t]

/-- The subscriptions held under `names` are retired while handlers run, and no handler comes or goes. -/
structure Retires (names : List ν) (s s' : Signal ν α ρ) : Prop where
  nextId : s'.nextId = s.nextId
  alive : s'.alive = s.alive
  roster : s'.roster = s.roster
  held : s'.held = (s.gather names).2.held
  retired : s'.retired = s.retired ++ (s.gather names).1
  trace : ∃ es, s'.trace = s.trace ++ es ∧ ∀ e ∈ es, e.Quiet

theorem Retires.trans (h : Retires names s s') (h' : Retires names' s' s'') :
    Retires (names ++ names') s s'' := by
  obtain ⟨es, ht, hes⟩ := h.trace
  obtain ⟨es', ht', hes'⟩ := h'.trace
  obtain ⟨hi, hh⟩ := gather_congr h.held names'
  refine ⟨h'.nextId.trans h.nextId, h'.alive.trans h.alive, h'.roster.trans h.roster, ?_, ?_,
    es ++ es', ?_, ?_⟩
  · rw [h'.held, hh, gather_append]
  · rw [h'.retired, h.retired, hi, gather_append, List.append_assoc]
  · rw [ht', ht, List.append_assoc]
  · intro e he
    rcases List.mem_append.1 he with he | he
    · exact hes e he
    · exact hes' e he

theorem retires_record (s : Signal ν α ρ) {e : Event ν α ρ} (he : e.Quiet) : Retires [] s (s.record e) :=
  ⟨rfl, rfl, rfl, rfl, (List.append_nil _).symm, [e], rfl, by simpa using he⟩

theorem retires_refl (s : Signal ν α ρ) : Retires [] s s :=
  ⟨rfl, rfl, rfl, rfl, (List.append_nil _).symm, [], (List.append_nil _).symm, by simp⟩

theorem retires_retireAll (s : Signal ν α ρ) (names : List ν) : Retires names s (names.foldl retire s) := by
  obtain ⟨_, h⟩ := s.gather_shape names
  rw [retireAll_eq]
  refine ⟨?_, ?_, ?_, rfl, rfl, [], ?_, by simp⟩
  all_goals simp [h, Signal.roster]

theorem retires_deliver (s : Signal ν α ρ) (m : Member ν) (changes : Changes α) (seen : ρ) :
    Retires (m.react m.calls).drops s (s.deliver m changes seen) := by
  have hcalled := (s.retires_record ⟨rfl, rfl⟩).trans (retires_retireAll
    (s.record (.received m.name m.id m.calls changes seen)) (m.react m.calls).drops)
  rw [deliver]
  cases (m.react m.calls).outcome with
  | returned => exact hcalled
  | failed reason => simpa using hcalled.trans (retires_record _ ⟨rfl, rfl⟩)
  | panicked payload => simpa using hcalled.trans (retires_record _ ⟨rfl, rfl⟩)

theorem retires_deliverAll (s : Signal ν α ρ) (ms : List (Member ν)) (changes : Changes α) (seen : ρ) :
    Retires (ms.flatMap fun m => (m.react m.calls).drops) s
      (ms.foldl (fun s m => s.deliver m changes seen) s) := by
  induction ms generalizing s with
  | nil => exact retires_refl s
  | cons m ms ih => exact (retires_deliver s m changes seen).trans (ih _)

theorem retires_broadcast (s : Signal ν α ρ) (changes : Changes α) (seen : ρ) :
    Retires (s.members.flatMap fun m => (m.react m.calls).drops) s (s.broadcast changes seen) := by
  have h := retires_deliverAll s s.members changes seen
  refine ⟨h.nextId, h.alive, ?_, h.held, h.retired, h.trace⟩
  simp [broadcast, Signal.roster, Function.comp_def]

def called (s : Signal ν α ρ) (changes : Changes α) : List ν :=
  if changes.isEmpty then [] else s.members.flatMap fun m => (m.react m.calls).drops

/-- After an emission, settled or not: one without changes leaves what its making retired for later. -/
theorem emit_retires (s : Signal ν α ρ) (drops : List ν) (changes : Changes α) (seen : ρ) :
    ∃ t, Retires (drops ++ s.settle.called changes) s.settle t ∧
      (s.emit drops changes seen = t ∨ s.emit drops changes seen = t.settle) := by
  have hdrops := retires_retireAll s.settle drops
  have hmembers : (drops.foldl retire s.settle).members = s.settle.members := by
    obtain ⟨_, _, h⟩ := s.settle.retireAll_shape drops
    rw [h]
  rw [emit, announce, called]
  generalize drops.foldl retire s.settle = t at *
  split
  · exact ⟨_, by simpa using hdrops, .inl rfl⟩
  · refine ⟨_, ?_, .inr rfl⟩
    rw [← hmembers]
    have hlogged := t.retires_record (e := .delivering t.members.length changes.length) ⟨rfl, rfl⟩
    exact hdrops.trans (hlogged.trans (retires_broadcast (t.record _) changes seen))

theorem retires_offered (s : Signal ν α ρ) (name : ν) (handler : Handler ν) (drops : List ν)
    (changes : Changes α) (seen : ρ) :
    Retires (drops ++ (handler.react 0).drops)
      { (s.gather handler.owns).2.settle with nextId := s.nextId + 1 }
      (s.offered name handler drops changes seen) :=
  (retires_retireAll _ drops).trans (retires_deliver _ (s.newcomer name handler) changes seen)

def joined (s : Signal ν α ρ) (name : ν) (handler : Handler ν) (drops : List ν) (changes : Changes α)
    (seen : ρ) : Signal ν α ρ :=
  ((s.offered name handler drops changes seen).enroll { s.newcomer name handler with calls := 1 }).record
    (.connected s.nextId)

theorem alive_gather (s : Signal ν α ρ) (names : List ν) : (s.gather names).2.alive = s.alive := by
  obtain ⟨_, hg⟩ := s.gather_shape names
  rw [hg]

theorem alive_joined (s : Signal ν α ρ) (name : ν) (handler : Handler ν) (drops : List ν)
    (changes : Changes α) (seen : ρ) : (s.joined name handler drops changes seen).alive = s.alive := by
  obtain ⟨_, _, _, _, h⟩ := s.offered_shape name handler drops changes seen
  rw [joined, h]
  rfl

theorem entrust_cases (s : Signal ν α ρ) (name : ν) (owner : Nat) :
    (s.held? name = none ∨ owner ∉ s.ids) ∧ s.entrust name owner = s ∨
      ∃ id, s.held? name = some id ∧ owner ∈ s.ids ∧ s.entrust name owner =
        { s.release name with members := s.members.map (entrusted owner id) } := by
  have howner : s.members.any (·.id == owner) = true ↔ owner ∈ s.ids := by simp [Signal.ids]
  rw [entrust]
  cases hid : s.held? name with
  | none => exact .inl ⟨.inl rfl, rfl⟩
  | some id =>
      by_cases ho : s.members.any (·.id == owner) = true
      · exact .inr ⟨id, rfl, howner.1 ho, if_pos ho⟩
      · exact .inl ⟨.inr (mt howner.2 ho), if_neg ho⟩

theorem nextId_entrust (s : Signal ν α ρ) (name : ν) (owner : Nat) :
    (s.entrust name owner).nextId = s.nextId := by
  rcases s.entrust_cases name owner with ⟨_, hs⟩ | ⟨id, _, _, hs⟩
  · rw [hs]
  · rw [hs]
    rfl

theorem nextId_emit (s : Signal ν α ρ) (drops : List ν) (changes : Changes α) (seen : ρ) :
    (s.emit drops changes seen).nextId = s.nextId := by
  obtain ⟨_, _, _, _, h⟩ := s.emit_shape drops changes seen
  rw [h]

end Signal

end VersionedMap
