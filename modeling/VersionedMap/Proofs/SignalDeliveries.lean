import VersionedMap.Proofs.Timeline

namespace VersionedMap.Signal

open Moment

variable {ν α ρ : Type}

/-- The subscriptions dropped between two states, as moments. -/
def lost (s s' : Signal ν α ρ) : List (Moment α) :=
  (s.existing.filter (· ∉ s'.existing)).map .left

def WellFormed (s : Signal ν α ρ) : Prop :=
  (s.registry []).WellFormed s.nextId

/-- The handlers whose subscriptions have not been dropped, in connection order. -/
def listening (s : Signal ν α ρ) : List Nat :=
  (s.registry []).listening

def received (s : Signal ν α ρ) (id : Nat) : List (Changes α) :=
  (s.deliveries.filter (·.id = id)).map (·.changes)

def heard (s : Signal ν α ρ) : List (Nat × Changes α) :=
  s.deliveries.map fun d => (d.id, d.changes)

theorem received_eq_share (s : Signal ν α ρ) (id : Nat) : s.received id = share id s.heard := by
  rw [received, share, heard, List.filter_map, List.map_map]
  rfl

theorem wellFormed_empty : (empty : Signal ν α ρ).WellFormed where
  below _ h := nomatch h
  distinct := .nil
  once := .nil
  connected _ h := nomatch h

section Steady

variable {s s' : Signal ν α ρ}

theorem WellFormed.of_sheds (hw : s.WellFormed) (h : Sheds [] s [] s') (hn : s'.nextId = s.nextId) :
    s'.WellFormed := by
  obtain ⟨_, _, h⟩ := h
  rw [WellFormed, hn]
  exact h.wellFormed hw

theorem listening_of_sheds (hw : s.WellFormed) (h : Sheds [] s [] s') :
    s'.listening = (s.lost s').foldl audience s.listening := by
  obtain ⟨_, _, h⟩ := h
  rw [lost, audience_left]
  exact h.listening hw

theorem listening_of_settled (hs : s.retired = []) : s.listening = s.members.map (·.id) := by
  rw [listening, Registry.listening]
  apply List.filter_eq_self.2
  intro id _
  rw [decide_eq_true_iff]
  change id ∉ s.retired
  rw [hs]
  exact List.not_mem_nil

end Steady

variable [DecidableEq ν]

/-- The moments of one operation. What a list has to drop before changes are made does not hear of them. -/
def moments (seen : ρ) (s : Signal ν α ρ) (op : Op ν α) : List (Moment α) :=
  let s' := (s.step seen op).2
  match op with
  | .connect _ _ _ populate => s.lost s' ++ [.joined s.nextId populate]
  | .emit _ changes => s.lost s.settle ++ .emitted changes :: s.settle.lost s'
  | .detach _ => []
  | _ => s.lost s'

def timeline (seen : ρ) : Signal ν α ρ → List (Op ν α) → List (Moment α)
  | _, [] => []
  | s, op :: ops =>
    (if s.alive then s.moments seen op else []) ++ timeline seen (s.step seen op).2 ops

/-- A signal passes through moments: what is heard then, which ids are given out, and who hears of what
comes next, if the signal goes on. -/
structure Advances (s : Signal ν α ρ) (ms : List (Moment α)) (s' : Signal ν α ρ) : Prop where
  heard : s'.heard = s.heard ++ scheduled s.listening ms
  joined : ∃ n, s'.nextId = s.nextId + n ∧ joinedIds ms = List.range' s.nextId n
  goesOn : s'.alive = true → s'.WellFormed ∧ s'.listening = ms.foldl audience s.listening

variable {s s' s'' : Signal ν α ρ}

omit [DecidableEq ν] in
theorem Advances.trans {ms ms' : List (Moment α)} (h : s.Advances ms s') (ha : s'.alive = true)
    (h' : s'.Advances ms' s'') : s.Advances (ms ++ ms') s'' := by
  obtain ⟨n, hn, hm⟩ := h.joined
  obtain ⟨n', hn', hm'⟩ := h'.joined
  have hl := (h.goesOn ha).2
  refine ⟨?_, ⟨n + n', ?_, ?_⟩, ?_⟩
  · rw [h'.heard, h.heard, hl, scheduled_append, List.append_assoc]
  · rw [hn', hn, Nat.add_assoc]
  · rw [joinedIds_append, hm, hm', hn, List.range'_append_1]
  · intro ha'
    rw [List.foldl_append, ← hl]
    exact h'.goesOn ha'

omit [DecidableEq ν] in
theorem advances_of_sheds (hw : s.WellFormed) (h : Sheds [] s [] s') (hn : s'.nextId = s.nextId)
    (hd : s'.deliveries = s.deliveries) : s.Advances (s.lost s') s' := by
  refine ⟨?_, ⟨0, hn, joinedIds_left _⟩, fun _ => ⟨hw.of_sheds h hn, listening_of_sheds hw h⟩⟩
  rw [lost, scheduled_left, List.append_nil, Signal.heard, hd]
  rfl

omit [DecidableEq ν] in
theorem advances_settle (hw : s.WellFormed) : s.Advances (s.lost s.settle) s.settle :=
  advances_of_sheds hw (sheds_settle [] s) s.nextId_settle (reads_settle Event.overlooks_delivery? s)

theorem advances_emit (ha : s.alive = true) (hw : s.WellFormed) (drops : List ν) (changes : Changes α)
    (seen : ρ) : s.Advances (s.lost s.settle ++ .emitted changes :: s.settle.lost (s.emit drops changes seen))
      (s.emit drops changes seen) := by
  have hsettle := advances_settle hw
  apply hsettle.trans (s.alive_settle.trans ha)
  obtain ⟨hw, _⟩ := hsettle.goesOn (s.alive_settle.trans ha)
  have hsheds := (sheds_retireAll [] s.settle drops).trans (sheds_announce [] _ changes seen)
  have hnext : (s.emit drops changes seen).nextId = s.settle.nextId := by
    obtain ⟨_, _, _, _, h⟩ := s.emit_shape drops changes seen
    rw [h, nextId_settle]
  refine ⟨?_, ⟨0, hnext, joinedIds_left _⟩, fun _ => ⟨hw.of_sheds hsheds hnext, listening_of_sheds hw hsheds⟩⟩
  have hdeliveries : (drops.foldl retire s.settle).deliveries = s.settle.deliveries := reads_retireAll _ _ _
  have hmembers : (drops.foldl retire s.settle).members = s.settle.members := by
    obtain ⟨_, _, h⟩ := s.settle.retireAll_shape drops
    rw [h]
  rw [Signal.heard, emit, deliveries_announce, hdeliveries, hmembers, List.map_append, scheduled,
    lost, scheduled_left, List.append_nil, listening_of_settled s.retired_settle, Moment.heard]
  congr 1
  split
  · rfl
  · rw [List.map_map, List.map_map]
    rfl

theorem advances_connect (ha : s.alive = true) (hw : s.WellFormed) (name : ν) (handler : Handler ν)
    (drops : List ν) (changes : Changes α) (seen : ρ) :
    s.Advances (s.lost (s.connect name handler drops changes seen).2 ++ [.joined s.nextId changes])
      (s.connect name handler drops changes seen).2 := by
  obtain ⟨r, dropped, gone, dropped', gone', hbefore, hafter⟩ :=
    connect_joins ha name handler drops changes seen
  have hnext := s.nextId_connect name handler drops changes seen
  have hheld : s.nextId ∈ ((s.connect name handler drops changes seen).2.registry []).live := by
    change s.nextId ∈ (s.connect name handler drops changes seen).2.existing
    rw [existing, connect_eq, held_hold]
    exact List.mem_cons_self
  refine ⟨?_, ⟨1, hnext, ?_⟩, fun _ => ⟨?_, ?_⟩⟩
  · rw [Signal.heard, deliveries_connect, List.map_append, scheduled_append, lost, scheduled_left]
    rfl
  · rw [joinedIds_append, lost, joinedIds_left]
    rfl
  · rw [WellFormed, hnext]
    exact hafter.wellFormed (hbefore.wellFormed hw).join
  · rw [List.foldl_append, lost, audience_left]
    exact Registry.listening_of_join hw hbefore hafter hheld

theorem advances_detach (hw : s.WellFormed) (name : ν) : s.Advances [] (s.detach name) := by
  have hsub : (s.detach name).existing.Sublist s.existing :=
    ((List.eraseP_sublist).map _).append_right _
  refine ⟨(List.append_nil _).symm, ⟨0, rfl, rfl⟩, fun _ => ⟨⟨hw.below, hw.distinct, ?_, ?_⟩, rfl⟩⟩
  · exact hw.once.sublist (hsub.append_right _)
  · intro id hid
    exact hw.connected id ((hsub.append_right _).subset hid)

omit [DecidableEq ν] in
theorem advances_close (s : Signal ν α ρ) : s.Advances (s.lost s.close) s.close := by
  refine ⟨?_, ⟨0, rfl, joinedIds_left _⟩, fun h => nomatch h⟩
  rw [lost, scheduled_left, List.append_nil]
  rfl

theorem step_of_alive (ha : s.alive = true) (seen : ρ) (op : Op ν α) : s.step seen op = s.stepAlive seen op :=
  if_pos ha

theorem advances_step (ha : s.alive = true) (hw : s.WellFormed) (seen : ρ) (op : Op ν α) :
    s.Advances (s.moments seen op) (s.step seen op).2 := by
  unfold moments
  rw [step_of_alive ha]
  cases op with
  | connect name handler drops populate => exact advances_connect ha hw name handler drops populate seen
  | emit drops changes => exact advances_emit ha hw drops changes seen
  | count => exact advances_settle hw
  | disconnect name =>
      exact advances_of_sheds hw (sheds_disconnect ha [] name) (s.nextId_disconnect name)
        (reads_disconnect Event.overlooks_delivery? s name)
  | detach name => exact advances_detach hw name
  | entrust name owner =>
      have hentrust : ∃ members held, s.entrust name owner = { s with members, held } := by
        rw [entrust]
        split
        · exact ⟨s.members, s.held, rfl⟩
        · split
          · exact ⟨_, _, rfl⟩
          · exact ⟨s.members, s.held, rfl⟩
      obtain ⟨_, _, h⟩ := hentrust
      refine advances_of_sheds hw (sheds_entrust hw.distinct [] name owner) ?_ ?_
      · change (s.entrust name owner).nextId = s.nextId
        rw [h]
      · change (s.entrust name owner).deliveries = s.deliveries
        rw [h]
        rfl
  | close => exact advances_close s

theorem step_ended (ha : s.alive = false) (seen : ρ) (op : Op ν α) :
    (s.step seen op).2.alive = false ∧ (s.step seen op).2.heard = s.heard := by
  have hdrop : ∀ name, s.disconnect name = s.release name ∨ s.disconnect name = s := by
    intro name
    rw [disconnect]
    split
    · exact .inr rfl
    · rw [drop, if_neg (by exact ha ▸ Bool.false_ne_true)]
      exact .inl rfl
  unfold step
  rw [if_neg (ha ▸ Bool.false_ne_true)]
  cases op with
  | disconnect name =>
      rcases hdrop name with h | h
      · exact ⟨(congrArg alive h).trans ha, (congrArg Signal.heard h).trans rfl⟩
      · exact ⟨(congrArg alive h).trans ha, congrArg Signal.heard h⟩
  | connect | emit | count | detach | entrust | close => exact ⟨ha, rfl⟩

theorem timeline_ended (ha : s.alive = false) (seen : ρ) (ops : List (Op ν α)) :
    timeline seen s ops = [] := by
  induction ops generalizing s with
  | nil => rfl
  | cons op ops ih =>
      rw [timeline, if_neg (ha ▸ Bool.false_ne_true), ih (step_ended ha seen op).1]
      rfl

theorem heard_run (seen : ρ) (s : Signal ν α ρ) (hw : s.alive = true → s.WellFormed) (ops : List (Op ν α)) :
    (s.run seen ops).heard = s.heard ++ scheduled s.listening (timeline seen s ops) ∧
      ∃ n, joinedIds (timeline seen s ops) = List.range' s.nextId n := by
  induction ops generalizing s with
  | nil => exact ⟨(List.append_nil _).symm, 0, rfl⟩
  | cons op ops ih =>
      rw [run, List.foldl_cons, ← run, timeline]
      cases ha : s.alive with
      | false =>
          obtain ⟨hend, hheard⟩ := step_ended ha seen op
          obtain ⟨hrun, _⟩ := ih (s.step seen op).2 (fun h => nomatch hend.symm.trans h)
          rw [timeline_ended hend] at hrun ⊢
          exact ⟨hrun.trans (congrArg (· ++ _) hheard), 0, rfl⟩
      | true =>
          have hstep := advances_step ha (hw ha) seen op
          obtain ⟨hrun, n', hn'⟩ := ih (s.step seen op).2 (fun h => (hstep.goesOn h).1)
          obtain ⟨n, hnext, hn⟩ := hstep.joined
          rw [if_pos rfl]
          refine ⟨?_, n + n', ?_⟩
          · rw [hrun, hstep.heard, scheduled_append, List.append_assoc]
            cases ha' : (s.step seen op).2.alive with
            | false =>
                rw [timeline_ended ha']
                rfl
            | true => rw [(hstep.goesOn ha').2]
          · rw [joinedIds_append, hn, hn', hnext, List.range'_append_1]

end VersionedMap.Signal
