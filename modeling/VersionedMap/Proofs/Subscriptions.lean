import VersionedMap.Proofs.Registry

namespace VersionedMap.Signal

open Registry

variable {ν α ρ : Type}

/-- The subscriptions that have not been dropped: those held, and those that handlers own. -/
def existing (s : Signal ν α ρ) : List Nat :=
  s.held.map (·.2) ++ s.members.flatMap (·.owned)

/-- The registry of a signal while some subscriptions are on their way from holders to a handler. -/
def registry (moving : List Nat) (s : Signal ν α ρ) : Registry :=
  ⟨s.members.map (·.id), moving ++ s.existing, s.retired⟩

/-- What happens to a registry when no handler is connected. -/
def Sheds (moving : List Nat) (s : Signal ν α ρ) (moving' : List Nat) (s' : Signal ν α ρ) : Prop :=
  ∃ dropped gone, (s.registry moving).Sheds (s'.registry moving') dropped gone

section Moves

variable {s s' s'' : Signal ν α ρ} {moving moving' moving'' : List Nat}

theorem Sheds.trans (h : Sheds moving s moving' s') (h' : Sheds moving' s' moving'' s'') :
    Sheds moving s moving'' s'' := by
  obtain ⟨_, _, h⟩ := h
  obtain ⟨_, _, h'⟩ := h'
  exact ⟨_, _, h.trans h'⟩

theorem sheds_of_eq (h : s'.registry moving' = s.registry moving) : Sheds moving s moving' s' := by
  refine ⟨[], [], sheds_of_perm ?_ ?_ ?_⟩
  · rw [h]
  · rw [h]
  · rw [h]

end Moves

theorem ids_eraseP (ms : List (Member ν)) (id : Nat) :
    (ms.eraseP (·.id == id)).map (·.id) = (ms.map (·.id)).erase id := by
  rw [List.erase_eq_eraseP', List.eraseP_map]
  rfl

theorem owned_eraseP {ms : List (Member ν)} {id : Nat} {m : Member ν}
    (h : ms.find? (·.id == id) = some m) :
    (ms.flatMap (·.owned)).Perm (m.owned ++ (ms.eraseP (·.id == id)).flatMap (·.owned)) := by
  induction ms with
  | nil => cases h
  | cons n ms ih =>
      rw [List.find?_cons] at h
      rw [List.eraseP_cons]
      cases hn : n.id == id with
      | true =>
          simp only [hn] at h
          cases h
          exact .refl _
      | false =>
          simp only [hn] at h
          rw [cond_false, List.flatMap_cons, List.flatMap_cons]
          exact ((ih h).append_left n.owned).trans (List.perm_append_comm_assoc _ _ _)

theorem sheds_remove {s : Signal ν α ρ} {id : Nat} {rest : List Nat} (hs : s.retired = id :: rest)
    (moving : List Nat) : Sheds moving s moving ({ s with retired := rest }.remove id) := by
  have hdiff : (s.registry moving).ids.diff [id] = (s.members.map (·.id)).erase id := by
    rw [List.diff_cons, List.diff_nil]
    rfl
  rw [remove]
  split
  case h_1 hnone =>
      refine ⟨[], [id], .refl _, .of_eq ((List.append_nil _).trans hs), ?_⟩
      rw [hdiff, List.erase_of_not_mem]
      · rfl
      · intro hmem
        obtain ⟨m, hm, hi⟩ := List.mem_map.1 hmem
        exact List.find?_eq_none.1 hnone m hm (beq_iff_eq.2 hi)
  case h_2 m hm =>
      -- what the removed handler owned is dropped with it, and retired behind the rest
      refine ⟨m.owned, [id], ?_, .of_eq (congrArg (· ++ m.owned) hs), ?_⟩
      · have hlive := (owned_eraseP hm).append_left (moving ++ s.held.map (·.2))
        refine (List.Perm.of_eq (List.append_assoc _ _ _).symm).trans (hlive.trans ?_)
        apply (List.perm_append_comm_assoc _ _ _).trans
        exact .of_eq (congrArg _ (List.append_assoc _ _ _))
      · rw [hdiff, ← ids_eraseP]
        rfl

theorem sheds_settle (moving : List Nat) (s : Signal ν α ρ) : Sheds moving s moving s.settle := by
  fun_induction settle s with
  | case1 s _ => exact sheds_of_eq rfl
  | case2 s id rest hs ih => exact (sheds_remove hs moving).trans ih

theorem drop_eq_settle {s : Signal ν α ρ} (ha : s.alive = true) (id : Nat) :
    s.drop id = { s with retired := id :: s.retired }.settle := by
  rw [drop, if_pos ha]
  conv => rhs; unfold settle

def entrusted (owner id : Nat) (m : Member ν) : Member ν :=
  if m.id == owner then { m with owned := m.owned ++ [id] } else m

theorem id_entrusted (owner id : Nat) (m : Member ν) : (entrusted owner id m).id = m.id := by
  rw [entrusted]
  split <;> rfl

theorem owned_entrusted {ms : List (Member ν)} (hd : (ms.map (·.id)).Nodup) {owner : Nat}
    (ho : ms.any (·.id == owner) = true) (id : Nat) :
    ((ms.map (entrusted owner id)).flatMap (·.owned)).Perm (id :: ms.flatMap (·.owned)) := by
  induction ms with
  | nil => cases ho
  | cons m ms ih =>
      obtain ⟨hm, hd⟩ := List.nodup_cons.1 hd
      rw [List.map_cons, List.flatMap_cons, List.flatMap_cons]
      by_cases hi : (m.id == owner) = true
      · have hrest : ms.map (entrusted owner id) = ms := by
          refine (List.map_congr_left ?_).trans (List.map_id ms)
          intro n hn
          refine if_neg (fun h => hm ?_)
          exact List.mem_map.2 ⟨n, hn, (beq_iff_eq.1 h).trans (beq_iff_eq.1 hi).symm⟩
        rw [hrest, entrusted, if_pos hi]
        exact (List.perm_append_comm.append_right _).trans (.of_eq (List.append_assoc [id] _ _))
      · rw [List.any_cons, Bool.eq_false_iff.2 hi, Bool.false_or] at ho
        rw [entrusted, if_neg hi]
        exact ((ih hd ho).append_left m.owned).trans List.perm_middle

variable [DecidableEq ν]

theorem held_eraseP {held : List (ν × Nat)} {name : ν} {id : Nat} (h : held.lookup name = some id) :
    (held.map (·.2)).Perm (id :: (held.eraseP (·.1 == name)).map (·.2)) := by
  induction held with
  | nil => cases h
  | cons entry held ih =>
      rw [List.lookup_cons, Bool.beq_comm] at h
      rw [List.eraseP_cons]
      cases hn : entry.1 == name with
      | true =>
          simp only [hn] at h
          cases h
          exact .refl _
      | false =>
          simp only [hn] at h
          exact ((ih h).cons entry.2).trans (.swap _ _ _)

theorem lookup_eraseP_of_ne {β : Type} {name other : ν} (hne : other ≠ name) (entries : List (ν × β)) :
    (entries.eraseP (·.1 == other)).lookup name = entries.lookup name := by
  induction entries with
  | nil => rfl
  | cons e entries ih =>
      rw [List.eraseP_cons, List.lookup_cons]
      by_cases hother : e.1 = other
      · have hname : (name == e.1) = false := beq_eq_false_iff_ne.2 fun heq => hne (hother.symm.trans heq.symm)
        rw [beq_iff_eq.2 hother, cond_true, hname]
      · rw [beq_eq_false_iff_ne.2 hother, cond_false, List.lookup_cons, ih]

theorem existing_release {s : Signal ν α ρ} {name : ν} {id : Nat} (h : s.held? name = some id) :
    s.existing.Perm (id :: (s.release name).existing) :=
  (held_eraseP h).append_right _

theorem release_of_none {s : Signal ν α ρ} {name : ν} (h : s.held? name = none) : s.release name = s := by
  have hheld : s.held.eraseP (·.1 == name) = s.held := by
    apply List.eraseP_of_forall_not
    intro entry he hn
    exact (bne_iff_ne.1 (List.lookup_eq_none_iff.1 h entry he)) (beq_iff_eq.1 hn).symm
  rw [release, hheld]

theorem sheds_release {s : Signal ν α ρ} {name : ν} {id : Nat} (h : s.held? name = some id)
    (moving retired : List Nat) (hr : (s.retired ++ [id]).Perm retired) :
    Sheds moving s moving { s.release name with retired } := by
  refine ⟨[id], [], ?_, hr, rfl⟩
  exact ((existing_release h).append_left moving).trans List.perm_middle

theorem sheds_retire (moving : List Nat) (s : Signal ν α ρ) (name : ν) :
    Sheds moving s moving (s.retire name) := by
  rw [retire]
  split
  case h_1 => exact sheds_of_eq rfl
  case h_2 id hid => exact sheds_release hid moving _ (.refl _)

theorem sheds_retireAll (moving : List Nat) (s : Signal ν α ρ) (names : List ν) :
    Sheds moving s moving (names.foldl retire s) := by
  induction names generalizing s with
  | nil => exact sheds_of_eq rfl
  | cons name names ih => exact (sheds_retire moving s name).trans (ih (s.retire name))

theorem sheds_drop {s : Signal ν α ρ} (ha : s.alive = true) {name : ν} {id : Nat}
    (h : s.held? name = some id) (moving : List Nat) :
    Sheds moving s moving ((s.release name).drop id) := by
  rw [drop_eq_settle (s := s.release name) ha]
  exact (sheds_release h moving _ (List.perm_append_singleton id _)).trans (sheds_settle moving _)

theorem sheds_disconnect {s : Signal ν α ρ} (ha : s.alive = true) (moving : List Nat) (name : ν) :
    Sheds moving s moving (s.disconnect name) := by
  rw [disconnect]
  split
  case h_1 => exact sheds_of_eq rfl
  case h_2 id hid => exact sheds_drop ha hid moving

theorem sheds_deliver (moving : List Nat) (s : Signal ν α ρ) (m : Member ν) (changes : Changes α)
    (seen : ρ) : Sheds moving s moving (s.deliver m changes seen) := by
  have h := sheds_retireAll moving (s.record (.received m.name m.id m.calls changes seen))
    (m.react m.calls).drops
  rw [deliver]
  cases (m.react m.calls).outcome with
  | returned => exact h
  | failed reason => exact h
  | panicked payload => exact h

theorem sheds_deliverAll (moving : List Nat) (s : Signal ν α ρ) (ms : List (Member ν)) (changes : Changes α)
    (seen : ρ) : Sheds moving s moving (ms.foldl (fun s m => s.deliver m changes seen) s) := by
  induction ms generalizing s with
  | nil => exact sheds_of_eq rfl
  | cons m ms ih => exact (sheds_deliver moving s m changes seen).trans (ih _)

theorem sheds_broadcast (moving : List Nat) (s : Signal ν α ρ) (changes : Changes α) (seen : ρ) :
    Sheds moving s moving (s.broadcast changes seen) := by
  refine (sheds_deliverAll moving s s.members changes seen).trans (sheds_of_eq ?_)
  obtain ⟨_, _, _, h⟩ := s.deliverAll_shape s.members changes seen
  rw [broadcast, h]
  simp only [registry, existing, List.map_map, List.flatMap_map]
  rfl

theorem sheds_announce (moving : List Nat) (s : Signal ν α ρ) (changes : Changes α) (seen : ρ) :
    Sheds moving s moving (s.announce changes seen) := by
  rw [announce]
  split
  · exact sheds_of_eq rfl
  · exact (sheds_broadcast moving (s.record (.delivering s.members.length changes.length)) changes seen).trans
      (sheds_settle moving _)

theorem sheds_gather (moving : List Nat) (s : Signal ν α ρ) (names : List ν) :
    Sheds moving s ((s.gather names).1 ++ moving) (s.gather names).2 := by
  induction names generalizing s moving with
  | nil => exact sheds_of_eq rfl
  | cons name names ih =>
      have hheld : Sheds moving s ((s.held? name).toList ++ moving) (s.release name) := by
        cases hn : s.held? name with
        | none =>
            rw [release_of_none hn]
            exact sheds_of_eq rfl
        | some id =>
            refine ⟨[], [], sheds_of_perm rfl ?_ rfl⟩
            exact ((existing_release hn).append_left moving).trans List.perm_middle
      refine hheld.trans ((ih _ _).trans ⟨[], [], sheds_of_perm rfl ?_ rfl⟩)
      rw [gather]
      apply List.Perm.append_right _
      rw [List.append_assoc]
      exact List.perm_append_comm_assoc _ _ _

theorem sheds_entrust {s : Signal ν α ρ} (hd : (s.members.map (·.id)).Nodup) (moving : List Nat) (name : ν)
    (owner : Nat) : Sheds moving s moving (s.entrust name owner) := by
  rw [entrust]
  split
  case h_1 => exact sheds_of_eq rfl
  case h_2 id hid =>
      split
      case isFalse => exact sheds_of_eq rfl
      case isTrue ho =>
          refine ⟨[], [], sheds_of_perm ?_ ?_ rfl⟩
          · refine List.map_map.trans (List.map_congr_left ?_)
            intro m _
            exact id_entrusted owner id m
          · refine ((existing_release hid).trans (List.perm_middle.symm.trans ?_)).append_left moving
            exact (owned_entrusted hd ho id).symm.append_left _

theorem sheds_hold {s : Signal ν α ρ} (ha : s.alive = true) (moving : List Nat) (name : ν) (id : Nat) :
    Sheds (id :: moving) s moving (s.hold name id) := by
  rw [hold]
  split
  case h_1 hn =>
      refine ⟨[], [], sheds_of_perm rfl ?_ rfl⟩
      rw [release_of_none hn]
      exact List.perm_middle.symm
  case h_2 old hold =>
      rw [drop_eq_settle (by exact ha)]
      have hrelease : Sheds (id :: moving) s moving { s.release name with
          held := (name, id) :: (s.release name).held, retired := old :: s.retired } := by
        refine ⟨[old], [], ?_, List.perm_append_comm, rfl⟩
        apply ((existing_release hold).append_left (id :: moving)).trans
        exact List.perm_middle.trans (List.perm_middle.symm.cons old)
      exact hrelease.trans (sheds_settle moving _)

theorem held_hold (s : Signal ν α ρ) (name : ν) (id : Nat) :
    (s.hold name id).held = (name, id) :: (s.release name).held := by
  rw [hold]
  split
  case h_1 => rfl
  case h_2 old _ =>
      rw [drop]
      split
      · rw [held_settle]
        obtain ⟨_, _, _, h⟩ := remove_shape { s.release name with
          held := (name, id) :: (s.release name).held } old
        rw [h]
      · rfl

omit [DecidableEq ν] in
theorem sheds_enroll (s : Signal ν α ρ) (m : Member ν) (moving : List Nat) :
    ((s.registry (m.owned ++ moving)).join m.id).Sheds ((s.enroll m).registry (m.id :: moving)) [] [] := by
  refine sheds_of_perm ?_ (.cons m.id ?_) rfl
  · exact List.map_append
  · change ((m.owned ++ moving) ++ s.existing).Perm (moving ++ (s.enroll m).existing)
    have howned : (s.enroll m).existing = s.existing ++ m.owned := by
      rw [existing, enroll, List.flatMap_append, List.flatMap_singleton, ← List.append_assoc]
      rfl
    rw [howned, List.append_assoc]
    apply List.perm_append_comm.trans
    rw [List.append_assoc]

theorem sheds_offered (s : Signal ν α ρ) (name : ν) (handler : Handler ν) (drops : List ν)
    (changes : Changes α) (seen : ρ) :
    Sheds [] s ((s.newcomer name handler).owned ++ []) (s.offered name handler drops changes seen) := by
  have hprepared := sheds_retireAll ((s.newcomer name handler).owned ++ [])
    { (s.gather handler.owns).2.settle with nextId := s.nextId + 1 } drops
  exact ((sheds_gather [] s handler.owns).trans (sheds_settle _ _)).trans
    (hprepared.trans (sheds_deliver _ _ _ changes seen))

/-- Between the subscriptions dropped before a handler is connected and those dropped after that. -/
theorem connect_joins {s : Signal ν α ρ} (ha : s.alive = true) (name : ν) (handler : Handler ν)
    (drops : List ν) (changes : Changes α) (seen : ρ) :
    ∃ r dropped gone dropped' gone', (s.registry []).Sheds r dropped gone ∧
      (r.join s.nextId).Sheds ((s.connect name handler drops changes seen).2.registry []) dropped' gone' := by
  obtain ⟨dropped, gone, hbefore⟩ := s.sheds_offered name handler drops changes seen
  have hoffered : (s.offered name handler drops changes seen).alive = true := by
    obtain ⟨_, _, _, _, h⟩ := s.offered_shape name handler drops changes seen
    rw [h]
    exact ha
  rw [connect_eq]
  generalize s.offered name handler drops changes seen = t at *
  let joined := (t.enroll { s.newcomer name handler with calls := 1 }).record (.connected s.nextId)
  have hhold : Sheds [s.nextId] joined.settle [] (joined.settle.hold name s.nextId) :=
    sheds_hold ((alive_settle joined).trans hoffered) [] name s.nextId
  obtain ⟨dropped', gone', hafter⟩ := (sheds_settle [s.nextId] joined).trans hhold
  have hjoin := sheds_enroll t { s.newcomer name handler with calls := 1 } []
  exact ⟨_, _, _, _, _, hbefore, hjoin.trans hafter⟩

end VersionedMap.Signal
