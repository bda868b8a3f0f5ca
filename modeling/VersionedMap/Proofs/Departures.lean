import VersionedMap.Proofs.Sweeps

namespace VersionedMap.Signal

variable {ν α ρ : Type} {s s' : Signal ν α ρ} {id : Nat}

theorem WellFormed.nodup_existing (hw : s.WellFormed) : s.existing.Nodup :=
  (List.nodup_append.1 hw.once).1

theorem Sheds.live_subset {moving moving' : List Nat} (h : Sheds moving s moving' s') :
    moving' ++ s'.existing ⊆ moving ++ s.existing := by
  obtain ⟨_, _, h⟩ := h
  intro id hid
  exact h.live.mem_iff.2 (List.mem_append_right _ hid)

theorem left_mem_lost (hs : id ∈ s.existing) (hs' : id ∉ s'.existing) : (.left id : Moment α) ∈ s.lost s' := by
  refine List.mem_map.2 ⟨id, List.mem_filter.2 ⟨hs, ?_⟩, rfl⟩
  rwa [decide_eq_true_iff]

theorem left_notMem_lost (hs' : id ∈ s'.existing) : (.left id : Moment α) ∉ s.lost s' := by
  intro hleft
  obtain ⟨_, hmem, heq⟩ := List.mem_map.1 hleft
  cases heq
  exact of_decide_eq_true (List.mem_filter.1 hmem).2 hs'

variable [DecidableEq ν] {name : ν} {names : List ν}

theorem mem_existing_of_held (h : s.held? name = some id) : id ∈ s.existing :=
  (existing_release h).mem_iff.2 List.mem_cons_self

theorem mem_gather (h : s.held? name = some id) (hname : name ∈ names) : id ∈ (s.gather names).1 := by
  induction names generalizing s with
  | nil => cases hname
  | cons other names ih =>
      rw [gather]
      by_cases hother : other = name
      · rw [hother, h]
        exact List.mem_cons_self
      · have hrest : name ∈ names := (List.mem_cons.1 hname).resolve_left (Ne.symm hother)
        exact List.mem_append_right _ (ih ((lookup_eraseP_of_ne hother s.held).trans h) hrest)

theorem nodup_gather (hs : s.existing.Nodup) (names : List ν) :
    ((s.gather names).1 ++ (s.gather names).2.existing).Nodup := by
  obtain ⟨_, _, hgather⟩ := sheds_gather [] s names
  have hlive := (List.nodup_append.1 (hgather.live.nodup hs)).2.1
  rwa [registry, List.append_nil] at hlive

theorem Retires.notMem_existing (hs : s.existing.Nodup) (h : Retires names s s') (hid : id ∈ (s.gather names).1) :
    id ∉ s'.existing := by
  obtain ⟨_, hshape⟩ := s.gather_shape names
  have howned : s'.members.flatMap (·.owned) = (s.gather names).2.members.flatMap (·.owned) := by
    have hroster := congrArg (List.flatMap (·.2)) h.roster
    rw [hshape]
    simpa [Signal.roster, List.flatMap_map] using hroster
  have hexisting : s'.existing = (s.gather names).2.existing := by
    rw [existing, existing, h.held, howned]
  rw [hexisting]
  exact fun hmem => (List.nodup_append.1 (nodup_gather hs names)).2.2 id hid id hmem rfl

theorem left_of_disconnect (ha : s.alive = true) (hw : s.WellFormed) (seen : ρ) (h : s.held? name = some id) :
    .left id ∈ s.moments seen (.disconnect name : Op ν α) := by
  have hmoments : s.moments seen (.disconnect name) = s.lost (s.disconnect name) := by
    unfold moments
    rw [step_of_alive ha]
    rfl
  have hdrop : s.disconnect name = { s.release name with retired := id :: s.retired }.settle := by
    rw [disconnect, h]
    exact drop_eq_settle (s := s.release name) ha id
  have hreleased : id ∉ (s.release name).existing :=
    (List.nodup_cons.1 ((existing_release h).nodup hw.nodup_existing)).1
  rw [hmoments, hdrop]
  refine left_mem_lost (mem_existing_of_held h) fun hmem => hreleased ?_
  exact (sheds_settle [] { s.release name with retired := id :: s.retired }).live_subset hmem

/-- A subscription that is dropped while changes are made or delivered leaves after the emission began. -/
theorem left_of_emit (ha : s.alive = true) (hw : s.WellFormed) (seen : ρ) {drops : List ν} {changes : Changes α}
    (h : s.held? name = some id) (hname : name ∈ drops ++ s.settle.called changes) :
    ∃ before after, s.moments seen (.emit drops changes) = before ++ .emitted changes :: after ∧
      .left id ∉ before ∧ .left id ∈ after := by
  have hmoments : s.moments seen (.emit drops changes) =
      s.lost s.settle ++ .emitted changes :: s.settle.lost (s.emit drops changes seen) := by
    unfold moments
    rw [step_of_alive ha]
    rfl
  have hheld : s.settle.held? name = some id := by rw [held?, held_settle, ← held?, h]
  have hw' : s.settle.WellFormed := hw.of_sheds (sheds_settle [] s) s.nextId_settle
  obtain ⟨t, ht, hemit⟩ := s.emit_retires drops changes seen
  have hretired : id ∉ t.existing := ht.notMem_existing hw'.nodup_existing (mem_gather hheld hname)
  have hgone : id ∉ (s.emit drops changes seen).existing := by
    rcases hemit with hemit | hemit
    · rwa [hemit]
    · rw [hemit]
      exact fun hmem => hretired ((sheds_settle [] t).live_subset hmem)
  exact ⟨_, _, hmoments, left_notMem_lost (mem_existing_of_held hheld),
    left_mem_lost (mem_existing_of_held hheld) hgone⟩

theorem existing_connect (ha : s.alive = true) (name : ν) (handler : Handler ν) (drops : List ν)
    (changes : Changes α) (seen : ρ) : (s.connect name handler drops changes seen).2.existing ⊆
      s.nextId :: ((s.offered name handler drops changes seen).existing ++ (s.gather handler.owns).1) := by
  let joined := s.joined name handler drops changes seen
  have halive : joined.settle.alive = true := (alive_settle _).trans ((s.alive_joined ..).trans ha)
  have howned : joined.existing =
      (s.offered name handler drops changes seen).existing ++ (s.gather handler.owns).1 := by
    simp [joined, Signal.joined, existing, record, enroll, newcomer]
  rw [connect_eq, ← howned]
  exact ((sheds_settle [s.nextId] joined).trans (sheds_hold halive [] name s.nextId)).live_subset

theorem notMem_offered (hs : s.existing.Nodup) (holder : ν) (handler : Handler ν) {drops : List ν}
    (changes : Changes α) (seen : ρ) (h : (s.gather handler.owns).2.held? name = some id)
    (hname : name ∈ drops ++ (handler.react 0).drops) :
    id ∉ (s.offered holder handler drops changes seen).existing := by
  let prepared := { (s.gather handler.owns).2.settle with nextId := s.nextId + 1 }
  have hprepared : prepared.existing.Nodup := by
    obtain ⟨_, _, hsettle⟩ := sheds_settle [] (s.gather handler.owns).2
    exact (List.nodup_append.1 (hsettle.live.nodup (List.nodup_append.1 (nodup_gather hs _)).2.1)).2.1
  have hheld : prepared.held? name = some id := by
    rw [held?, held_settle]
    exact h
  exact (s.retires_offered holder handler drops changes seen).notMem_existing hprepared (mem_gather hheld hname)

/-- A subscription that is dropped while a new handler is prepared or receives its first change set leaves too, unless
the handler took it over before. -/
theorem left_of_connect (ha : s.alive = true) (hw : s.WellFormed) (seen : ρ) {handler : Handler ν} {drops : List ν}
    (populate : Changes α) (h : (s.gather handler.owns).2.held? name = some id)
    (hname : name ∈ drops ++ (handler.react 0).drops) (holder : ν) :
    .left id ∈ s.moments seen (.connect holder handler drops populate) := by
  have hmoments : s.moments seen (.connect holder handler drops populate) =
      s.lost (s.connect holder handler drops populate seen).2 ++ [.joined s.nextId populate] := by
    unfold moments
    rw [step_of_alive ha]
    rfl
  have hid : id ∈ (s.gather handler.owns).2.existing := mem_existing_of_held h
  have hexists : id ∈ s.existing := (sheds_gather [] s handler.owns).live_subset (List.mem_append_right _ hid)
  rw [hmoments]
  refine List.mem_append_left _ (left_mem_lost hexists fun hmem => ?_)
  rcases List.mem_cons.1 (existing_connect ha holder handler drops populate seen hmem) with hnext | hmem
  · exact Nat.ne_of_lt (hw.below id (hw.connected id (List.mem_append_left _ hexists))) hnext
  · rcases List.mem_append.1 hmem with hmem | hmem
    · exact notMem_offered hw.nodup_existing holder handler populate seen h hname hmem
    · exact (List.nodup_append.1 (nodup_gather hw.nodup_existing handler.owns)).2.2 id hmem id hid rfl

end VersionedMap.Signal
