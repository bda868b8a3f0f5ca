import VersionedMap.Proofs.Sessions

namespace VersionedMap

theorem Registry.mem_filter_lost {r r' : Registry} {ids : List Nat} {id : Nat} (hid : id ∈ ids)
    (hkept : id ∈ r.live → id ∈ r'.live) : id ∈ ids.filter (· ∉ r.lost r') := by
  refine List.mem_filter.mpr ⟨hid, decide_eq_true fun hlost => ?_⟩
  obtain ⟨hlive, hgone⟩ := mem_lost.mp hlost
  exact hgone (hkept hlive)

namespace Signal

variable {ν α ρ : Type} {s s' : Signal ν α ρ} {id : Nat}

theorem WellFormed.stays (hw : s.WellFormed) (h : Sheds [] s [] s') (hid : id ∈ s.listening)
    (hkept : id ∈ s.existing → id ∈ s'.existing) : id ∈ s'.listening := by
  obtain ⟨_, _, h⟩ := h
  rw [listening, h.listening hw]
  exact Registry.mem_filter_lost hid hkept

end Signal

namespace Store

variable {ν K V : Type} [Ord K] [DecidableEq ν] {s : Store ν K V}

/-- A new subscriber comes last; the others stay unless their subscriptions are dropped. -/
theorem Sound.listening_subscribe (h : s.Sound) (name : ν) (handler : Handler ν) :
    (s.subscribe name handler).2.changed.listening = s.changed.listening.filter
      (· ∉ (s.changed.registry []).lost ((s.subscribe name handler).2.changed.registry [])) ++
        [(s.subscribe name handler).1] := by
  let populate := Changes.populate s.snapshot.toList
  have hid : (s.subscribe name handler).1 = s.changed.nextId :=
    congrArg Prod.fst (s.changed.connect_eq name handler [] populate s.snapshot)
  have halive := (s.changed.alive_connect name handler [] populate s.snapshot).trans h.rests.alive
  have hjoined := Signal.advances_connect h.rests.alive h.rests.wellFormed name handler [] populate s.snapshot
  refine (hjoined.goesOn halive).2.trans ?_
  rw [List.foldl_append, Signal.lost, Moment.audience_left, hid]
  rfl

end Store

namespace Session

variable {τ ν K V : Type} [Ord K] [DecidableEq τ]

theorem store_edit (s : Session τ ν K V) (name : τ)
    (change : Transaction K V → Except Fault (Reply K V × Transaction K V)) :
    (s.edit name change).2.store = s.store := by
  rw [edit]
  split
  · rfl
  · split
    · rfl
    · rfl

variable [Std.TransOrd K] [BEq V] [DecidableEq ν]

/-- Whether an operation drops the subscription `id`. One that is detached is not dropped: nobody can drop
it any more. -/
def drops (id : Nat) (s : Session τ ν K V) : Op τ ν K V → Bool
  | .detach _ => false
  | op => decide (id ∈ s.store.changed.existing ∧ id ∉ (s.step op).2.store.changed.existing)

def keeps (id : Nat) : Session τ ν K V → List (Op τ ν K V) → Bool
  | _, [] => true
  | s, op :: ops => !s.drops id op && keeps id (s.step op).2 ops

variable {s : Session τ ν K V} {id : Nat}

theorem existing_of_kept {op : Op τ ν K V} (hop : ∀ name, op ≠ .detach name) (hkept : s.drops id op = false)
    (hid : id ∈ s.store.changed.existing) : id ∈ (s.step op).2.store.changed.existing := by
  cases op with
  | detach name => exact absurd rfl (hop name)
  | _ => exact not_not.mp fun hgone => of_decide_eq_false hkept ⟨hid, hgone⟩

omit [Std.TransOrd K] [BEq V] [DecidableEq τ] [DecidableEq ν] in
theorem stays_discard (hid : id ∈ s.store.changed.listening) (t? : Option (Transaction K V)) :
    id ∈ (s.discard t?).store.changed.listening := by
  rcases s.discard_cases t? with hd | ⟨_, _, hd⟩ <;> rw [hd] <;> exact hid

theorem stays_commit (hs : s.Sound) (hid : id ∈ s.store.changed.listening) {name : τ}
    (hkept : s.drops id (.commit name) = false) : id ∈ (s.commit name).2.store.changed.listening := by
  have hexisting : id ∈ s.store.changed.existing → id ∈ (s.commit name).2.store.changed.existing :=
    existing_of_kept nofun hkept
  have hcases := s.commit_cases name
  generalize s.commit name = result at hcases hexisting ⊢
  cases hcases with
  | unknown | refused | unchanged => exact hid
  | changed t ht hstatus hc =>
      obtain ⟨hsheds, _⟩ := hs.store.sheds_publish t.base.version t.toList t.diff.toList
      exact hs.store.rests.wellFormed.stays hsheds hid hexisting

theorem stays_subscribe (hs : s.Sound) (hid : id ∈ s.store.changed.listening) {name : ν} {handler : Handler ν}
    (hkept : s.drops id (.subscribe name handler) = false) :
    id ∈ (s.store.subscribe name handler).2.changed.listening := by
  have hexisting : id ∈ s.store.changed.existing → id ∈ (s.store.subscribe name handler).2.changed.existing :=
    existing_of_kept nofun hkept
  rw [hs.store.listening_subscribe]
  exact List.mem_append_left _ (Registry.mem_filter_lost hid hexisting)

theorem stays_step (hs : s.Sound) (hid : id ∈ s.store.changed.listening) {op : Op τ ν K V}
    (hkept : s.drops id op = false) : id ∈ (s.step op).2.store.changed.listening := by
  have hw := hs.store.rests.wellFormed
  cases op with
  | start name => exact stays_discard (s := { s with store := s.store.record _ }.hold name _) hid _
  | set | remove | tryRemove | revert =>
      simp only [step, store_edit]
      exact hid
  | commit name => exact stays_commit hs hid hkept
  | drop name => exact stays_discard (s := { s with transactions := s.transactions.eraseP (·.1 == name) }) hid _
  | subscribe name handler => exact stays_subscribe hs hid hkept
  | disconnect name =>
      exact hw.stays (Signal.sheds_disconnect hs.store.rests.alive [] name) hid (existing_of_kept nofun hkept)
  | detach name => exact hid
  | count => exact hw.stays (Signal.sheds_settle [] s.store.changed) hid (existing_of_kept nofun hkept)

theorem stays_run (hs : s.Sound) (hid : id ∈ s.store.changed.listening) {ops : List (Op τ ν K V)}
    (hkept : s.keeps id ops = true) : id ∈ (s.run ops).store.changed.listening := by
  induction ops generalizing s with
  | nil => exact hid
  | cons op ops ih =>
      rw [keeps, Bool.and_eq_true, Bool.not_eq_true'] at hkept
      exact ih (sound_step hs op) (stays_step hs hid hkept.1) hkept.2

/-- A subscriber is connected until its subscription is dropped. -/
theorem Reachable.subscriber_stays (hs : s.Reachable) {name : ν} {handler : Handler ν} {s' : Session τ ν K V}
    (h : s.step (.subscribe name handler) = (.subscribed id, s')) {ops : List (Op τ ν K V)}
    (hkept : s'.keeps id ops = true) : id ∈ (s'.run ops).store.changed.members.map (·.id) := by
  obtain ⟨hid, rfl⟩ := Prod.mk.inj h
  cases hid
  have hsubscribed := hs.step (.subscribe name handler)
  have hjoined : (s.store.subscribe name handler).1 ∈ (s.store.subscribe name handler).2.changed.listening :=
    hs.sound.store.listening_subscribe name handler ▸ List.mem_append_right _ (List.mem_singleton_self _)
  have hstays := stays_run hsubscribed.sound hjoined hkept
  rwa [Signal.listening_of_settled (hsubscribed.run ops).sound.store.rests.settled] at hstays

end Session

end VersionedMap
