import VersionedMap.Proofs.Sessions

namespace VersionedMap

namespace Event

variable {ν α ρ : Type}

def stale? : Event ν α ρ → Option (Nat × Nat)
  | stale base current => some (base, current)
  | _ => none

theorem overlooks_stale? : Overlooks (stale? : Event ν α ρ → Option (Nat × Nat)) where
  connected _ := rfl
  disconnected _ := rfl
  delivering _ _ := rfl
  failed _ _ := rfl
  panicked _ _ := rfl

end Event

namespace Store

open Event

variable {ν K V β : Type} [DecidableEq ν] {s : Store ν K V}

theorem reads_publish (hs : s.changed.retired = []) {f : Event ν (K × V) (Snapshot K V) → Option β}
    (hf : Overlooks f) (baseVersion : Nat) (entries : List (K × V)) (changes : Changes (K × V)) :
    (s.publish baseVersion entries changes).changed.reads f =
      s.changed.reads f ++ (if s.version = baseVersion then [] else (f (.stale baseVersion s.version)).toList) ++
        (f (.committed (s.version + 1) changes.length)).toList ++ if changes.isEmpty then [] else
          s.changed.members.filterMap fun m => f (.received m.name m.id m.calls changes
            (s.publish baseVersion entries changes).snapshot) := by
  rw [publish, Signal.settle_of_retired_nil hs]
  split
  · rw [Signal.reads_announce hf, Signal.reads_record, List.append_nil]
    rfl
  · rw [Signal.reads_announce hf, Signal.reads_record, Signal.reads_record]
    rfl

theorem deliveries_publish (hs : s.changed.retired = []) (baseVersion : Nat) (entries : List (K × V))
    (changes : Changes (K × V)) :
    (s.publish baseVersion entries changes).changed.deliveries =
      s.changed.deliveries ++ if changes.isEmpty then [] else
        s.changed.members.map fun m => ⟨m.id, changes, (s.publish baseVersion entries changes).snapshot⟩ := by
  rw [Signal.deliveries, reads_publish hs overlooks_delivery?]
  simp only [delivery?, List.filterMap_eq_map', ite_self, Option.toList_none, List.append_nil]
  rfl

theorem stale_publish (hs : s.changed.retired = []) (baseVersion : Nat) (entries : List (K × V))
    (changes : Changes (K × V)) :
    (s.publish baseVersion entries changes).changed.reads stale? =
      s.changed.reads stale? ++ if s.version = baseVersion then [] else [(baseVersion, s.version)] := by
  rw [reads_publish hs overlooks_stale?]
  simp only [stale?, List.filterMap_eq_nil_iff.mpr fun _ _ => rfl, ite_self, Option.toList_none,
    Option.toList_some, List.append_nil]

variable [Ord K] [Std.TransOrd K]

/-- What a commit with changes makes of the store and of the transaction. -/
structure Installs (s : Store ν K V) (t : Transaction K V) (changes : Changes (K × V)) (s' : Store ν K V)
    (t' : Transaction K V) : Prop where
  reported : Walk.Yields OverlayDiff.next t.diff changes
  delivered : s'.changed.deliveries =
    s.changed.deliveries ++ s.changed.members.map fun m => ⟨m.id, changes, s'.snapshot⟩
  once : (s.changed.members.map (·.id)).Nodup
  entries : Walk.Yields MergedWalk.next t.ascending s'.snapshot.toList
  version : s'.version = s.version + 1
  warned : s'.changed.reads stale? =
    s.changed.reads stale? ++ if s.isStale t then [(t.base.version, s.version)] else []
  replays : ∃ base next : SortedMap K V, base.entries = t.base.toList ∧
    next.entries = s'.snapshot.toList ∧ base.replay changes = (next, none)
  agrees : ∀ q, s'.snapshot.get? q = t'.get? q

theorem Sound.installs (h : s.Sound) {t : Transaction K V} (ht : t.OpenedOn s.snapshot)
    (hc : t.hasChanges = true) :
    s.Installs t t.diff.toList (s.publish t.base.version t.toList t.diff.toList)
      { t with status := .committed } := by
  have hsome : t.diff.toList.isEmpty = false :=
    List.isEmpty_eq_false_iff.mpr (ht.grounded.diff_ne_nil ht.ascending (Bool.not_eq_true' _ ▸ hc))
  constructor
  case reported => exact OverlayDiff.shows_toList.yields t.diff
  case delivered =>
    rw [deliveries_publish h.rests.settled, hsome]
    rfl
  case once => exact h.rests.wellFormed.distinct
  case entries => exact MergedWalk.shows_toList.yields t.ascending
  case version => rfl
  case warned =>
    rw [stale_publish h.rests.settled, isStale]
    by_cases hv : s.version = t.base.version
    · rw [if_pos hv, hv, bne_self_eq_false, if_neg Bool.false_ne_true]
    · rw [if_neg hv, if_pos (bne_iff_ne.mpr hv)]
  case replays => exact ⟨_, _, rfl, rfl, t.overlay.replay_diff ht.ascending⟩
  case agrees =>
    intro q
    have hnext : Ascending t.toList := t.overlay.ascending_toList ht.ascending
    change _ = t.overlay.resolve t.base q
    rw [t.overlay.resolve_eq_shown ht.ascending, ← t.overlay.entryAt_toList ht.ascending]
    exact Snapshot.get?_eq_entryAt (s := ⟨t.toList.toArray, s.version + 1⟩) hnext q

end Store

namespace Session

variable {τ ν K V : Type} [Ord K] [Std.TransOrd K] [DecidableEq τ] [DecidableEq ν] [BEq V]

/-- A commit always succeeds on an open transaction, stale or not. Without changes it only closes the
transaction; otherwise it installs what the transaction shows and reports how that differs from its base. -/
theorem commit_installs {s : Session τ ν K V} (hs : s.Reachable) {name : τ} {t : Transaction K V}
    (ht : s.transaction? name = some t) (hopen : t.status = .active) :
    ∃ changes s', s.step (.commit name) = (.committed changes, s') ∧
      s'.transaction? name = some { t with status := .committed } ∧
      (t.overlay.isEmpty = true → changes = [] ∧ s'.store = s.store) ∧
      (t.overlay.isEmpty = false → s.store.Installs t changes s'.store { t with status := .committed }) := by
  have hsound := hs.sound
  have hopened := hsound.opened _ (mem_of_transaction? ht)
  have hchanges : t.hasChanges = !t.overlay.isEmpty := rfl
  cases hempty : t.overlay.isEmpty with
  | true =>
      rw [hempty] at hchanges
      refine ⟨_, _, commit_of_unchanged ht hopen hchanges, transaction?_hold _ _ _, ?_, ?_⟩
      · exact fun _ => ⟨rfl, rfl⟩
      · exact fun h => nomatch h
  | false =>
      rw [hempty] at hchanges
      refine ⟨_, _, commit_of_changed ht hopen hchanges, transaction?_hold _ _ _, ?_, ?_⟩
      · exact fun h => nomatch h
      · exact fun _ => hsound.store.installs hopened hchanges

def overtaken : Session Nat Nat Nat Nat :=
  (ofStore (Store.ofList [(1, 10)])).run
    [.subscribe 0 ⟨fun _ => ⟨[], .returned⟩, []⟩, .start 1, .start 2, .set 1 1 11, .set 2 3 30, .commit 1]

theorem commit_installs_overtaken :
    ∃ t, overtaken.Reachable ∧ overtaken.transaction? 2 = some t ∧ t.status = .active ∧
      overtaken.store.isStale t = true ∧ ∃ changes s', overtaken.step (.commit 2) = (.committed changes, s') ∧
        overtaken.store.Installs t changes s'.store { t with status := .committed } := by
  have hs : overtaken.Reachable := (Reachable.opened _).run _
  have hany : (overtaken.transaction? 2).any (fun t =>
      decide (t.status = .active) && !t.overlay.isEmpty && overtaken.store.isStale t) = true := by
    decide +kernel
  obtain ⟨t, ht, hopen⟩ := (Option.any_eq_true _ _).mp hany
  rw [Bool.and_eq_true, Bool.and_eq_true, decide_eq_true_iff, Bool.not_eq_true'] at hopen
  obtain ⟨⟨hactive, hsome⟩, hstale⟩ := hopen
  obtain ⟨changes, s', hstep, _, _, hinstalls⟩ := commit_installs hs ht hactive
  exact ⟨t, hs, ht, hactive, hstale, changes, s', hstep, hinstalls hsome⟩

end Session

end VersionedMap
