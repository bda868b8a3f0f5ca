import VersionedMap.Proofs.PendingCalls
import VersionedMap.Proofs.WalkBounds
import Mathlib.Data.List.Induction
import Mathlib.Data.List.Infix

namespace VersionedMap

variable {K V : Type} [Ord K]

namespace OverlayDiff

omit [Ord K] in
theorem removed_mem_report {key : K} {op : Pending V} {old? : Option (K × V)} {e : K × V} :
    .removed e ∈ report key op old? ↔ old? = some e := by
  cases op <;> cases old? <;> simp [report, eq_comm]

omit [Ord K] in
theorem added_mem_report {key : K} {op : Pending V} {old? : Option (K × V)} {e : K × V} :
    .added e ∈ report key op old? ↔ (key, op) = (e.1, .upserted e.2) := by
  cases op <;> cases old? <;> simp [report, Prod.ext_iff, eq_comm]

theorem added_mem_reports {entries : List (K × V)} {ops : List (K × Pending V)} {e : K × V} :
    .added e ∈ reports entries ops ↔ (e.1, .upserted e.2) ∈ ops := by
  simp [reports, added_mem_report]

variable [Std.TransOrd K]

theorem removed_mem_reports {entries : List (K × V)} (hentries : Ascending entries) {ops : List (K × Pending V)}
    (hops : Ascending ops) {e : K × V} :
    .removed e ∈ reports entries ops ↔ e ∈ entries ∧ (entryAt ops e.1).isSome = true := by
  simp only [reports, List.mem_flatMap, removed_mem_report]
  constructor
  · rintro ⟨x, hx, hold⟩
    obtain ⟨he, hsame⟩ := hentries.distinct.entryAt_eq_some_iff.mp hold
    rw [entryAt_congr ops hsame, hops.distinct.entryAt_of_mem hx]
    exact ⟨he, rfl⟩
  · rintro ⟨he, hpending⟩
    obtain ⟨x, hx⟩ := Option.isSome_iff_exists.mp hpending
    obtain ⟨hmem, hsame⟩ := hops.distinct.entryAt_eq_some_iff.mp hx
    refine ⟨x, hmem, ?_⟩
    rw [entryAt_congr entries hsame, hentries.distinct.entryAt_of_mem he]

end OverlayDiff

namespace Overlay

variable [Std.TransOrd K] {base : Snapshot K V} {o : Overlay K V}

theorem mem_toList_iff (hb : Ascending base.toList) {e : K × V} : e ∈ (o.ascending base).toList ↔
    (e.1, .upserted e.2) ∈ o.ops.entries ∨ e ∈ base.toList ∧ o.ops.lookup? e.1 = none := by
  rw [(o.ascending_toList hb).distinct.mem_iff, o.entryAt_toList hb, o.ops.ascending.distinct.mem_iff,
    hb.distinct.mem_iff]
  change _ ↔ o.ops.lookup? e.1 = _ ∨ _
  cases o.ops.lookup? e.1 with
  | none => simp [shown]
  | some x =>
      obtain ⟨key, op⟩ := x
      cases op <;> simp [shown, Prod.ext_iff]

end Overlay

namespace Transaction

variable [Std.TransOrd K] {t : Transaction K V}

theorem toList_scan (hb : Ascending t.base.toList) (scan : Scan K) :
    (t.scan scan).toList = scan.covered t.toList := by
  cases scan with
  | ascending => rfl
  | descending => exact t.overlay.toList_descending hb
  | atLeast key => exact t.overlay.toList_atLeast hb key
  | atMost key => exact t.overlay.toList_atMost hb key

structure ShowsSpellings (t : Transaction K V) : Prop where
  scans : ∀ scan, Walk.Yields MergedWalk.next (t.scan scan) (scan.covered t.toList)
  merged : ∀ e, e ∈ t.toList ↔
    (e.1, .upserted e.2) ∈ t.overlay.ops.entries ∨ e ∈ t.base.toList ∧ t.overlay.ops.lookup? e.1 = none
  diff : Walk.Yields OverlayDiff.next t.diff t.diff.toList
  removed : ∀ e, .removed e ∈ t.diff.toList ↔ e ∈ t.base.toList ∧ (t.overlay.ops.lookup? e.1).isSome = true
  added : ∀ e, .added e ∈ t.diff.toList ↔ (e.1, .upserted e.2) ∈ t.overlay.ops.entries

theorem showsSpellings (hb : Ascending t.base.toList) : t.ShowsSpellings := by
  have hdiff : t.diff.toList = OverlayDiff.reports t.base.toList t.overlay.ops.entries := t.overlay.toList_diff hb
  constructor
  case scans =>
    intro scan
    rw [← toList_scan hb]
    exact MergedWalk.shows_toList.yields _
  case merged => exact fun e => Overlay.mem_toList_iff hb
  case diff => exact OverlayDiff.shows_toList.yields _
  case removed =>
    intro e
    rw [hdiff]
    exact OverlayDiff.removed_mem_reports hb t.overlay.ops.ascending
  case added =>
    intro e
    rw [hdiff]
    exact OverlayDiff.added_mem_reports

/-- How a call spells the key of what it leaves pending, where nothing was pending before. -/
def Call.spelling? (base : Snapshot K V) : Call K V → Option K
  | .set key _ => some key
  | .remove key | .tryRemove key => (base.lookup? key).map (·.1)
  | .revert => none

end Transaction

namespace Overlay

open Transaction

variable [Std.TransOrd K] [BEq V] {base : Snapshot K V}

/-- What a call leaves pending for its own key: nothing, the same as before, or something else under the spelling
there was. Where there was none the call has its own. -/
theorem lookup?_perform (hb : Ascending base.toList) (o : Overlay K V) {c : Call K V} {q asked : K}
    (hc : c.key? = some asked) (hq : compare asked q = .eq) :
    (o.perform base c).2.ops.lookup? q = none ∨ (o.perform base c).2.ops.lookup? q = o.ops.lookup? q ∨
      ∃ key op, c.spelling? base = some key ∧
        (o.perform base c).2.ops.lookup? q = some ((o.ops.lookup? q).elim key (·.1), op) := by
  have hsame : sameKey asked q = true := sameKey_iff.mpr hq
  cases c with
  | set _ value =>
      cases hc
      rw [perform, lookup?_set, if_pos hsame, o.ops.lookup?_congr hq]
      split
      · exact .inl rfl
      · exact .inr (.inr ⟨_, _, rfl, rfl⟩)
  | remove | tryRemove =>
      cases hc
      rw [perform, lookup?_remove hb, if_pos hsame, o.ops.lookup?_congr hq, Call.spelling?]
      split
      · exact .inr (.inl rfl)
      · cases base.lookup? asked with
        | none => exact .inl rfl
        | some entry => exact .inr (.inr ⟨_, _, rfl, rfl⟩)
  | revert => cases hc

theorem spelling_perform (hb : Ascending base.toList) (o : Overlay K V) (c : Call K V) {q key : K} {op : Pending V}
    (h : (o.perform base c).2.ops.lookup? q = some (key, op)) :
    (∃ op', o.ops.lookup? q = some (key, op')) ∨
      o.ops.lookup? q = none ∧ (∃ asked, c.key? = some asked ∧ sameKey asked q = true) ∧
        c.spelling? base = some key := by
  cases hc : c.key? with
  | none =>
      cases c with
      | revert => cases h
      | _ => cases hc
  | some asked =>
      by_cases hq : compare asked q = .eq
      · rcases o.lookup?_perform hb hc hq with hleft | hleft | ⟨made, op', hmade, hleft⟩
        · rw [hleft] at h
          cases h
        · exact .inl ⟨op, hleft ▸ h⟩
        · rw [hleft] at h
          cases hpending : o.ops.lookup? q with
          | none =>
              rw [hpending] at h
              cases h
              exact .inr ⟨rfl, ⟨asked, rfl, sameKey_iff.mpr hq⟩, hmade⟩
          | some old =>
              rw [hpending] at h
              cases h
              exact .inl ⟨old.2, rfl⟩
      · rw [(actsAt_perform hb hc).lookup?_other hq] at h
        exact .inl ⟨op, h⟩

end Overlay

namespace Transaction

variable [Std.TransOrd K] [BEq V] {origin : Pinned K V} {q key : K}

def LeavesPending (origin : Pinned K V) (cs : List (Call K V)) (q : K) (pending? : Option (K × Pending V)) : Prop :=
  ∃ answers t, (start origin).calls cs = .ok (answers, t) ∧ t.overlay.ops.lookup? q = pending?

theorem leavesPending_iff {cs : List (Call K V)} {pending? : Option (K × Pending V)} :
    LeavesPending origin cs q pending? ↔
      (cs.foldl (fun o c => (o.perform origin.snapshot c).2) (Overlay.empty : Overlay K V)).ops.lookup? q = pending? := by
  rw [LeavesPending, calls_of_active (t := start origin) rfl, ← Overlay.snd_performAll]
  constructor
  · rintro ⟨_, _, hcalls, hpending⟩
    cases hcalls
    exact hpending
  · intro hpending
    exact ⟨_, _, rfl, hpending⟩

/-- Among all the calls, `c` made what is pending for `q`, and spelled its key. -/
structure SpelledBy (origin : Pinned K V) (q key : K) (before : List (Call K V)) (c : Call K V)
    (after : List (Call K V)) : Prop where
  fresh : LeavesPending origin before q none
  about : ∃ asked, c.key? = some asked ∧ sameKey asked q = true
  made : c.spelling? origin.snapshot = some key
  stays : ∀ later, later <+: after → ∃ op, LeavesPending origin (before ++ c :: later) q (some (key, op))

variable {before after : List (Call K V)} {c : Call K V}

theorem SpelledBy.again (h : SpelledBy origin q key before c after) {next : Call K V} {op : Pending V}
    (hnext : LeavesPending origin (before ++ c :: (after ++ [next])) q (some (key, op))) :
    SpelledBy origin q key before c (after ++ [next]) where
  fresh := h.fresh
  about := h.about
  made := h.made
  stays := by
    intro later hlater
    rcases List.prefix_concat_iff.mp hlater with rfl | hlater
    · exact ⟨op, hnext⟩
    · exact h.stays later hlater

theorem spelledBy_of_leavesPending (hb : Ascending origin.snapshot.toList) {cs : List (Call K V)} {op : Pending V}
    (h : LeavesPending origin cs q (some (key, op))) :
    ∃ before c after, cs = before ++ c :: after ∧ SpelledBy origin q key before c after := by
  -- the last call found the spelling there, and so did the calls before it back to the one that made it
  induction cs using List.reverseRecOn generalizing op with
  | nil => cases leavesPending_iff.mp h
  | append_singleton cs next ih =>
      have hnext := leavesPending_iff.mp h
      rw [List.foldl_append, List.foldl_cons, List.foldl_nil] at hnext
      rcases Overlay.spelling_perform hb _ _ hnext with ⟨op', hbefore⟩ | ⟨hfresh, habout, hmade⟩
      · obtain ⟨before, c, after, rfl, hspelled⟩ := ih (leavesPending_iff.mpr hbefore)
        have hsplit : before ++ c :: after ++ [next] = before ++ c :: (after ++ [next]) := List.append_assoc ..
        rw [hsplit] at h ⊢
        exact ⟨before, c, after ++ [next], rfl, hspelled.again h⟩
      · refine ⟨cs, next, [], rfl, leavesPending_iff.mpr hfresh, habout, hmade, fun later hlater => ?_⟩
        rw [List.prefix_nil.mp hlater]
        exact ⟨op, h⟩

/-- What is pending for a key is spelled as in the call that made it, whatever spellings came after that call, until
it is cancelled. Reads show pending values under this spelling and everything else as it is in the base, and so does
the difference with what it adds and what it removes. -/
theorem keys_keep_spelling (origin : Pinned K V) (hb : Ascending origin.snapshot.toList) (cs : List (Call K V)) :
    ∃ answers t, (start origin).calls cs = .ok (answers, t) ∧ t.origin = origin ∧
      (∀ q key op, t.overlay.ops.lookup? q = some (key, op) →
        ∃ before c after, cs = before ++ c :: after ∧ SpelledBy origin q key before c after) ∧
      t.ShowsSpellings :=
  ⟨_, _, calls_of_active (t := start origin) rfl cs, rfl,
    fun _ _ _ h => spelledBy_of_leavesPending hb ⟨_, _, calls_of_active (t := start origin) rfl cs, h⟩,
    showsSpellings hb⟩

theorem keys_keep_spelling_respelled :
    -- keys are told apart by their last digit
    let origin : Pinned (Ranked (compareOn (· % 10 : Nat → Nat))) Nat :=
      ⟨0, #[(11, 10), (3, 30), (7, 70), (8, 80)], 1⟩
    let cs : List (Call (Ranked (compareOn (· % 10 : Nat → Nat))) Nat) :=
      [.set 21 1, .remove 31, .set 41 2, .remove 13, .set 23 31, .set 43 30, .set 33 32, .tryRemove 18]
    Ascending origin.snapshot.toList ∧ ∃ answers t, (start origin).calls cs = .ok (answers, t) ∧
      t.overlay.ops.entries = [(21, .upserted 2), (33, .upserted 32), (8, .removed)] ∧
      (∃ before c after, cs = before ++ c :: after ∧ SpelledBy origin 1 21 before c after) ∧
      t.ShowsSpellings ∧ t.toList = [(21, 2), (33, 32), (7, 70)] ∧
      t.diff.toList = [.removed (11, 10), .added (21, 2), .removed (3, 30), .added (33, 32), .removed (8, 80)] := by
  intro origin cs
  have hb : Ascending origin.snapshot.toList := by decide
  obtain ⟨_, t, hcalls, _, hspelled, hshows⟩ := keys_keep_spelling origin hb cs
  cases hcalls.symm.trans (calls_of_active (t := start origin) rfl cs)
  have hpending : ((start origin).overlay.performAll origin.snapshot cs).2.ops.lookup? 1 = some (21, .upserted 2) := by
    decide +kernel
  exact ⟨hb, _, _, hcalls, by decide +kernel, hspelled 1 21 _ hpending, hshows, by decide +kernel, by decide +kernel⟩

end Transaction

end VersionedMap
