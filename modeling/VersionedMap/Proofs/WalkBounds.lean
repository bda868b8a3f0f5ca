import VersionedMap.Transaction
import VersionedMap.Proofs.MergedEntries
import VersionedMap.Proofs.RangeReads

namespace VersionedMap

namespace MergedWalk

variable {K V : Type} [Ord K] {d : Bool}

theorem length_dropShadowed (key : K) (base : List (K × V)) :
    (dropShadowed d key base).length ≤ base.length ∧ base.length ≤ (dropShadowed d key base).length + 1 := by
  cases base with
  | nil => exact ⟨Nat.le_refl _, Nat.zero_le _⟩
  | cons e base =>
      rw [dropShadowed]
      split
      · exact ⟨Nat.le_succ _, Nat.le_refl _⟩
      · exact ⟨Nat.le_refl _, Nat.le_succ _⟩

theorem length_behind (key : K) (base : List (K × V)) :
    let front := base.takeWhile (before d key)
    front.length + (behind d key base).length ≤ base.length ∧
      base.length ≤ front.length + (behind d key base).length + 1 := by
  intro front
  obtain ⟨hupper, hlower⟩ := length_dropShadowed (d := d) key (base.dropWhile (before d key))
  have hsplit : front.length + (base.dropWhile (before d key)).length = base.length := by
    rw [← List.length_append, List.takeWhile_append_dropWhile]
  rw [behind]
  omega

theorem length_merge (base : List (K × V)) (ops : List (K × Pending V)) :
    base.length ≤ (merge d base ops).length + ops.length ∧
      (merge d base ops).length ≤ base.length + ops.length := by
  induction ops generalizing base with
  | nil => exact ⟨Nat.le_refl _, Nat.le_refl _⟩
  | cons op ops ih =>
      obtain ⟨key, op⟩ := op
      obtain ⟨hlower, hupper⟩ := ih (behind d key base)
      obtain ⟨hfront, hbase⟩ := length_behind (d := d) key base
      have hshown : (Overlay.shown (some (key, op)) none).toList.length ≤ 1 := by
        cases op with
        | upserted => exact Nat.le_refl _
        | removed => exact Nat.zero_le _
      rw [merge_cons, List.length_append, List.length_append, List.length_cons]
      omega

theorem merge_of_advance_none {bound : Nat} {ended : Bool} {base : List (K × V)} {ops : List (K × Pending V)}
    (h : (advance d bound ended base ops).1 = none) : (advance d bound ended base ops).2.toList = [] := by
  induction ops generalizing bound base with
  | nil =>
      rw [List.head?_eq_none_iff.mp h]
      rfl
  | cons op ops ih =>
      obtain ⟨key, op⟩ := op
      rw [advance] at h ⊢
      split at h
      · rename_i hbefore
        change base.head? = none at h
        rw [h] at hbefore
        cases hbefore
      · rename_i hbefore
        rw [if_neg hbefore]
        cases op with
        | upserted value => cases h
        | removed => exact ih h

theorem ends_toList : Walk.Ends (next (K := K) (V := V)) toList := by
  intro w hw
  refine merge_of_advance_none ?_
  have hhead := shows_toList.head? w
  rwa [hw] at hhead

def CountsOff (w w' : MergedWalk K V) : Prop :=
  ∃ used, w.ops = used ++ w'.ops ∧ w'.opsBound + used.length = w.opsBound

omit [Ord K] in
theorem CountsOff.trans {w w' w'' : MergedWalk K V} (h : w.CountsOff w') (h' : w'.CountsOff w'') : w.CountsOff w'' := by
  obtain ⟨used, hops, hbound⟩ := h
  obtain ⟨used', hops', hbound'⟩ := h'
  refine ⟨used ++ used', ?_, ?_⟩
  · rw [hops, hops', List.append_assoc]
  · rw [List.length_append]
    omega

/-- A walk's count covers the operations left, and none is left once a step has found that. -/
structure Counted (w : MergedWalk K V) : Prop where
  bound : w.ops.length ≤ w.opsBound
  ended : w.opsEnded = true → w.ops = []

omit [Ord K] in
theorem Counted.bound_of_countsOff {w w' : MergedWalk K V} (hw : w.Counted) (h : w.CountsOff w') :
    w'.ops.length ≤ w'.opsBound := by
  obtain ⟨used, hops, hbound⟩ := h
  have hlength := hw.bound
  rw [hops, List.length_append] at hlength
  omega

theorem advance_countsOff {bound : Nat} {ended : Bool} (base : List (K × V)) {ops : List (K × Pending V)}
    (hbound : ops.length ≤ bound) (hended : ended = true → ops = []) :
    CountsOff ⟨d, base, ops, bound, ended⟩ (advance d bound ended base ops).2 ∧
      ((advance d bound ended base ops).2.opsEnded = true → (advance d bound ended base ops).2.ops = []) := by
  -- a removal counts itself off and leaves the rest to what comes after it
  induction ops generalizing bound base with
  | nil => exact ⟨⟨[], rfl, rfl⟩, fun _ => rfl⟩
  | cons op ops ih =>
      obtain ⟨key, op⟩ := op
      have hgoing : ended = true → ops = [] := fun h => nomatch hended h
      have hone : bound - 1 + 1 = bound := Nat.sub_add_cancel (Nat.le_trans (Nat.succ_pos _) hbound)
      rw [advance]
      split
      · exact ⟨⟨[], rfl, rfl⟩, hended⟩
      · cases op with
        | upserted value => exact ⟨⟨[(key, .upserted value)], rfl, hone⟩, hgoing⟩
        | removed =>
            have hhere : CountsOff ⟨d, base, (key, .removed) :: ops, bound, ended⟩
                ⟨d, dropShadowed d key base, ops, bound - 1, ended⟩ := ⟨[(key, .removed)], rfl, hone⟩
            obtain ⟨hcounts, hfinal⟩ := ih (dropShadowed d key base) (Nat.le_sub_one_of_lt hbound) hgoing
            exact ⟨hhere.trans hcounts, hfinal⟩

theorem Counted.step {w : MergedWalk K V} (hw : w.Counted) : w.CountsOff w.next.2 ∧ w.next.2.Counted := by
  obtain ⟨hcounts, hended⟩ := advance_countsOff (d := w.descending) w.base hw.bound hw.ended
  exact ⟨hcounts, hw.bound_of_countsOff hcounts, hended⟩

theorem Counted.after {w : MergedWalk K V} (hw : w.Counted) (steps : Nat) :
    w.CountsOff (Walk.after next steps w) ∧ (Walk.after next steps w).Counted := by
  induction steps generalizing w with
  | zero => exact ⟨⟨[], rfl, rfl⟩, hw⟩
  | succ steps ih =>
      obtain ⟨hcounts, hnext⟩ := hw.step
      obtain ⟨hrest, hfinal⟩ := ih hnext
      exact ⟨hcounts.trans hrest, hfinal⟩

theorem Counted.sizeHint_brackets {w : MergedWalk K V} (hw : w.Counted) :
    w.sizeHint.1 ≤ w.toList.length ∧ w.toList.length ≤ w.sizeHint.2 := by
  obtain ⟨hlower, hupper⟩ := length_merge (d := w.descending) w.base w.ops
  rw [sizeHint, toList]
  cases hended : w.opsEnded with
  | true =>
      rw [hw.ended hended] at hlower hupper ⊢
      exact ⟨hlower, hupper⟩
  | false =>
      have hbound := hw.bound
      simp only [Bool.false_eq_true, if_false]
      omega

/-- What a walk says of itself after some steps from `start`. -/
structure Foresees (start w : MergedWalk K V) (items : List (K × V)) : Prop where
  handsOut : Walk.HandsOut next w items
  lower : w.sizeHint.1 ≤ items.length
  upper : items.length ≤ w.sizeHint.2
  counted : w.ops.length ≤ w.opsBound
  countsOff : start.CountsOff w

theorem Counted.foresees {w : MergedWalk K V} (hw : w.Counted) (steps : Nat) :
    w.Foresees (Walk.after next steps w) (w.toList.drop steps) := by
  obtain ⟨hcounts, hafter⟩ := hw.after steps
  have hlist := shows_toList.after ends_toList steps w
  have hout := shows_toList.handsOut ends_toList (Walk.after next steps w)
  obtain ⟨hlower, hupper⟩ := hafter.sizeHint_brackets
  rw [hlist] at hout hlower hupper
  exact ⟨hout, hlower, hupper, hafter.bound, hcounts⟩

end MergedWalk

namespace Transaction

open MergedWalk

variable {K V : Type} [Ord K]

def scan (t : Transaction K V) : Scan K → MergedWalk K V
  | .ascending => t.ascending
  | .descending => t.descending
  | .atLeast key => t.atLeast key
  | .atMost key => t.atMost key

variable [Std.TransOrd K]

theorem ops_scan (t : Transaction K V) (scan : Scan K) : (t.scan scan).ops = scan.covered t.overlay.ops.entries := by
  cases scan with
  | ascending => rfl
  | descending => rfl
  | atLeast key => exact t.overlay.ops.ascending.dropWhile_below key
  | atMost key => exact congrArg List.reverse (t.overlay.ops.ascending.takeWhile_notAbove key)

theorem counted_scan (t : Transaction K V) (scan : Scan K) : (t.scan scan).Counted := by
  have hbound : (t.scan scan).opsBound = t.overlay.ops.entries.length := by cases scan <;> rfl
  have hgoing : (t.scan scan).opsEnded = false := by cases scan <;> rfl
  refine ⟨?_, fun hended => ?_⟩
  · rw [hbound, ops_scan]
    exact Scan.length_covered_le _ scan
  · rw [hgoing] at hended
    exact nomatch hended

/-- A merged walk's bounds on what is still to come hold after any number of steps: from any base and overlay, if the
overlay's operations are counted in, and so over every range of a transaction. -/
theorem walks_foresee :
    (∀ (d : Bool) (base : List (K × V)) (ops : List (K × Pending V)) (bound steps : Nat), ops.length ≤ bound →
      let start : MergedWalk K V := ⟨d, base, ops, bound, false⟩
      start.Foresees (Walk.after next steps start) ((merge d base ops).drop steps)) ∧
    ∀ (t : Transaction K V) (scan : Scan K) (steps : Nat),
      (t.scan scan).ops = scan.covered t.overlay.ops.entries ∧
        (t.scan scan).opsBound = t.overlay.size ∧
        (t.scan scan).Foresees (Walk.after next steps (t.scan scan)) ((t.scan scan).toList.drop steps) := by
  refine ⟨fun d base ops bound steps hbound => ?_, fun t scan steps => ⟨t.ops_scan scan, ?_, ?_⟩⟩
  · exact Counted.foresees (w := ⟨d, base, ops, bound, false⟩) ⟨hbound, nofun⟩ steps
  · cases scan <;> rfl
  · exact (t.counted_scan scan).foresees steps

theorem walks_foresee_absent_removal :
    let ops : List (Nat × Pending Nat) := [(0, .removed), (2, .removed), (5, .upserted 50)]
    let start : MergedWalk Nat Nat := ⟨false, [(1, 10), (2, 20), (3, 30)], ops, 5, false⟩
    ops.length ≤ 5 ∧ start.Foresees (Walk.after next 2 start) [(5, 50)] ∧
      (Walk.after next 2 start).sizeHint = (0, 3) :=
  ⟨by decide, walks_foresee.1 false _ _ 5 2 (by decide), rfl⟩

end Transaction

end VersionedMap
