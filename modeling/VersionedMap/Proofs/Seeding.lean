import VersionedMap.Proofs.PendingCalls
import VersionedMap.Proofs.Versions

namespace VersionedMap

variable {ν K V : Type} [Ord K]

def occurrences (entries : List (K × V)) (q : K) : List (K × V) :=
  entries.filter (sameKey ·.1 q)

/-- The last value among some entries, under the first spelling. -/
def firstSpelled? : List (K × V) → Option (K × V)
  | [] => none
  | first :: rest => some (first.1, (rest.getLast?.getD first).2)

omit [Ord K] in
theorem firstSpelled?_concat (entries : List (K × V)) (e : K × V) :
    firstSpelled? (entries ++ [e]) = some ((firstSpelled? entries).elim e.1 (·.1), e.2) := by
  cases entries <;> simp [firstSpelled?]

theorem occurrences_concat (entries : List (K × V)) (e : K × V) (q : K) :
    occurrences (entries ++ [e]) q =
      if sameKey e.1 q then occurrences entries q ++ [e] else occurrences entries q := by
  rw [occurrences, List.filter_append, ← occurrences]
  split <;> simp [*]

theorem Snapshot.ascending_empty : Ascending (empty : Snapshot K V).toList :=
  .nil

theorem Snapshot.get?_empty (q : K) : (empty : Snapshot K V).get? q = none :=
  rfl

variable [Std.TransOrd K]

theorem SortedMap.lookup?_ofList (entries : List (K × V)) (q : K) :
    (ofList entries).lookup? q = (occurrences entries q).getLast? := by
  induction entries using List.reverseRecOn with
  | nil => rfl
  | append_singleton entries e ih =>
      rw [ofList, List.foldl_append, ← ofList, List.foldl_cons, List.foldl_nil, lookup?_put, ih, occurrences_concat]
      split
      · exact List.getLast?_concat.symm
      · rfl

namespace Overlay

variable [BEq V]

def setAll (entries : List (K × V)) : Overlay K V :=
  entries.foldl (fun o e => o.set .empty e.1 e.2) empty

theorem setAll_concat (entries : List (K × V)) (e : K × V) :
    setAll (entries ++ [e]) = (setAll entries).set .empty e.1 e.2 :=
  List.foldl_concat ..

theorem performAll_set (entries : List (K × V)) :
    ((empty : Overlay K V).performAll .empty (entries.map fun e => .set e.1 e.2)).2 = setAll entries := by
  rw [snd_performAll, List.foldl_map]
  rfl

theorem isEmpty_setAll (entries : List (K × V)) : (setAll entries).isEmpty = entries.isEmpty := by
  rcases entries.eq_nil_or_concat' with rfl | ⟨entries, e, rfl⟩
  · rfl
  · rw [setAll_concat, set, Snapshot.get?_empty, List.isEmpty_eq_false_iff.mpr (List.concat_ne_nil e entries)]
    exact SortedMap.isEmpty_insertWith ..

/-- Over an empty base a key keeps the spelling that it was first set with. -/
theorem lookup?_setAll (entries : List (K × V)) (q : K) : (setAll entries).ops.lookup? q =
    (firstSpelled? (occurrences entries q)).map fun e => (e.1, .upserted e.2) := by
  induction entries using List.reverseRecOn with
  | nil => rfl
  | append_singleton entries e ih =>
      rw [setAll_concat, lookup?_set, Snapshot.get?_empty, occurrences_concat]
      by_cases hq : sameKey e.1 q = true
      · rw [if_pos hq, if_pos hq, SortedMap.lookup?_congr _ (sameKey_iff.mp hq), ih, firstSpelled?_concat]
        cases firstSpelled? (occurrences entries q) <;> rfl
      · rw [if_neg hq, if_neg hq, ih]

theorem entryAt_setAll (entries : List (K × V)) (q : K) :
    entryAt ((setAll entries).ascending .empty).toList q = firstSpelled? (occurrences entries q) := by
  rw [entryAt_toList _ Snapshot.ascending_empty, lookup?_setAll]
  cases firstSpelled? (occurrences entries q) <;> rfl

end Overlay

namespace Store

/-- A store that was seeded with `entries` and one that they were written to in one commit hold the same, up to the
spelling of keys that come more than once. -/
structure FilledAlike (entries : List (K × V)) (seeded written : Store ν K V) : Prop where
  version : seeded.version = if entries.isEmpty then 0 else 1
  versions : written.version = seeded.version
  sizes : written.snapshot.size = seeded.snapshot.size
  ascending : Ascending seeded.snapshot.toList ∧ Ascending written.snapshot.toList
  alike : List.Forall₂ SameEntry seeded.snapshot.toList written.snapshot.toList
  last : ∀ q, seeded.snapshot.lookup? q = (occurrences entries q).getLast?
  first : ∀ q, written.snapshot.lookup? q = firstSpelled? (occurrences entries q)
  once : ∀ e, occurrences entries e.1 = [e] → e ∈ seeded.snapshot.toList ∧ e ∈ written.snapshot.toList

variable [BEq V]

theorem filledAlike {entries : List (K × V)} {written : Store ν K V}
    (hversion : written.version = if entries.isEmpty then 0 else 1)
    (hlist : written.snapshot.toList = ((Overlay.setAll entries).ascending .empty).toList) :
    FilledAlike entries (ofList entries) written := by
  have hseeded : Ascending (ofList entries : Store ν K V).snapshot.toList := (SortedMap.ofList entries).ascending
  have hwritten : Ascending written.snapshot.toList := by
    rw [hlist]
    exact Overlay.ascending_toList _ Snapshot.ascending_empty
  have hlast (q : K) : entryAt (ofList entries : Store ν K V).snapshot.toList q = (occurrences entries q).getLast? :=
    SortedMap.lookup?_ofList entries q
  have hfirst (q : K) : entryAt written.snapshot.toList q = firstSpelled? (occurrences entries q) := by
    rw [hlist, Overlay.entryAt_setAll]
  have halike : List.Forall₂ SameEntry (ofList entries : Store ν K V).snapshot.toList written.snapshot.toList := by
    refine forall₂_of_entryAt hseeded hwritten fun q => ?_
    rw [hlast, hfirst]
    cases occurrences entries q with
    | nil => exact .none
    | cons first rest =>
        rw [List.getLast?_cons]
        exact .some rfl
  constructor
  case version => exact version_ofList entries
  case versions => exact hversion.trans (version_ofList entries).symm
  case sizes => exact halike.length_eq.symm
  case ascending => exact ⟨hseeded, hwritten⟩
  case alike => exact halike
  case last =>
    intro q
    rw [Snapshot.lookup?_eq_entryAt hseeded, hlast]
  case first =>
    intro q
    rw [Snapshot.lookup?_eq_entryAt hwritten, hfirst]
  case once =>
    intro e he
    have hthere := hlast e.1
    have hthere' := hfirst e.1
    rw [he] at hthere hthere'
    exact ⟨List.mem_of_find?_eq_some hthere, List.mem_of_find?_eq_some hthere'⟩

open Transaction

variable [DecidableEq ν]

theorem commit_setAll (entries : List (K × V)) {t : Transaction K V} (ht : t.status = .active)
    (hbase : t.base = .empty) (ho : t.overlay = Overlay.setAll entries) : ∃ changes t' written,
      (empty : Store ν K V).commit t = .ok (changes, t', written) ∧
        written.version = (if entries.isEmpty then 0 else 1) ∧
        written.snapshot.toList = ((Overlay.setAll entries).ascending .empty).toList := by
  have hlist : t.toList = ((Overlay.setAll entries).ascending .empty).toList := by
    rw [toList, ascending, ho, hbase]
  rw [commit_eq, ht, hasChanges, ho, Overlay.isEmpty_setAll]
  cases entries with
  | nil => exact ⟨_, _, _, rfl, rfl, rfl⟩
  | cons e entries => exact ⟨_, _, _, rfl, rfl, hlist⟩

/-- Seeding a store is one commit to an empty one, of a transaction that sets each entry in turn. -/
theorem seeding_eq_commit (entries : List (K × V)) : ∃ answers t changes t' written,
    (start (empty : Store ν K V).current).calls (entries.map fun e => .set e.1 e.2) = .ok (answers, t) ∧
      (empty : Store ν K V).commit t = .ok (changes, t', written) ∧
      FilledAlike entries (ofList entries : Store ν K V) written := by
  have hcalls := calls_of_active (t := start (empty : Store ν K V).current) rfl (entries.map fun e => .set e.1 e.2)
  obtain ⟨_, _, _, hcommit, hversion, hlist⟩ := commit_setAll (ν := ν) entries
    (t := { start (empty : Store ν K V).current with overlay := _ }) rfl rfl (Overlay.performAll_set entries)
  exact ⟨_, _, _, _, _, hcalls, hcommit, filledAlike hversion hlist⟩

theorem seeding_eq_commit_respelled :
    -- keys are told apart by their last digit
    let entries : List (Ranked (compareOn (· % 10 : Nat → Nat)) × Nat) := [(12, 1), (3, 30), (22, 2), (8, 80), (32, 1)]
    ∃ answers t changes t' written,
      (start (empty : Store Nat _ Nat).current).calls (entries.map fun e => .set e.1 e.2) = .ok (answers, t) ∧
        (empty : Store Nat _ Nat).commit t = .ok (changes, t', written) ∧
        FilledAlike entries (ofList entries : Store Nat _ Nat) written ∧
        (ofList entries : Store Nat _ Nat).snapshot.lookup? 2 = some (32, 1) ∧
        written.snapshot.lookup? 2 = some (12, 1) ∧ (3, 30) ∈ written.snapshot.toList := by
  intro entries
  obtain ⟨_, _, _, _, _, hcalls, hcommit, hfilled⟩ := seeding_eq_commit (ν := Nat) entries
  exact ⟨_, _, _, _, _, hcalls, hcommit, hfilled, hfilled.last 2, hfilled.first 2, (hfilled.once (3, 30) (by decide)).2⟩

end Store

end VersionedMap
