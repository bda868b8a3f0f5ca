import VersionedMap.Proofs.Alignment
import VersionedMap.Proofs.SortedEntries
import VersionedMap.Snapshot
import Mathlib.Data.List.Forall2

namespace VersionedMap

variable {K V : Type} [Ord K] [BEq V]

/-- The same key, however it is spelled, with equal values. -/
def EqualEntry (a b : K × V) : Prop :=
  compare a.1 b.1 = .eq ∧ (a.2 == b.2) = true

def EqualThroughout (source target : List (K × V)) : Prop :=
  source.length = target.length ∧ ∀ (i : Nat) (a b : K × V), source[i]? = some a → target[i]? = some b → EqualEntry a b

theorem equalThroughout_iff_forall₂ {source target : List (K × V)} :
    EqualThroughout source target ↔ List.Forall₂ EqualEntry source target := by
  rw [EqualThroughout, List.forall₂_iff_get]
  refine and_congr_right fun _ => ?_
  constructor
  · intro h i hi hi'
    exact h i _ _ (List.getElem?_eq_getElem hi) (List.getElem?_eq_getElem hi')
  · intro h i a b ha hb
    obtain ⟨hi, rfl⟩ := List.getElem?_eq_some_iff.mp ha
    obtain ⟨hi', rfl⟩ := List.getElem?_eq_some_iff.mp hb
    exact h i hi hi'

theorem isEqv_iff_forall₂ {α : Type} {p : α → α → Bool} {as bs : List α} :
    as.isEqv bs p = true ↔ List.Forall₂ (fun a b => p a b = true) as bs := by
  induction as generalizing bs with
  | nil => cases bs <;> simp
  | cons a as ih => cases bs <;> simp [List.isEqv, ih]

theorem isEqv_iff_equalThroughout {source target : List (K × V)} :
    source.isEqv target (fun a b => sameKey a.1 b.1 && a.2 == b.2) = true ↔ EqualThroughout source target := by
  have hentry : (fun a b : K × V => (sameKey a.1 b.1 && a.2 == b.2) = true) = EqualEntry := by
    funext a b
    rw [Bool.and_eq_true, sameKey_iff, EqualEntry]
  rw [isEqv_iff_forall₂, hentry, equalThroughout_iff_forall₂]

instance (source target : List (K × V)) : Decidable (EqualThroughout source target) :=
  decidable_of_iff _ isEqv_iff_equalThroughout

namespace EntryDiff

/-- Heads that are not paired off leave a change, so the two sides cannot come together again later. -/
theorem changes_eq_nil_iff {source target : List (K × V)} :
    changes source target = [] ↔ List.Forall₂ EqualEntry source target := by
  fun_induction changes source target with
  | case1 target => rw [List.map_eq_nil_iff, List.forall₂_nil_left_iff]
  | case2 source _ => rw [List.map_eq_nil_iff, List.forall₂_nil_right_iff]
  | case3 a source b target hab _ => simp [EqualEntry, hab]
  | case4 a source b target hab _ => simp [EqualEntry, hab]
  | case5 a source b target hab heq ih => simp [EqualEntry, hab, heq, ih]
  | case6 a source b target _ hne _ => simp [EqualEntry, hne]

theorem handsOut_nil_iff {source target : List (K × V)} :
    Walk.HandsOut next (.start source target) [] ↔ diffEntries source target = [] := by
  constructor
  · intro h
    have hfirst : (start source target).next.1 = none := (List.cons.inj (h 1)).1
    rwa [shows_toList.head?, List.head?_eq_none_iff] at hfirst
  · intro h
    have hout := shows_toList.handsOut ends_toList (start source target)
    rwa [show (start source target).toList = [] from h] at hout

end EntryDiff

theorem diffEntries_eq_nil_iff {source target : List (K × V)} :
    diffEntries source target = [] ↔ EqualThroughout source target := by
  rw [equalThroughout_iff_forall₂]
  exact EntryDiff.changes_eq_nil_iff

namespace Snapshot

theorem beq_iff_equalThroughout {a b : Snapshot K V} : a == b ↔ EqualThroughout a.toList b.toList :=
  isEqv_iff_equalThroughout

theorem beq_eq_beq_toList [BEq K] [Std.LawfulBEqOrd K] (a b : Snapshot K V) : (a == b) = (a.toList == b.toList) := by
  have hkeys (k l : K) : sameKey k l = (k == l) := by
    rw [Bool.eq_iff_iff, sameKey_iff, Std.LawfulBEqCmp.compare_eq_iff_beq]
  change a.toList.isEqv b.toList _ = a.toList.beq b.toList
  rw [List.beq_eq_isEqv]
  simp only [hkeys]
  rfl

/-- Nothing is found when two sequences of entries are compared exactly if they agree at every position, in whatever
order they are. So two snapshots are equal, entry by entry and whatever their versions, exactly if their difference has
no changes. -/
theorem equal_iff_no_difference [BEq K] [Std.LawfulBEqOrd K] :
    (∀ a b : Snapshot K V, (a == b) = (a.toList == b.toList) ∧ (a == b ↔ a.diff b = []) ∧
      (a == b ↔ Walk.HandsOut EntryDiff.next (.start a.toList b.toList) [])) ∧
    ∀ source target : List (K × V),
      (diffEntries source target = [] ↔ EqualThroughout source target) ∧
      (Walk.HandsOut EntryDiff.next (.start source target) [] ↔ EqualThroughout source target) := by
  refine ⟨fun a b => ⟨a.beq_eq_beq_toList b, ?_, ?_⟩, fun source target => ⟨diffEntries_eq_nil_iff, ?_⟩⟩
  · rw [beq_iff_equalThroughout, diff, diffEntries_eq_nil_iff]
  · rw [EntryDiff.handsOut_nil_iff, beq_iff_equalThroughout, diffEntries_eq_nil_iff]
  · rw [EntryDiff.handsOut_nil_iff, diffEntries_eq_nil_iff]

theorem equal_iff_no_difference_irreflexive :
    -- keys are told apart by their last digit, and one value does not equal itself
    let _ : BEq (Ranked (compareOn (· % 10 : Nat → Nat))) := ⟨fun (k l : Nat) => k % 10 = l % 10⟩
    let _ : BEq Nat := ⟨fun m n => m != 0 && m / 10 == n / 10⟩
    let snapshot (entries : Array (Nat × Nat)) (version : Nat) :
      Snapshot (Ranked (compareOn (· % 10 : Nat → Nat))) Nat := ⟨entries, version⟩
    let a := snapshot #[(11, 25), (12, 40)] 1
    let b := snapshot #[(21, 26), (32, 41)] 2
    let c := snapshot #[(11, 25), (12, 0)] 1
    (a.toList == b.toList) = true ∧ a.diff b = [] ∧ Walk.HandsOut EntryDiff.next (.start a.toList b.toList) [] ∧
      (c == c) = false ∧ c.diff c ≠ [] ∧
      diffEntries a.toList.reverse b.toList.reverse = [] ∧ diffEntries a.toList b.toList.reverse ≠ [] := by
  intro _ _ snapshot a b c
  have _ : Std.LawfulBEqOrd (Ranked (compareOn (· % 10 : Nat → Nat))) :=
    ⟨fun {_ _} => Nat.compare_eq_eq.trans decide_eq_true_iff.symm⟩
  obtain ⟨hsnapshots, hsequences⟩ :=
    equal_iff_no_difference (K := Ranked (compareOn (· % 10 : Nat → Nat))) (V := Nat)
  obtain ⟨hentries, hdiff, hout⟩ := hsnapshots a b
  have hab : (a == b) = true := by decide
  have hcc : (c == c) = false := by decide
  have hself : c.diff c ≠ [] := fun hnone => by
    have hsame : (c == c) = true := (hsnapshots c c).2.1.mpr hnone
    rw [hcc] at hsame
    cases hsame
  have hback : EqualThroughout a.toList.reverse b.toList.reverse := by decide
  have hturned : ¬EqualThroughout a.toList b.toList.reverse := by decide
  exact ⟨hentries.symm.trans hab, hdiff.mp hab, hout.mp hab, hcc, hself, (hsequences _ _).1.mpr hback,
    fun hnone => hturned ((hsequences _ _).1.mp hnone)⟩

end Snapshot

end VersionedMap
