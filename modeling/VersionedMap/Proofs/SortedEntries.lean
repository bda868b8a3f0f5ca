import VersionedMap.SortedMap
import Mathlib.Data.List.Forall2

namespace VersionedMap

variable {K V W : Type} [Ord K]

def entryAt (entries : List (K × V)) (key : K) : Option (K × V) :=
  entries.find? (sameKey ·.1 key)

def Rising {α : Type} (order : α → α → Ordering) (items : List α) : Prop :=
  items.Pairwise fun a b => (order a b).isLE

instance {α : Type} (order : α → α → Ordering) (items : List α) : Decidable (Rising order items) :=
  inferInstanceAs (Decidable (items.Pairwise _))

/-- Items that are compared by a given order. -/
def Ranked {α : Type} (_ : α → α → Ordering) : Type := α

namespace Ranked

variable {α : Type} {order : α → α → Ordering}

instance : Ord (Ranked order) := ⟨order⟩

instance [Std.TransCmp order] : Std.TransOrd (Ranked order) := inferInstanceAs (Std.TransCmp order)

instance [DecidableEq α] : DecidableEq (Ranked order) := inferInstanceAs (DecidableEq α)

instance {n : Nat} [OfNat α n] : OfNat (Ranked order) n := inferInstanceAs (OfNat α n)

end Ranked

def Distinct (entries : List (K × V)) : Prop :=
  entries.Pairwise fun a b => compare a.1 b.1 ≠ .eq

def SameEntry (a b : K × V) : Prop :=
  compare a.1 b.1 = .eq ∧ a.2 = b.2

theorem Ascending.distinct {entries : List (K × V)} (h : Ascending entries) : Distinct entries :=
  h.imp fun hlt heq => by simp [heq] at hlt

theorem entryAt_cons_same {e : K × V} {q : K} (h : compare e.1 q = .eq) (entries : List (K × V)) :
    entryAt (e :: entries) q = some e :=
  List.find?_cons_of_pos (sameKey_iff.mpr h)

theorem entryAt_cons_other {e : K × V} {q : K} (h : compare e.1 q ≠ .eq) (entries : List (K × V)) :
    entryAt (e :: entries) q = entryAt entries q :=
  List.find?_cons_of_neg fun hsame => h (sameKey_iff.mp hsame)

theorem compare_of_entryAt {entries : List (K × V)} {q : K} {e : K × V} (h : entryAt entries q = some e) :
    compare e.1 q = .eq := by
  rw [entryAt] at h
  simpa using List.find?_some h

theorem entryAt_append (xs ys : List (K × V)) (q : K) :
    entryAt (xs ++ ys) q = (entryAt xs q).or (entryAt ys q) :=
  List.find?_append

theorem entryAt_eq_none_iff {entries : List (K × V)} {q : K} :
    entryAt entries q = none ↔ ∀ e ∈ entries, compare e.1 q ≠ .eq := by
  simp [entryAt]

theorem entryAt_eq_none {entries : List (K × V)} {q : K} (h : ∀ e ∈ entries, compare e.1 q ≠ .eq) :
    entryAt entries q = none :=
  entryAt_eq_none_iff.mpr h

theorem forall₂_filter {p : K → Bool} (hp : ∀ a b, compare a b = .eq → p a = p b)
    {xs ys : List (K × V)} (h : List.Forall₂ SameEntry xs ys) :
    List.Forall₂ SameEntry (xs.filter (p ·.1)) (ys.filter (p ·.1)) := by
  refine List.rel_filter ?_ h
  intro a b hab
  change p a.1 = true ↔ p b.1 = true
  rw [hp a.1 b.1 hab.1]

theorem Ascending.filter {entries : List (K × V)} (h : Ascending entries) (p : K × V → Bool) :
    Ascending (entries.filter p) :=
  h.sublist List.filter_sublist

theorem entryAt_filter {p : K → Bool} (hp : ∀ a b, compare a b = .eq → p a = p b)
    (entries : List (K × V)) (q : K) :
    entryAt (entries.filter (p ·.1)) q = if p q then entryAt entries q else none := by
  have hkeys (e : K × V) : (p e.1 && sameKey e.1 q) = (p q && sameKey e.1 q) := by
    cases hq : sameKey e.1 q with
    | true => rw [hp e.1 q (sameKey_iff.mp hq)]
    | false => simp
  simp only [entryAt, List.find?_filter, Bool.decide_and, Bool.decide_eq_true, hkeys]
  cases p q <;> simp

variable [Std.TransOrd K]

theorem Distinct.reverse {entries : List (K × V)} (h : Distinct entries) : Distinct entries.reverse := by
  refine List.pairwise_reverse.mpr (h.imp ?_)
  intro a b hab hba
  exact hab (Std.OrientedCmp.eq_symm hba)

theorem entryAt_congr (entries : List (K × V)) {a b : K} (h : compare a b = .eq) :
    entryAt entries a = entryAt entries b := by
  have hkeys : (fun e : K × V => sameKey e.1 a) = fun e => sameKey e.1 b := by
    funext e
    rw [sameKey, sameKey, Std.TransCmp.congr_right h]
  rw [entryAt, entryAt, hkeys]

theorem Distinct.entryAt_eq_some_iff {entries : List (K × V)} (h : Distinct entries) {q : K} {e : K × V} :
    entryAt entries q = some e ↔ e ∈ entries ∧ compare e.1 q = .eq := by
  induction entries with
  | nil => simp [entryAt]
  | cons x xs ih =>
      obtain ⟨hx, hxs⟩ := List.pairwise_cons.mp h
      rw [entryAt, List.find?_cons]
      cases hq : sameKey x.1 q with
      | true =>
          have hq := sameKey_iff.mp hq
          constructor
          · intro he
            cases he
            exact ⟨List.mem_cons_self, hq⟩
          · rintro ⟨he, heq⟩
            rcases List.mem_cons.mp he with rfl | he
            · rfl
            · exact absurd (Std.TransCmp.eq_trans hq (Std.OrientedCmp.eq_symm heq)) (hx e he)
      | false =>
          rw [← entryAt, ih hxs]
          constructor
          · rintro ⟨he, heq⟩
            exact ⟨List.mem_cons_of_mem _ he, heq⟩
          · rintro ⟨he, heq⟩
            rcases List.mem_cons.mp he with rfl | he
            · simp [sameKey, heq] at hq
            · exact ⟨he, heq⟩

theorem Distinct.entryAt_of_mem {entries : List (K × V)} (h : Distinct entries) {e : K × V}
    (he : e ∈ entries) : entryAt entries e.1 = some e :=
  h.entryAt_eq_some_iff.mpr ⟨he, Std.ReflCmp.compare_self⟩

theorem Distinct.mem_iff {entries : List (K × V)} (h : Distinct entries) {e : K × V} :
    e ∈ entries ↔ entryAt entries e.1 = some e :=
  ⟨h.entryAt_of_mem, List.mem_of_find?_eq_some⟩

theorem Distinct.entryAt_reverse {entries : List (K × V)} (h : Distinct entries) (q : K) :
    entryAt entries.reverse q = entryAt entries q := by
  apply Option.ext
  intro e
  rw [h.reverse.entryAt_eq_some_iff, h.entryAt_eq_some_iff, List.mem_reverse]

theorem Ascending.entryAt_below {x : K × V} {xs : List (K × V)} (h : Ascending (x :: xs)) {q : K}
    (hq : compare q x.1 = .lt) : entryAt (x :: xs) q = none := by
  refine entryAt_eq_none fun e he heq => ?_
  have hqe : compare q e.1 = .lt := by
    rcases List.mem_cons.mp he with rfl | he
    · exact hq
    · exact Std.TransCmp.lt_trans hq (List.rel_of_pairwise_cons h he)
  rw [Std.OrientedCmp.eq_symm heq] at hqe
  exact nomatch hqe

theorem Distinct.entryAt_tail {x : K × V} {xs : List (K × V)} (h : Distinct (x :: xs)) {q : K}
    (hq : compare x.1 q = .eq) : entryAt xs q = none := by
  refine entryAt_eq_none fun e he heq => ?_
  exact List.rel_of_pairwise_cons h he (Std.TransCmp.eq_trans hq (Std.OrientedCmp.eq_symm heq))

/-- Related entries under every key make related entries throughout. -/
theorem forall₂_of_entryAt {R : K × V → K × W → Prop} {xs : List (K × V)} {ys : List (K × W)}
    (hx : Ascending xs) (hy : Ascending ys) (h : ∀ q, Option.Rel R (entryAt xs q) (entryAt ys q)) :
    List.Forall₂ (fun a b => compare a.1 b.1 = .eq ∧ R a b) xs ys := by
  induction xs generalizing ys with
  | nil =>
      cases ys with
      | nil => exact .nil
      | cons y ys =>
          have hq := h y.1
          rw [hy.distinct.entryAt_of_mem List.mem_cons_self] at hq
          exact nomatch hq
  | cons x xs ih =>
      have hxx := hx.distinct.entryAt_of_mem List.mem_cons_self
      cases ys with
      | nil =>
          have hq := h x.1
          rw [hxx] at hq
          exact nomatch hq
      | cons y ys =>
          have hyy := hy.distinct.entryAt_of_mem List.mem_cons_self
          have hsame : compare x.1 y.1 = .eq := by
            cases hxy : compare x.1 y.1 with
            | eq => rfl
            | lt =>
                have hq := h x.1
                rw [hxx, hy.entryAt_below hxy] at hq
                exact nomatch hq
            | gt =>
                have hq := h y.1
                rw [hyy, hx.entryAt_below (Std.OrientedCmp.lt_of_gt hxy)] at hq
                exact nomatch hq
          have hhead : R x y := by
            have hq := h x.1
            rw [hxx, entryAt_congr (y :: ys) hsame, hyy] at hq
            cases hq
            assumption
          refine .cons ⟨hsame, hhead⟩ (ih hx.of_cons hy.of_cons fun q => ?_)
          by_cases hxq : compare x.1 q = .eq
          · have hyq := Std.TransCmp.eq_trans (Std.OrientedCmp.eq_symm hsame) hxq
            rw [hx.distinct.entryAt_tail hxq, hy.distinct.entryAt_tail hyq]
            exact .none
          · have hyq : compare y.1 q ≠ .eq := fun he => hxq (Std.TransCmp.eq_trans hsame he)
            have hq := h q
            rwa [entryAt_cons_other hxq, entryAt_cons_other hyq] at hq

theorem Ascending.eq_of_entryAt {xs ys : List (K × V)} (hx : Ascending xs) (hy : Ascending ys)
    (h : ∀ q, entryAt xs q = entryAt ys q) : xs = ys := by
  have hrel := forall₂_of_entryAt (R := Eq) hx hy fun q => by
    rw [h q]
    cases entryAt ys q with
    | none => exact .none
    | some e => exact .some rfl
  exact List.forall₂_eq_eq_eq ▸ hrel.imp fun _ _ hab => hab.2

theorem Ascending.dropWhile_below {entries : List (K × V)} (h : Ascending entries) (q : K) :
    entries.dropWhile (compare ·.1 q == .lt) = entries.filter (compare ·.1 q != .lt) := by
  induction entries with
  | nil => rfl
  | cons x xs ih =>
      obtain ⟨hx, hxs⟩ := List.pairwise_cons.mp h
      by_cases hq : compare x.1 q = .lt
      · simpa [hq] using ih hxs
      · have hrest : xs.filter (compare ·.1 q != .lt) = xs := by
          refine List.filter_eq_self.mpr fun e he => ?_
          have hne : compare e.1 q ≠ .lt := fun hlt => hq (Std.TransCmp.lt_trans (hx e he) hlt)
          simpa using hne
        simp [hq, hrest]

theorem Ascending.takeWhile_notAbove {entries : List (K × V)} (h : Ascending entries) (q : K) :
    entries.takeWhile (compare ·.1 q != .gt) = entries.filter (compare ·.1 q != .gt) := by
  induction entries with
  | nil => rfl
  | cons x xs ih =>
      obtain ⟨hx, hxs⟩ := List.pairwise_cons.mp h
      by_cases hq : compare x.1 q = .gt
      · have hrest : ∀ e ∈ xs, compare e.1 q = .gt := by
          intro e he
          exact Std.OrientedCmp.gt_of_lt
            (Std.TransCmp.lt_trans (Std.OrientedCmp.lt_of_gt hq) (hx e he))
        simpa [hq] using hrest
      · simpa [hq] using ih hxs

end VersionedMap
