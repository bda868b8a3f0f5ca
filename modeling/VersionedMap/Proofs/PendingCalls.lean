import VersionedMap.Proofs.DiffAgreement
import Mathlib.Algebra.Ring.Int.Defs

namespace VersionedMap

variable {K V : Type} [Ord K]

namespace Transaction

def Call.key? : Call K V → Option K
  | .set key _ | .remove key | .tryRemove key => some key
  | .revert => none

/-- What was last asked of `q`, after one more call: a value to store, or none to store. -/
def Call.amend (q : K) (last : Option (Option V)) : Call K V → Option (Option V)
  | .set key value => if sameKey key q then some (some value) else last
  | .remove key | .tryRemove key => if sameKey key q then some none else last
  | .revert => none

/-- What was last asked of `q`, if anything, since the start or the last revert. -/
def latest (q : K) (cs : List (Call K V)) : Option (Option V) :=
  cs.foldl (Call.amend q) none

end Transaction

namespace Overlay

open Transaction

variable [Std.TransOrd K] [BEq V]

def perform (o : Overlay K V) (base : Snapshot K V) : Call K V → Option Bool × Overlay K V
  | .set key value => (none, o.set base key value)
  | .remove key | .tryRemove key => (some (o.remove base key).1, (o.remove base key).2)
  | .revert => (none, .empty)

def performAll (o : Overlay K V) (base : Snapshot K V) : List (Call K V) → List (Option Bool) × Overlay K V
  | [] => ([], o)
  | c :: cs =>
    let (answer, o) := o.perform base c
    let (answers, o) := o.performAll base cs
    (answer :: answers, o)

theorem snd_performAll (o : Overlay K V) (base : Snapshot K V) (cs : List (Call K V)) :
    (o.performAll base cs).2 = cs.foldl (fun o c => (o.perform base c).2) o := by
  induction cs generalizing o with
  | nil => rfl
  | cons c cs ih => exact ih _

end Overlay

namespace Transaction

variable [Std.TransOrd K] [BEq V] {t : Transaction K V}

theorem call_of_active (ht : t.status = .active) (c : Call K V) :
    t.call c = .ok ((t.overlay.perform t.base c).1, { t with overlay := (t.overlay.perform t.base c).2 }) := by
  have hopen (edit : Edit) : t.ensureActive edit = .ok () := by rw [ensureActive, ht]
  cases c with
  | set key value =>
      simp only [call, set, hopen]
      rfl
  | remove key =>
      simp only [call, remove, hopen]
      rfl
  | tryRemove key =>
      simp only [call, tryRemove, remove, hopen]
      rfl
  | revert =>
      simp only [call, revert, hopen]
      rfl

theorem calls_of_active (ht : t.status = .active) (cs : List (Call K V)) :
    t.calls cs = .ok ((t.overlay.performAll t.base cs).1, { t with overlay := (t.overlay.performAll t.base cs).2 }) := by
  induction cs generalizing t with
  | nil => rfl
  | cons c cs ih =>
      have hrest := ih (t := { t with overlay := (t.overlay.perform t.base c).2 }) ht
      simp only [calls, call_of_active ht, bind, Except.bind, hrest]
      rfl

end Transaction

theorem SortedMap.forall₂_of_get? [Std.TransOrd K] {m n : SortedMap K V} (h : ∀ q, m.get? q = n.get? q) :
    List.Forall₂ SameEntry m.entries n.entries := by
  refine forall₂_of_entryAt m.ascending n.ascending fun q => ?_
  have hq := h q
  rw [get?, get?] at hq
  change Option.Rel _ (m.lookup? q) (n.lookup? q)
  cases ha : m.lookup? q with
  | none =>
      rw [ha] at hq
      rw [Option.map_eq_none_iff.mp hq.symm]
      exact .none
  | some a =>
      rw [ha] at hq
      obtain ⟨b, hb, hab⟩ := Option.map_eq_some_iff.mp hq.symm
      rw [hb]
      exact .some hab.symm

/-- What is to be pending for a key, given the base's value and what was last asked of it: nothing that would
change nothing. -/
def Pending.due [BEq V] (original? : Option V) : Option (Option V) → Option (Pending V)
  | none => none
  | some (some value) => if original?.any (· == value) then none else some (.upserted value)
  | some none => original?.map fun _ => .removed

namespace Overlay

open Transaction

variable [Std.TransOrd K] {base : Snapshot K V} {o : Overlay K V}

theorem get?_congr (o : Overlay K V) {a b : K} (h : compare a b = .eq) : o.ops.get? a = o.ops.get? b := by
  rw [SortedMap.get?, SortedMap.get?, o.ops.lookup?_congr h]

theorem get?_set [BEq V] (o : Overlay K V) (key : K) (value : V) (q : K) :
    (o.set base key value).ops.get? q =
      if sameKey key q then Pending.due (base.get? key) (some (some value)) else o.ops.get? q := by
  rw [set, Pending.due]
  split
  · exact o.ops.get?_erase key q
  · exact o.ops.get?_insert key _ q

theorem compare_of_lookup? (hb : Ascending base.toList) {key : K} {entry : K × V}
    (h : base.lookup? key = some entry) : compare entry.1 key = .eq := by
  rw [Snapshot.lookup?_eq_entryAt hb] at h
  exact compare_of_entryAt h

theorem get?_remove [BEq V] (hb : Ascending base.toList) (h : o.Effective base) (key q : K) :
    (o.remove base key).2.ops.get? q =
      if sameKey key q then Pending.due (base.get? key) (some none) else o.ops.get? q := by
  rw [remove]
  cases hread : o.resolve base key with
  | none =>
      have hdue : o.ops.get? key = Pending.due (base.get? key) (some none) := by
        rw [resolve] at hread
        cases hop : o.ops.get? key with
        | none =>
            simp only [hop] at hread
            rw [hread]
            rfl
        | some op =>
            cases op with
            | upserted value => simp [hop] at hread
            | removed =>
                obtain ⟨original, hold⟩ := Option.isSome_iff_exists.mp (h key .removed hop)
                rw [hold]
                rfl
      rw [Option.isNone_none, if_pos rfl, ← hdue]
      split
      · exact (o.get?_congr (sameKey_iff.mp ‹_›)).symm
      · rfl
  | some value =>
      rw [Option.isNone_some, if_neg Bool.false_ne_true, Snapshot.get?]
      cases hold : base.lookup? key with
      | none => exact o.ops.get?_erase key q
      | some entry =>
          have hkeys : sameKey entry.1 q = sameKey key q := by
            rw [sameKey, sameKey, Std.TransCmp.congr_left (compare_of_lookup? hb hold)]
          exact (o.ops.get?_insert entry.1 .removed q).trans (by rw [hkeys]; rfl)

theorem get?_perform [BEq V] (hb : Ascending base.toList) (h : o.Effective base) {q : K}
    {last : Option (Option V)} (hq : o.ops.get? q = Pending.due (base.get? q) last) (c : Call K V) :
    (o.perform base c).2.ops.get? q = Pending.due (base.get? q) (c.amend q last) := by
  cases c with
  | set key value =>
      rw [perform, get?_set, Call.amend]
      split
      · rw [Snapshot.get?_congr hb (sameKey_iff.mp ‹_›)]
      · exact hq
  | remove key | tryRemove key =>
      rw [perform, get?_remove hb h, Call.amend]
      split
      · rw [Snapshot.get?_congr hb (sameKey_iff.mp ‹_›)]
      · exact hq
  | revert => rfl

/-- How many entries more the merged view has under a key than the base, given the base's value and what is
pending. -/
def gain (original? : Option V) : Option (Pending V) → Int
  | none => 0
  | some (.upserted _) => if original?.isSome then 0 else 1
  | some .removed => if original?.isSome then -1 else 0

def tally (o : Overlay K V) (base : Snapshot K V) : Int :=
  (o.ops.entries.map fun e => gain (base.get? e.1) (some e.2)).sum

omit [Std.TransOrd K] in
theorem gain_eq (o : Overlay K V) (base : Snapshot K V) (key : K) :
    gain (base.get? key) (o.ops.get? key) =
      (if (o.resolve base key).isSome then 1 else 0) - (if (base.get? key).isSome then 1 else 0) := by
  rw [resolve, gain.eq_def]
  cases o.ops.get? key with
  | none => simp
  | some op => cases op <;> cases base.get? key <;> rfl

theorem sum_insertWith {merge : K × V → K × V} {key : K} {entry : K × V} {entries : List (K × V)}
    (h : Ascending entries) (f : K × V → Int) :
    ((insertWith merge key entry entries).map f).sum =
      (entries.map f).sum - (entryAt entries key).elim 0 f + f ((entryAt entries key).elim entry merge) := by
  induction entries with
  | nil => simp [insertWith, entryAt]
  | cons x xs ih =>
      rw [insertWith]
      cases hx : compare key x.1 with
      | lt =>
          rw [h.entryAt_below hx]
          simp [Int.add_comm]
      | eq =>
          rw [entryAt_cons_same (Std.OrientedCmp.eq_symm hx)]
          simp only [List.map_cons, List.sum_cons, Option.elim_some]
          omega
      | gt =>
          rw [entryAt_cons_other (by simp [Std.OrientedCmp.lt_of_gt hx]), List.map_cons, List.sum_cons, ih h.of_cons, List.map_cons, List.sum_cons]
          omega

omit [Ord K] [Std.TransOrd K] in
theorem sum_eraseP {α : Type} (f : α → Int) (p : α → Bool) (xs : List α) :
    ((xs.eraseP p).map f).sum = (xs.map f).sum - (xs.find? p).elim 0 f := by
  induction xs with
  | nil => rfl
  | cons x xs ih =>
      rw [List.eraseP_cons, List.find?_cons]
      cases p x with
      | true =>
          simp only [cond_true, List.map_cons, List.sum_cons, Option.elim_some]
          omega
      | false =>
          simp only [cond_false, List.map_cons, List.sum_cons, ih]
          omega

theorem gain_entry (hb : Ascending base.toList) (m : SortedMap K (Pending V)) (key : K) :
    (m.lookup? key).elim 0 (fun e => gain (base.get? e.1) (some e.2)) = gain (base.get? key) (m.get? key) := by
  rw [SortedMap.get?]
  cases hfound : m.lookup? key with
  | none => rfl
  | some e =>
      have hsame := compare_of_entryAt hfound
      simp [Snapshot.get?_congr hb hsame]

theorem tally_erase (hb : Ascending base.toList) (o : Overlay K V) (key : K) (growth : Int) :
    tally ⟨o.ops.erase key, growth⟩ base = o.tally base - gain (base.get? key) (o.ops.get? key) := by
  rw [tally, tally, SortedMap.erase, sum_eraseP, ← gain_entry hb]
  rfl

theorem tally_insert (hb : Ascending base.toList) (o : Overlay K V) (key : K) (op : Pending V) (growth : Int) :
    tally ⟨o.ops.insert key op, growth⟩ base =
      o.tally base - gain (base.get? key) (o.ops.get? key) + gain (base.get? key) (some op) := by
  rw [tally, tally, SortedMap.insert, sum_insertWith o.ops.ascending, ← gain_entry hb, SortedMap.lookup?, ← entryAt]
  cases hfound : entryAt o.ops.entries key with
  | none => rfl
  | some e =>
      have hsame := compare_of_entryAt hfound
      simp [Snapshot.get?_congr hb hsame]

theorem tally_set [BEq V] (hb : Ascending base.toList) (o : Overlay K V) (key : K) (value : V) :
    (o.set base key value).tally base = o.tally base + if (o.resolve base key).isNone then 1 else 0 := by
  have hold := o.gain_eq base key
  rw [set]
  by_cases hcancel : (base.get? key).any (· == value) = true
  · obtain ⟨original, horiginal, _⟩ := (Option.any_eq_true _ _).mp hcancel
    rw [if_pos hcancel, tally_erase hb, hold, horiginal]
    cases o.resolve base key <;> simp
  · rw [if_neg hcancel, tally_insert hb, hold, gain]
    cases o.resolve base key <;> cases base.get? key <;> simp

theorem tally_remove (hb : Ascending base.toList) (o : Overlay K V) (key : K) :
    (o.remove base key).2.tally base = o.tally base - if (o.resolve base key).isSome then 1 else 0 := by
  have hold := o.gain_eq base key
  rw [remove]
  cases hread : o.resolve base key with
  | none => simp
  | some value =>
      rw [hread] at hold
      rw [Option.isNone_some, if_neg Bool.false_ne_true]
      cases hentry : base.lookup? key with
      | none =>
          have habsent : base.get? key = none := by rw [Snapshot.get?, hentry]; rfl
          rw [tally_erase hb, hold, habsent]
          simp
      | some entry =>
          have hsame := compare_of_lookup? hb hentry
          have hpresent : base.get? key = some entry.2 := by rw [Snapshot.get?, hentry]; rfl
          rw [tally_insert hb, Snapshot.get?_congr hb hsame, o.get?_congr hsame, hold, hpresent]
          simp only [gain, Option.isSome_some, if_true]
          omega

end Overlay

def Pending.isRemoval : Pending V → Bool
  | .upserted _ => false
  | .removed => true

namespace Overlay

open Transaction

variable {base : Snapshot K V} {o : Overlay K V}

def adds (base : Snapshot K V) (e : K × Pending V) : Bool :=
  !e.2.isRemoval && (base.get? e.1).isNone

theorem tally_eq_counts [BEq V] (h : ∀ e ∈ o.ops.entries, Alters e.2 (base.get? e.1)) :
    o.tally base = (o.ops.entries.countP (adds base) : Int) - o.ops.entries.countP (·.2.isRemoval) := by
  rw [tally]
  generalize o.ops.entries = entries at h
  induction entries with
  | nil => rfl
  | cons e entries ih =>
      obtain ⟨he, hrest⟩ := List.forall_mem_cons.mp h
      obtain ⟨key, op⟩ := e
      rw [List.map_cons, List.sum_cons, ih hrest, List.countP_cons, List.countP_cons]
      cases op with
      | upserted value =>
          cases hold : base.get? key with
          | none =>
              simp only [gain, adds, Pending.isRemoval, hold, Option.isSome_none, Option.isNone_none, Bool.false_eq_true,
                Bool.not_false, Bool.and_self, if_true, if_false]
              omega
          | some original => simp [gain, adds, Pending.isRemoval, hold]
      | removed =>
          have hthere : (base.get? key).isSome = true := he
          simp only [gain, adds, Pending.isRemoval, hthere, Bool.not_true, Bool.false_and, Bool.false_eq_true, if_true,
            if_false]
          omega

variable [Std.TransOrd K]

theorem Effective.alters [BEq V] (h : o.Effective base) {e : K × Pending V} (he : e ∈ o.ops.entries) :
    Alters e.2 (base.get? e.1) := by
  refine h e.1 e.2 ?_
  rw [SortedMap.get?, SortedMap.lookup?, ← entryAt, o.ops.ascending.distinct.entryAt_of_mem he]
  rfl

/-- What holds of an overlay after calls of which `last` tells the last on each key. -/
structure Recalls [BEq V] (o : Overlay K V) (base : Snapshot K V) (last : K → Option (Option V)) : Prop where
  effective : o.Effective base
  growth : o.growth = o.tally base
  pending : ∀ q, o.ops.get? q = Pending.due (base.get? q) (last q)
  models : ∃ m, o.Models base m

variable [BEq V] {last : K → Option (Option V)}

theorem recalls_empty (hb : Ascending base.toList) : (empty : Overlay K V).Recalls base fun _ => none :=
  ⟨effective_empty, rfl, fun _ => rfl, _, models_empty hb⟩

theorem Recalls.perform (hb : Ascending base.toList) (h : o.Recalls base last) (c : Call K V) :
    (o.perform base c).2.Recalls base fun q => c.amend q (last q) := by
  have hpending (q : K) := get?_perform hb h.effective (h.pending q) c
  obtain ⟨m, hm⟩ := h.models
  cases c with
  | set key value =>
      refine ⟨h.effective.set hb key value, ?_, hpending, _, hm.set hb key value⟩
      rw [Overlay.perform, tally_set hb, ← h.growth, Overlay.set]
      cases o.resolve base key <;> simp
  | remove key | tryRemove key =>
      refine ⟨h.effective.remove hb key, ?_, hpending, _, hm.remove hb key⟩
      rw [Overlay.perform, tally_remove hb, ← h.growth, Overlay.remove]
      cases o.resolve base key <;> simp
  | revert => exact ⟨effective_empty, rfl, hpending, _, models_empty hb⟩

theorem Recalls.performAll (hb : Ascending base.toList) (h : o.Recalls base last) (cs : List (Call K V)) :
    (o.performAll base cs).2.Recalls base fun q => cs.foldl (Call.amend q) (last q) := by
  induction cs generalizing o last with
  | nil => exact h
  | cons c cs ih => exact ih (h.perform hb c)

theorem Recalls.congr {o' : Overlay K V} (hb : Ascending base.toList) (h : o.Recalls base last)
    (h' : o'.Recalls base last) : (∀ q, o'.ops.get? q = o.ops.get? q) ∧ o'.growth = o.growth := by
  have hget (q : K) : o'.ops.get? q = o.ops.get? q := (h'.pending q).trans (h.pending q).symm
  refine ⟨hget, ?_⟩
  have hentries := SortedMap.forall₂_of_get? hget
  have hgains : o'.ops.entries.map (fun e => gain (base.get? e.1) (some e.2)) =
      o.ops.entries.map fun e => gain (base.get? e.1) (some e.2) := by
    rw [← List.forall₂_eq_eq_eq, List.forall₂_map_left_iff, List.forall₂_map_right_iff]
    refine hentries.imp fun a b hab => ?_
    rw [Snapshot.get?_congr hb hab.1, hab.2]
  rw [h'.growth, h.growth, tally, tally, hgains]

/-- Going by what is pending for `key` alone, `f` changes that and the growth, and nothing else. -/
def ActsAt (key : K) (f : Overlay K V → Overlay K V) : Prop :=
  ∃ (pending : Option (K × Pending V) → Option (K × Pending V)) (grown : Option (K × Pending V) → Int),
    ∀ o, (f o).growth = o.growth + grown (o.ops.lookup? key) ∧
      ∀ q, (f o).ops.lookup? q = if sameKey key q then pending (o.ops.lookup? key) else o.ops.lookup? q

omit [Std.TransOrd K] [BEq V] in
theorem ActsAt.lookup?_other {key key' : K} {f : Overlay K V → Overlay K V} (h : ActsAt key f)
    (hne : compare key key' ≠ .eq) (o : Overlay K V) : (f o).ops.lookup? key' = o.ops.lookup? key' := by
  obtain ⟨_, _, hf⟩ := h
  rw [(hf o).2, if_neg (by simpa using hne)]

omit [BEq V] in
theorem ActsAt.comm {key key' : K} {f f' : Overlay K V → Overlay K V} (h : ActsAt key f) (h' : ActsAt key' f')
    (hne : compare key key' ≠ .eq) (o : Overlay K V) : f' (f o) = f (f' o) := by
  have hne' : compare key' key ≠ .eq := fun heq => hne (Std.OrientedCmp.eq_symm heq)
  have hthere := h.lookup?_other hne o
  have hthere' := h'.lookup?_other hne' o
  obtain ⟨_, _, hf⟩ := h
  obtain ⟨_, _, hf'⟩ := h'
  have hops : (f' (f o)).ops = (f (f' o)).ops := by
    refine SortedMap.ext_lookup? fun q => ?_
    rw [(hf' (f o)).2 q, (hf (f' o)).2 q, hthere, hthere', (hf o).2 q, (hf' o).2 q]
    by_cases hq : sameKey key q = true
    · have hq' : ¬ sameKey key' q = true := fun heq =>
        hne' (Std.TransCmp.eq_trans (sameKey_iff.mp heq) (Std.OrientedCmp.eq_symm (sameKey_iff.mp hq)))
      simp [hq, hq']
    · simp [hq]
  have hgrowth : (f' (f o)).growth = (f (f' o)).growth := by
    rw [(hf' (f o)).1, (hf (f' o)).1, hthere, hthere', (hf o).1, (hf' o).1]
    omega
  exact (Overlay.mk.injEq ..).mpr ⟨hops, hgrowth⟩

theorem lookup?_set (o : Overlay K V) (key : K) (value : V) (q : K) : (o.set base key value).ops.lookup? q =
    if sameKey key q then
      if (base.get? key).any (· == value) then none
      else some ((o.ops.lookup? key).elim key (·.1), .upserted value)
    else o.ops.lookup? q := by
  rw [set]
  split
  · exact o.ops.lookup?_erase key q
  · exact o.ops.lookup?_insert key _ q

theorem growth_set (hb : Ascending base.toList) (o : Overlay K V) (key : K) (value : V) :
    (o.set base key value).growth =
      o.growth + if (shown (o.ops.lookup? key) (entryAt base.toList key)).isNone then 1 else 0 := by
  have hread : (o.resolve base key).isNone = (shown (o.ops.lookup? key) (entryAt base.toList key)).isNone := by
    rw [o.resolve_eq_shown hb, Option.isNone_map]
  rw [← hread, set]
  cases o.resolve base key <;> simp

omit [BEq V] in
theorem lookup?_remove (hb : Ascending base.toList) (o : Overlay K V) (key q : K) :
    (o.remove base key).2.ops.lookup? q =
      if sameKey key q then
        if (shown (o.ops.lookup? key) (entryAt base.toList key)).isNone then o.ops.lookup? key
        else (base.lookup? key).map fun entry => ((o.ops.lookup? key).elim entry.1 (·.1), .removed)
      else o.ops.lookup? q := by
  rw [remove, o.resolve_eq_shown hb, Option.isNone_map]
  split
  case isTrue =>
    cases hq : sameKey key q with
    | true => exact (o.ops.lookup?_congr (sameKey_iff.mp hq)).symm
    | false => rfl
  case isFalse =>
    cases hentry : base.lookup? key with
    | none => exact o.ops.lookup?_erase key q
    | some entry =>
        have hsame := compare_of_lookup? hb hentry
        have hkeys : sameKey entry.1 q = sameKey key q := by
          rw [sameKey, sameKey, Std.TransCmp.congr_left hsame]
        refine (o.ops.lookup?_insert entry.1 .removed q).trans ?_
        rw [hkeys, o.ops.lookup?_congr hsame]
        rfl

omit [BEq V] in
theorem growth_remove (hb : Ascending base.toList) (o : Overlay K V) (key : K) :
    (o.remove base key).2.growth =
      o.growth + if (shown (o.ops.lookup? key) (entryAt base.toList key)).isNone then 0 else -1 := by
  rw [remove, o.resolve_eq_shown hb, Option.isNone_map]
  split
  · exact (Int.add_zero _).symm
  · rfl

theorem actsAt_perform (hb : Ascending base.toList) {c : Call K V} {key : K} (hc : c.key? = some key) :
    ActsAt key fun o => (o.perform base c).2 := by
  cases c with
  | set _ value =>
      cases hc
      exact ⟨fun pending => if (base.get? key).any (· == value) then none
          else some (pending.elim key (·.1), .upserted value),
        fun pending => if (shown pending (entryAt base.toList key)).isNone then 1 else 0,
        fun o => ⟨o.growth_set hb key value, o.lookup?_set key value⟩⟩
  | remove | tryRemove =>
      cases hc
      exact ⟨fun pending => if (shown pending (entryAt base.toList key)).isNone then pending
          else (base.lookup? key).map fun entry => (pending.elim entry.1 (·.1), .removed),
        fun pending => if (shown pending (entryAt base.toList key)).isNone then 0 else -1,
        fun o => ⟨o.growth_remove hb key, o.lookup?_remove hb key⟩⟩
  | revert => cases hc

theorem perform_fst_congr {o o' : Overlay K V} {c : Call K V} {key : K} (hc : c.key? = some key)
    (h : o'.ops.lookup? key = o.ops.lookup? key) : (o'.perform base c).1 = (o.perform base c).1 := by
  cases c with
  | set => rfl
  | remove | tryRemove =>
      cases hc
      simp only [perform, remove_fst, resolve, SortedMap.get?, h]
  | revert => rfl

end Overlay

namespace Transaction

variable [Std.TransOrd K] [BEq V] {t : Transaction K V}

/-- Calls on different keys can change places. -/
theorem calls_comm (hb : Ascending t.base.toList) (ht : t.status = .active) {c c' : Call K V} {key key' : K}
    (hc : c.key? = some key) (hc' : c'.key? = some key') (hne : compare key key' ≠ .eq) :
    ∃ answer answer' t', t.calls [c, c'] = .ok ([answer, answer'], t') ∧
      t.calls [c', c] = .ok ([answer', answer], t') := by
  have hact := Overlay.actsAt_perform hb hc
  have hact' := Overlay.actsAt_perform hb hc'
  have hanswer' : ((t.overlay.perform t.base c).2.perform t.base c').1 = (t.overlay.perform t.base c').1 :=
    Overlay.perform_fst_congr hc' (hact.lookup?_other hne t.overlay)
  have hanswer : ((t.overlay.perform t.base c').2.perform t.base c).1 = (t.overlay.perform t.base c).1 :=
    Overlay.perform_fst_congr hc (hact'.lookup?_other (fun heq => hne (Std.OrientedCmp.eq_symm heq)) t.overlay)
  have hoverlay := hact.comm hact' hne t.overlay
  refine ⟨(t.overlay.perform t.base c).1, (t.overlay.perform t.base c').1,
    { t with overlay := ((t.overlay.perform t.base c).2.perform t.base c').2 },
    (calls_of_active ht _).trans ?_, (calls_of_active ht _).trans ?_⟩
  · rw [← hanswer']
    rfl
  · rw [hoverlay, ← hanswer]
    rfl

theorem hasChanges_iff (hb : Ascending t.base.toList) (h : t.overlay.Effective t.base) :
    t.hasChanges = true ↔ t.diff.next.1.isSome = true := by
  have hnext : t.diff.next.1.isSome = true ↔ t.diff.toList ≠ [] := by
    rw [OverlayDiff.shows_toList t.diff]
    cases t.diff.next.1 <;> simp
  rw [hnext]
  constructor
  · intro hc
    have hgrounded : t.overlay.Grounded t.base := fun q hq => h q .removed hq
    exact hgrounded.diff_ne_nil hb (Bool.not_eq_true' _ ▸ hc)
  · intro hdiff
    by_contra hc
    exact hdiff (t.diff_eq_nil (Bool.eq_false_iff.mpr hc))

/-- An overlay keeps what makes a difference to the base and nothing else. What is pending for a key follows from
the base and from the last call on the key since the start or the last revert, so calls on different keys can change
places and earlier ones on a key leave no trace. -/
theorem pending_eq_due (origin : Pinned K V) (hb : Ascending origin.snapshot.toList) (cs : List (Call K V)) :
    ∃ answers t, (start origin).calls cs = .ok (answers, t) ∧ t.origin = origin ∧ t.status = .active ∧
      (∀ e ∈ t.overlay.ops.entries, Overlay.Alters e.2 (t.base.get? e.1)) ∧
      t.overlay.growth = (t.overlay.ops.entries.countP (Overlay.adds t.base) : Int) -
        t.overlay.ops.entries.countP (·.2.isRemoval) ∧
      0 ≤ (t.base.size : Int) + t.overlay.growth ∧
      (∀ q, t.overlay.ops.get? q = Pending.due (t.base.get? q) (latest q cs)) ∧
      (∀ c c' key key', c.key? = some key → c'.key? = some key' → compare key key' ≠ .eq →
        ∃ answer answer' t', t.calls [c, c'] = .ok ([answer, answer'], t') ∧
          t.calls [c', c] = .ok ([answer', answer], t')) ∧
      (∀ cs', (∀ q, latest q cs' = latest q cs) → ∃ answers' t', (start origin).calls cs' = .ok (answers', t') ∧
        (∀ q, t'.overlay.ops.get? q = t.overlay.ops.get? q) ∧ t'.overlay.growth = t.overlay.growth) ∧
      (t.hasChanges = true ↔ t.diff.next.1.isSome = true) := by
  have hrecalls (cs : List (Call K V)) := (Overlay.recalls_empty hb).performAll hb cs
  have h := hrecalls cs
  have halters := fun e he => h.effective.alters (e := e) he
  obtain ⟨m, hm⟩ := h.models
  refine ⟨_, _, calls_of_active (t := start origin) rfl cs, rfl, rfl, halters, ?growth, ?nonneg, h.pending, ?comm,
    fun cs' hlast => ?memory, hasChanges_iff hb h.effective⟩
  case growth => exact h.growth.trans (Overlay.tally_eq_counts halters)
  case nonneg => exact hm.size ▸ Int.natCast_nonneg m.size
  case comm =>
    intro c c' key key' hc hc' hne
    exact calls_comm (t := { start origin with overlay := _ }) hb rfl hc hc' hne
  case memory =>
    have h' := hrecalls cs'
    rw [show (fun q => cs'.foldl (Call.amend q) none) = fun q => cs.foldl (Call.amend q) none from funext hlast] at h'
    exact ⟨_, _, calls_of_active (t := start origin) rfl cs', h.congr hb h'⟩

theorem pending_eq_due_reset :
    let origin : Pinned Nat Nat := ⟨0, #[(1, 10), (3, 30)], 1⟩
    Ascending origin.snapshot.toList ∧
    ∃ answers t, (start origin).calls [.set 1 11, .remove 1, .set 5 50, .set 1 10, .remove 3, .tryRemove 4] =
        .ok (answers, t) ∧ t.origin = origin ∧ t.status = .active ∧
      (∀ e ∈ t.overlay.ops.entries, Overlay.Alters e.2 (t.base.get? e.1)) ∧
      t.overlay.growth = (t.overlay.ops.entries.countP (Overlay.adds t.base) : Int) -
        t.overlay.ops.entries.countP (·.2.isRemoval) ∧
      0 ≤ (t.base.size : Int) + t.overlay.growth ∧
      (∀ q, t.overlay.ops.get? q = Pending.due (t.base.get? q)
        (latest q [.set 1 11, .remove 1, .set 5 50, .set 1 10, .remove 3, .tryRemove 4])) ∧
      (∀ c c' key key', c.key? = some key → c'.key? = some key' → compare key key' ≠ .eq →
        ∃ answer answer' t', t.calls [c, c'] = .ok ([answer, answer'], t') ∧
          t.calls [c', c] = .ok ([answer', answer], t')) ∧
      (∀ cs', (∀ q, latest q cs' = latest q [.set 1 11, .remove 1, .set 5 50, .set 1 10, .remove 3, .tryRemove 4]) →
        ∃ answers' t', (start origin).calls cs' = .ok (answers', t') ∧
          (∀ q, t'.overlay.ops.get? q = t.overlay.ops.get? q) ∧ t'.overlay.growth = t.overlay.growth) ∧
      (t.hasChanges = true ↔ t.diff.next.1.isSome = true) :=
  ⟨by decide, pending_eq_due _ (by decide) _⟩

end Transaction

end VersionedMap
