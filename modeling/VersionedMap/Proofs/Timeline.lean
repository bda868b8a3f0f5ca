import VersionedMap.Proofs.Subscriptions

namespace VersionedMap

/-- A subscription comes or goes, or changes are emitted; an emission begins when its changes are about
to be made. -/
inductive Moment (α : Type) where
  | joined (id : Nat) (populate : Changes α)
  | left (id : Nat)
  | emitted (changes : Changes α)

namespace Moment

variable {α : Type}

def joined? : Moment α → Option Nat
  | joined id _ => some id
  | _ => none

/-- Nobody hears of an emission without changes. -/
def emission? : Moment α → Option (Changes α)
  | emitted changes => if changes.isEmpty then none else some changes
  | _ => none

def isLeft (id : Nat) : Moment α → Bool
  | left other => other == id
  | _ => false

def audience (ids : List Nat) : Moment α → List Nat
  | joined id _ => ids ++ [id]
  | left id => ids.filter (· ≠ id)
  | emitted _ => ids

def heard (ids : List Nat) : Moment α → List (Nat × Changes α)
  | joined id populate => [(id, populate)]
  | left _ => []
  | emitted changes => if changes.isEmpty then [] else ids.map (·, changes)

/-- What is received over time, from an audience on. -/
def scheduled (ids : List Nat) : List (Moment α) → List (Nat × Changes α)
  | [] => []
  | m :: ms => m.heard ids ++ scheduled (m.audience ids) ms

def joinedIds (ms : List (Moment α)) : List Nat :=
  ms.filterMap joined?

def emissions (ms : List (Moment α)) : List (Changes α) :=
  ms.filterMap emission?

theorem emissions_cons (m : Moment α) (ms : List (Moment α)) :
    emissions (m :: ms) = m.emission?.toList ++ emissions ms := by
  rw [emissions, List.filterMap_cons]
  cases m.emission? <;> rfl

theorem joinedIds_append (ms ms' : List (Moment α)) :
    joinedIds (ms ++ ms') = joinedIds ms ++ joinedIds ms' :=
  List.filterMap_append

theorem notMem_joinedIds_cons {id : Nat} {m : Moment α} {ms : List (Moment α)}
    (h : id ∉ joinedIds (m :: ms)) : m.joined? ≠ some id ∧ id ∉ joinedIds ms := by
  rw [joinedIds, List.mem_filterMap] at h
  refine ⟨fun hm => h ⟨m, List.mem_cons_self, hm⟩, ?_⟩
  intro hms
  obtain ⟨n, hn, hid⟩ := List.mem_filterMap.1 hms
  exact h ⟨n, List.mem_cons_of_mem m hn, hid⟩

theorem scheduled_append (ids : List Nat) (ms ms' : List (Moment α)) :
    scheduled ids (ms ++ ms') = scheduled ids ms ++ scheduled (ms.foldl audience ids) ms' := by
  induction ms generalizing ids with
  | nil => rfl
  | cons m ms ih =>
      rw [List.cons_append, scheduled, scheduled, ih, List.append_assoc]
      rfl

theorem scheduled_left (ids gone : List Nat) : scheduled ids (gone.map (left : Nat → Moment α)) = [] := by
  induction gone generalizing ids with
  | nil => rfl
  | cons id gone ih => exact ih _

theorem audience_left (ids gone : List Nat) :
    (gone.map (left : Nat → Moment α)).foldl audience ids = ids.filter (· ∉ gone) := by
  induction gone generalizing ids with
  | nil => exact (List.filter_eq_self.2 fun _ _ => rfl).symm
  | cons id gone ih =>
      rw [List.map_cons, List.foldl_cons, ih, audience, List.filter_filter]
      apply List.filter_congr
      intro other _
      simp only [List.mem_cons, not_or, ne_eq, Bool.decide_and]
      exact Bool.and_comm _ _

theorem joinedIds_left (gone : List Nat) : joinedIds (gone.map (left : Nat → Moment α)) = [] := by
  induction gone with
  | nil => rfl
  | cons id gone ih => exact ih

def share (id : Nat) (all : List (Nat × Changes α)) : List (Changes α) :=
  (all.filter (·.1 = id)).map (·.2)

theorem share_append (id : Nat) (all all' : List (Nat × Changes α)) :
    share id (all ++ all') = share id all ++ share id all' := by
  rw [share, List.filter_append, List.map_append]
  rfl

theorem share_map (id : Nat) (ids : List Nat) (changes : Changes α) :
    share id (ids.map (·, changes)) = List.replicate (ids.count id) changes := by
  induction ids with
  | nil => rfl
  | cons other ids ih =>
      rw [List.map_cons, share, List.filter_cons]
      by_cases ho : other = id
      · subst ho
        rw [if_pos (by simp), List.count_cons_self, List.replicate_succ, ← ih]
        rfl
      · rw [if_neg (by simpa using ho), List.count_cons_of_ne ho, ← ih]
        rfl

theorem share_heard (id : Nat) (ids : List Nat) (m : Moment α) (hj : m.joined? ≠ some id) :
    share id (m.heard ids) = m.emission?.toList.flatMap (List.replicate (ids.count id)) := by
  cases m with
  | joined other populate =>
      have ho : other ≠ id := fun h => hj (congrArg some h)
      rw [heard, share, List.filter_cons, if_neg (by simpa using ho)]
      rfl
  | left other => rfl
  | emitted changes =>
      rw [heard, emission?]
      split
      · rfl
      · rw [share_map, Option.toList_some, List.flatMap_singleton]

theorem count_audience {id : Nat} (ids : List Nat) {m : Moment α} (hj : m.joined? ≠ some id)
    (hl : m.isLeft id = false) : (m.audience ids).count id = ids.count id := by
  cases m with
  | joined other populate =>
      have ho : other ≠ id := fun h => hj (congrArg some h)
      rw [audience, List.count_append, List.count_singleton, if_neg (by simpa using ho)]
      rfl
  | left other =>
      rw [audience, List.count_filter]
      simpa using Ne.symm (beq_eq_false_iff_ne.1 hl)
  | emitted changes => rfl

theorem count_audience_left (ids : List Nat) (id : Nat) : (audience ids (left id : Moment α)).count id = 0 := by
  rw [audience, List.count_eq_zero, List.mem_filter]
  simp

theorem share_absent {id : Nat} {ids : List Nat} {ms : List (Moment α)} (hi : ids.count id = 0)
    (hj : id ∉ joinedIds ms) :
    share id (scheduled ids ms) = [] ∧ (ms.foldl audience ids).count id = 0 := by
  induction ms generalizing ids with
  | nil => exact ⟨rfl, hi⟩
  | cons m ms ih =>
      obtain ⟨hm, hms⟩ := notMem_joinedIds_cons hj
      have hcount : (m.audience ids).count id = 0 := by
        cases hl : m.isLeft id with
        | false => rw [count_audience ids hm hl, hi]
        | true =>
            cases m with
            | left other =>
                rw [beq_iff_eq.1 hl]
                exact count_audience_left ids id
            | joined | emitted => cases hl
      obtain ⟨hshare, hrest⟩ := ih hcount hms
      refine ⟨?_, hrest⟩
      rw [scheduled, share_append, hshare, share_heard id ids m hm, hi]
      cases m.emission? <;> rfl

theorem share_present {id : Nat} {ids : List Nat} {ms : List (Moment α)} (hi : ids.count id = 1)
    (hj : id ∉ joinedIds ms) :
    share id (scheduled ids ms) = emissions (ms.takeWhile (!isLeft id ·)) := by
  induction ms generalizing ids with
  | nil => rfl
  | cons m ms ih =>
      obtain ⟨hm, hms⟩ := notMem_joinedIds_cons hj
      rw [scheduled, share_append, share_heard id ids m hm, hi, List.takeWhile_cons]
      cases hl : m.isLeft id with
      | false =>
          rw [ih ((count_audience ids hm hl).trans hi) hms, Bool.not_false, if_pos rfl, emissions_cons]
          cases m.emission? <;> rfl
      | true =>
          cases m with
          | left other =>
              rw [beq_iff_eq.1 hl, (share_absent (count_audience_left ids id) hms).1]
              rfl
          | joined | emitted => cases hl

/-- The first set, and then the emissions between the two ends of a subscription. -/
theorem share_between {id : Nat} {populate : Changes α} {ids : List Nat} {before after : List (Moment α)}
    (hi : ids.count id = 0) (hd : (joinedIds (before ++ joined id populate :: after)).Nodup) :
    share id (scheduled ids (before ++ joined id populate :: after)) =
      populate :: emissions (after.takeWhile (!isLeft id ·)) := by
  rw [joinedIds_append] at hd
  obtain ⟨_, ha, hd⟩ := List.nodup_append.1 hd
  have hb : id ∉ joinedIds before := fun h => hd id h id List.mem_cons_self rfl
  obtain ⟨hbefore, hcount⟩ := share_absent hi hb
  have hjoined : ((joined id populate).audience (before.foldl audience ids)).count id = 1 := by
    rw [audience, List.count_append, hcount, List.count_singleton_self]
  rw [scheduled_append, share_append, hbefore, scheduled, share_append,
    share_present hjoined (List.nodup_cons.1 ha).1, heard, share, List.filter_cons, if_pos (by simp)]
  rfl

end Moment

end VersionedMap
