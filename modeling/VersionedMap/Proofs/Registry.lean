import VersionedMap.Proofs.Deliveries
import Mathlib.Data.List.Perm.Basic
import Mathlib.Data.List.Nodup
import Mathlib.Tactic.Tauto

namespace VersionedMap

/-- Which handlers a signal has, in connection order, and which subscriptions exist. A subscription
exists until it is dropped; then it is retired, and its handler is removed when the list is settled. -/
structure Registry where
  ids : List Nat
  live : List Nat
  retired : List Nat

namespace Registry

variable {r r' r'' : Registry} {bound : Nat}

structure WellFormed (bound : Nat) (r : Registry) : Prop where
  below : ∀ id ∈ r.ids, id < bound
  distinct : r.ids.Nodup
  once : (r.live ++ r.retired).Nodup
  connected : ∀ id ∈ r.live ++ r.retired, id ∈ r.ids

def listening (r : Registry) : List Nat :=
  r.ids.filter (· ∉ r.retired)

def lost (r r' : Registry) : List Nat :=
  r.live.filter (· ∉ r'.live)

/-- Some subscriptions are dropped and the handlers of some retired ones removed. -/
structure Sheds (r r' : Registry) (dropped gone : List Nat) : Prop where
  live : r.live.Perm (dropped ++ r'.live)
  retired : (r.retired ++ dropped).Perm (gone ++ r'.retired)
  ids : r'.ids = r.ids.diff gone

theorem sheds_of_perm (hi : r'.ids = r.ids) (hl : r.live.Perm r'.live) (hr : r'.retired = r.retired) :
    r.Sheds r' [] [] := by
  refine ⟨hl, ?_, hi⟩
  rw [hr, List.append_nil]
  exact .refl _

theorem Sheds.trans {dropped gone dropped' gone' : List Nat} (h : r.Sheds r' dropped gone)
    (h' : r'.Sheds r'' dropped' gone') : r.Sheds r'' (dropped ++ dropped') (gone ++ gone') := by
  refine ⟨?_, ?_, ?_⟩
  · rw [List.append_assoc]
    exact h.live.trans (h'.live.append_left dropped)
  · rw [← List.append_assoc, List.append_assoc gone]
    apply (h.retired.append_right dropped').trans
    rw [List.append_assoc]
    exact h'.retired.append_left gone
  · rw [h'.ids, h.ids, List.diff_append]

variable {dropped gone : List Nat}

theorem Sheds.mem_ids (hw : r.WellFormed bound) (h : r.Sheds r' dropped gone) (id : Nat) :
    id ∈ r'.ids ↔ id ∈ r.ids ∧ id ∉ gone := by
  rw [h.ids, hw.distinct.mem_sdiff_iff]

theorem Sheds.wellFormed (hw : r.WellFormed bound) (h : r.Sheds r' dropped gone) : r'.WellFormed bound := by
  -- every subscription is still accounted for: its handler is gone, or it exists, or it is retired
  have hall : (r.live ++ r.retired).Perm (gone ++ (r'.live ++ r'.retired)) := by
    apply (h.live.append_right _).trans
    rw [List.append_assoc]
    apply List.perm_append_comm.trans
    rw [List.append_assoc]
    exact (h.retired.append_left _).trans (List.perm_append_comm_assoc _ _ _)
  have honce := hall.nodup hw.once
  refine ⟨?_, ?_, (List.nodup_append.1 honce).2.1, ?_⟩
  · intro id hid
    exact hw.below id ((h.mem_ids hw id).1 hid).1
  · rw [h.ids]
    exact hw.distinct.diff
  · intro id hid
    refine (h.mem_ids hw id).2 ⟨hw.connected id (hall.mem_iff.2 (List.mem_append_right _ hid)), ?_⟩
    intro hg
    exact (List.nodup_append.1 honce).2.2 id hg id hid rfl

theorem mem_lost {id : Nat} : id ∈ r.lost r' ↔ id ∈ r.live ∧ id ∉ r'.live := by
  rw [lost, List.mem_filter, decide_eq_true_iff]

theorem Sheds.mem_lost (hw : r.WellFormed bound) (h : r.Sheds r' dropped gone) {id : Nat} :
    id ∈ r.lost r' ↔ id ∈ dropped := by
  have hn := h.live.nodup (List.nodup_append.1 hw.once).1
  rw [Registry.mem_lost, h.live.mem_iff, List.mem_append]
  constructor
  · rintro ⟨hd | hl, hn⟩
    · exact hd
    · exact absurd hl hn
  · intro hd
    refine ⟨.inl hd, ?_⟩
    intro hl
    exact (List.nodup_append.1 hn).2.2 id hd id hl rfl

theorem filter_filter_notMem (ids gone retired : List Nat) :
    (ids.filter (· ∉ gone)).filter (· ∉ retired) = ids.filter (· ∉ gone ++ retired) := by
  rw [List.filter_filter]
  apply List.filter_congr
  intro id _
  simp only [List.mem_append, not_or, Bool.decide_and]
  exact Bool.and_comm _ _

theorem Sheds.listening (hw : r.WellFormed bound) (h : r.Sheds r' dropped gone) :
    r'.listening = r.listening.filter (· ∉ r.lost r') := by
  rw [Registry.listening, Registry.listening, h.ids, hw.distinct.sdiff_eq_filter, filter_filter_notMem]
  rw [filter_filter_notMem]
  apply List.filter_congr
  intro id _
  have hiff : id ∈ gone ++ r'.retired ↔ id ∈ r.retired ++ r.lost r' := by
    rw [← h.retired.mem_iff, List.mem_append, List.mem_append, h.mem_lost hw]
  simp only [hiff]

def join (r : Registry) (id : Nat) : Registry :=
  ⟨r.ids ++ [id], id :: r.live, r.retired⟩

theorem WellFormed.join (hw : r.WellFormed bound) : (r.join bound).WellFormed (bound + 1) := by
  have hfresh : bound ∉ r.ids := fun hb => Nat.lt_irrefl _ (hw.below bound hb)
  refine ⟨?_, ?_, ?_, ?_⟩
  · intro id hid
    rcases List.mem_append.1 hid with hid | hid
    · exact Nat.lt_succ_of_lt (hw.below id hid)
    · exact (List.mem_singleton.1 hid).symm ▸ Nat.lt_succ_self _
  · exact List.nodup_append.2 ⟨hw.distinct, List.nodup_singleton _, fun a ha b hb hab =>
      hfresh (List.mem_singleton.1 hb ▸ hab ▸ ha)⟩
  · exact List.nodup_cons.2 ⟨fun hb => hfresh (hw.connected bound hb), hw.once⟩
  · intro id hid
    rcases List.mem_cons.1 hid with hid | hid
    · exact List.mem_append_right _ (List.mem_singleton.2 hid)
    · exact List.mem_append_left _ (hw.connected id hid)

theorem WellFormed.listening_join (hw : r.WellFormed bound) :
    (r.join bound).listening = r.listening ++ [bound] := by
  have hfresh : bound ∉ r.retired := fun hb =>
    Nat.lt_irrefl _ (hw.below bound (hw.connected bound (List.mem_append_right _ hb)))
  rw [Registry.listening, Registry.join, List.filter_append, List.filter_singleton]
  simp only [hfresh, not_false_eq_true, decide_true, cond_true]
  rfl

variable {dropped' gone' : List Nat}

theorem mem_lost_of_join (hw : r.WellFormed bound) (h : r.Sheds r' dropped gone)
    (h' : (r'.join bound).Sheds r'' dropped' gone') {id : Nat} (hid : id ∈ r.ids) :
    id ∈ r.lost r'' ↔ id ∈ r.lost r' ∨ id ∈ (r'.join bound).lost r'' := by
  have hne : id ≠ bound := Nat.ne_of_lt (hw.below id hid)
  have hlive : id ∈ (r'.join bound).live ↔ id ∈ r'.live := by
    rw [join, List.mem_cons, or_iff_right hne]
  have hbefore : id ∈ r'.live → id ∈ r.live := fun hl => h.live.mem_iff.2 (List.mem_append_right _ hl)
  have hafter : id ∈ r''.live → id ∈ r'.live := fun hl =>
    hlive.1 (h'.live.mem_iff.2 (List.mem_append_right _ hl))
  rw [mem_lost, mem_lost, mem_lost, hlive]
  tauto

/-- A new handler hears of later changes when it was not dropped at once. -/
theorem listening_of_join (hw : r.WellFormed bound) (h : r.Sheds r' dropped gone)
    (h' : (r'.join bound).Sheds r'' dropped' gone') (hlive : bound ∈ r''.live) :
    r''.listening = r.listening.filter (· ∉ r.lost r'') ++ [bound] := by
  have hw' := h.wellFormed hw
  have hstays : bound ∉ (r'.join bound).lost r'' := fun hb => (mem_lost.1 hb).2 hlive
  rw [h'.listening hw'.join, hw'.listening_join, List.filter_append, h.listening hw, List.filter_singleton,
    List.filter_filter]
  congr 1
  · apply List.filter_congr
    intro id hid
    simp only [mem_lost_of_join hw h h' (List.mem_filter.1 hid).1, not_or, Bool.decide_and]
    exact Bool.and_comm _ _
  · simp only [hstays, not_false_eq_true, decide_true, cond_true]

end Registry

end VersionedMap
