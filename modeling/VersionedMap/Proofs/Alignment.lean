import VersionedMap.EntryDiff
import VersionedMap.ItemDiff
import VersionedMap.Proofs.WalkSteps
import Mathlib.Data.List.Basic

namespace VersionedMap

variable {α K V : Type}

def without (positions : List Nat) (items : List α) : List α :=
  (items.zipIdx.filter (·.2 ∉ positions)).map (·.1)

/-- Pairs of positions, rising on both sides, that hold items to be paired off. -/
structure Aligns (same : α → α → Prop) (source target : List α) (pairs : List (Nat × Nat)) : Prop where
  rising : pairs.Pairwise fun p q => p.1 < q.1 ∧ p.2 < q.2
  paired : ∀ p ∈ pairs, ∃ a b, source[p.1]? = some a ∧ target[p.2]? = some b ∧ same a b

/-- The changes remove what is left of one side and add what is left of the other when positions are aligned. -/
def Changes.LeftOver (same : α → α → Prop) (source target : List α) (changes : Changes α) : Prop :=
  ∃ pairs, Aligns same source target pairs ∧ changes.removals = without (pairs.map (·.1)) source ∧
    changes.additions = without (pairs.map (·.2)) target

theorem without_cons (positions : List Nat) (a : α) (items : List α) : without positions (a :: items) =
    (if 0 ∈ positions then [] else [a]) ++ (items.zipIdx.filter (·.2 + 1 ∉ positions)).map (·.1) := by
  rw [without, List.zipIdx_cons, List.zipIdx_succ, List.filter_cons]
  split <;> simp_all [List.filter_map, Function.comp_def]

theorem without_shift (positions : List Nat) (a : α) (items : List α) :
    without (positions.map (· + 1)) (a :: items) = a :: without positions items := by
  rw [without_cons, without]
  simp

theorem without_zero_shift (positions : List Nat) (a : α) (items : List α) :
    without (0 :: positions.map (· + 1)) (a :: items) = without positions items := by
  rw [without_cons, without]
  simp

namespace Changes.LeftOver

variable {same : α → α → Prop} {source target : List α} {cs : Changes α}

theorem removed (h : cs.LeftOver same source target) (a : α) :
    LeftOver same (a :: source) target (.removed a :: cs) := by
  obtain ⟨pairs, haligns, hremovals, hadditions⟩ := h
  have hsources : (pairs.map fun p => (p.1 + 1, p.2)).map (·.1) = (pairs.map (·.1)).map (· + 1) := by simp
  have htargets : (pairs.map fun p => (p.1 + 1, p.2)).map (·.2) = pairs.map (·.2) := by simp
  refine ⟨pairs.map fun p => (p.1 + 1, p.2), ⟨?_, ?_⟩, ?_, ?_⟩
  · exact List.pairwise_map.mpr (haligns.rising.imp fun ⟨hi, hj⟩ => ⟨Nat.succ_lt_succ hi, hj⟩)
  · exact List.forall_mem_map.mpr haligns.paired
  · rw [hsources, without_shift, ← hremovals]
    rfl
  · rw [htargets, ← hadditions]
    rfl

theorem added (h : cs.LeftOver same source target) (b : α) :
    LeftOver same source (b :: target) (.added b :: cs) := by
  obtain ⟨pairs, haligns, hremovals, hadditions⟩ := h
  have hsources : (pairs.map fun p => (p.1, p.2 + 1)).map (·.1) = pairs.map (·.1) := by simp
  have htargets : (pairs.map fun p => (p.1, p.2 + 1)).map (·.2) = (pairs.map (·.2)).map (· + 1) := by simp
  refine ⟨pairs.map fun p => (p.1, p.2 + 1), ⟨?_, ?_⟩, ?_, ?_⟩
  · exact List.pairwise_map.mpr (haligns.rising.imp fun ⟨hi, hj⟩ => ⟨hi, Nat.succ_lt_succ hj⟩)
  · exact List.forall_mem_map.mpr haligns.paired
  · rw [hsources, ← hremovals]
    rfl
  · rw [htargets, without_shift, ← hadditions]
    rfl

theorem paired (h : cs.LeftOver same source target) {a b : α} (hab : same a b) :
    LeftOver same (a :: source) (b :: target) cs := by
  obtain ⟨pairs, haligns, hremovals, hadditions⟩ := h
  have hsources : (pairs.map fun p => (p.1 + 1, p.2 + 1)).map (·.1) = (pairs.map (·.1)).map (· + 1) := by simp
  have htargets : (pairs.map fun p => (p.1 + 1, p.2 + 1)).map (·.2) = (pairs.map (·.2)).map (· + 1) := by simp
  refine ⟨(0, 0) :: pairs.map fun p => (p.1 + 1, p.2 + 1), ⟨?_, ?_⟩, ?_, ?_⟩
  · refine List.pairwise_cons.mpr ⟨List.forall_mem_map.mpr fun p _ => ⟨Nat.succ_pos _, Nat.succ_pos _⟩, ?_⟩
    exact List.pairwise_map.mpr (haligns.rising.imp fun ⟨hi, hj⟩ => ⟨Nat.succ_lt_succ hi, Nat.succ_lt_succ hj⟩)
  · exact List.forall_mem_cons.mpr ⟨⟨a, b, rfl, rfl, hab⟩, List.forall_mem_map.mpr haligns.paired⟩
  · rw [List.map_cons, hsources, without_zero_shift, hremovals]
  · rw [List.map_cons, htargets, without_zero_shift, hadditions]

end Changes.LeftOver

/-- Changes read off two sides from the left: an item is removed, an item is added, or one is paired off on each
side. -/
inductive EditScript (same : α → α → Prop) : List α → List α → Changes α → Prop
  | nil : EditScript same [] [] []
  | removed {source target changes} (a : α) (rest : EditScript same source target changes) :
    EditScript same (a :: source) target (.removed a :: changes)
  | added {source target changes} (b : α) (rest : EditScript same source target changes) :
    EditScript same source (b :: target) (.added b :: changes)
  | paired {source target changes a b} (h : same a b) (rest : EditScript same source target changes) :
    EditScript same (a :: source) (b :: target) changes

namespace EditScript

variable {same : α → α → Prop} {source target source' target' : List α} {cs cs' : Changes α}

theorem removals_only (source : List α) : EditScript same source [] (source.map .removed) := by
  induction source with
  | nil => exact .nil
  | cons a source ih => exact .removed a ih

theorem additions_only (target : List α) : EditScript same [] target (target.map .added) := by
  induction target with
  | nil => exact .nil
  | cons b target ih => exact .added b ih

theorem append (h : EditScript same source target cs) (h' : EditScript same source' target' cs') :
    EditScript same (source ++ source') (target ++ target') (cs ++ cs') := by
  induction h with
  | nil => exact h'
  | removed a _ ih => exact .removed a ih
  | added b _ ih => exact .added b ih
  | paired hab _ ih => exact .paired hab ih

theorem length_le (h : EditScript same source target cs) : cs.length ≤ source.length + target.length := by
  induction h with
  | nil => exact Nat.zero_le _
  | removed | added | paired =>
      simp only [List.length_cons]
      omega

theorem leftOver (h : EditScript same source target cs) : cs.LeftOver same source target := by
  induction h with
  | nil => exact ⟨[], ⟨.nil, nofun⟩, rfl, rfl⟩
  | removed a _ ih => exact ih.removed a
  | added b _ ih => exact ih.added b
  | paired hab _ ih => exact ih.paired hab

end EditScript

namespace ItemDiff

theorem ends_toList : Walk.Ends (next (α := α)) toList := by
  intro d hd
  have hnone : d.next.1 = none := by rw [shows_toList.head?, hd]; rfl
  unfold next at hnone ⊢
  split at hnone
  · simp [*, toList]
  · cases hnone
  · cases hnone
  · split at hnone <;> cases hnone

theorem editScript_changes (order : α → α → Ordering) (source target : List α) :
    EditScript (order · · = .eq) source target (changes order source target) := by
  fun_induction changes order source target with
  | case1 target => exact .additions_only target
  | case2 source _ => exact .removals_only source
  | case3 a source b target _ ih => exact .removed a ih
  | case4 a source b target _ ih => exact .added b ih
  | case5 a source b target hab ih => exact .paired hab ih

theorem editScript_skipEqual (order : α → α → Ordering) (source target : List α) :
    ∃ used used', source = used ++ (skipEqual order source target).1 ∧
      target = used' ++ (skipEqual order source target).2 ∧ EditScript (order · · = .eq) used used' [] := by
  fun_induction skipEqual order source target with
  | case1 a source b target hab ih =>
      obtain ⟨used, used', hsource, htarget, hscript⟩ := ih
      exact ⟨a :: used, b :: used', congrArg (a :: ·) hsource, congrArg (b :: ·) htarget, .paired hab hscript⟩
  | case2 => exact ⟨[], [], rfl, rfl, .nil⟩
  | case3 => exact ⟨[], [], rfl, rfl, .nil⟩

theorem editScript_next (d : ItemDiff α) : d.next.2.order = d.order ∧
    ∃ used used', d.source = used ++ d.next.2.source ∧ d.target = used' ++ d.next.2.target ∧
      EditScript (d.order · · = .eq) used used' d.next.1.toList := by
  obtain ⟨used, used', hsource, htarget, hscript⟩ := editScript_skipEqual d.order d.source d.target
  have hread (more more' : List α) {rest rest' : List α} {cs : Changes α}
      (hskipped : skipEqual d.order d.source d.target = (more ++ rest, more' ++ rest'))
      (hmore : EditScript (d.order · · = .eq) more more' cs) :
      ∃ used used', d.source = used ++ rest ∧ d.target = used' ++ rest' ∧
        EditScript (d.order · · = .eq) used used' cs := by
    rw [hskipped, ← List.append_assoc] at hsource htarget
    exact ⟨used ++ more, used' ++ more', hsource, htarget, hscript.append hmore⟩
  unfold next
  split <;> rename_i hskipped
  · exact ⟨rfl, hread [] [] hskipped .nil⟩
  · rename_i a source
    exact ⟨rfl, hread [a] [] hskipped (.removed a .nil)⟩
  · rename_i b target
    exact ⟨rfl, hread [] [b] hskipped (.added b .nil)⟩
  · rename_i a source b target
    split
    · exact ⟨rfl, hread [a] [] hskipped (.removed a .nil)⟩
    · exact ⟨rfl, hread [] [b] hskipped (.added b .nil)⟩

theorem editScript_after (steps : Nat) (d : ItemDiff α) : (Walk.after next steps d).order = d.order ∧
    ∃ used used', d.source = used ++ (Walk.after next steps d).source ∧
      d.target = used' ++ (Walk.after next steps d).target ∧
      EditScript (d.order · · = .eq) used used' (d.toList.take steps) := by
  induction steps generalizing d with
  | zero => exact ⟨rfl, [], [], rfl, rfl, .nil⟩
  | succ steps ih =>
      obtain ⟨horder, used, used', hsource, htarget, hscript⟩ := d.editScript_next
      obtain ⟨horder', more, more', hsource', htarget', hscript'⟩ := ih d.next.2
      rw [horder] at hscript' horder'
      have htaken : d.toList.take (steps + 1) = d.next.1.toList ++ d.next.2.toList.take steps := by
        rw [shows_toList.head?, shows_toList.tail ends_toList]
        cases d.toList with
        | nil => simp
        | cons c cs => rfl
      refine ⟨horder', used ++ more, used' ++ more', ?_, ?_, ?_⟩
      · rw [hsource, hsource', List.append_assoc]
        rfl
      · rw [htarget, htarget', List.append_assoc]
        rfl
      · rw [htaken]
        exact hscript.append hscript'

end ItemDiff

namespace EntryDiff

variable [Ord K] [BEq V]

theorem ends_toList : Walk.Ends (next (K := K) (V := V)) toList := by
  intro d hd
  have hnone : d.next.1 = none := by rw [shows_toList.head?, hd]; rfl
  unfold next at hnone ⊢
  split at hnone
  · cases hnone
  · split at hnone
    · simp [*, toList]
    · cases hnone
    · cases hnone
    · split at hnone <;> cases hnone

theorem editScript_changes (source target : List (K × V)) :
    EditScript (fun a b => compare a.1 b.1 = .eq ∧ (a.2 == b.2) = true) source target (changes source target) := by
  fun_induction changes source target with
  | case1 target => exact .additions_only target
  | case2 source _ => exact .removals_only source
  | case3 a source b target _ ih => exact .removed a ih
  | case4 a source b target _ ih => exact .added b ih
  | case5 a source b target hab heq ih => exact .paired ⟨hab, heq⟩ ih
  | case6 a source b target _ _ ih => exact .removed a (.added b ih)

end EntryDiff

/-- Differences lose and invent nothing, in whatever order the two sides are and however their items compare. Some
positions with items that compare equal are aligned; what is removed and what is added is the rest of either side, in
its order. So it is of what was read at any moment, and no more changes follow then than items are left. As items may
carry their positions, a comparison need not answer the same when it meets the same items again. -/
theorem differences_lose_nothing [Ord K] [BEq V] (order : α → α → Ordering) (source target : List α)
    (old new : List (K × V)) :
    (let start : ItemDiff α := ⟨order, source, target⟩
      let changes := diffBy order source target
      Walk.HandsOut ItemDiff.next start changes ∧ changes.LeftOver (order · · = .eq) source target ∧
      ∀ steps, let d := Walk.after ItemDiff.next steps start
        Walk.HandsOut ItemDiff.next d (changes.drop steps) ∧
        (∃ used used', source = used ++ d.source ∧ target = used' ++ d.target ∧
          Changes.LeftOver (order · · = .eq) used used' (changes.take steps)) ∧
        d.sizeHint = (0, d.source.length + d.target.length) ∧ (changes.drop steps).length ≤ d.sizeHint.2) ∧
    let changes := diffEntries old new
    Walk.HandsOut EntryDiff.next (.start old new) changes ∧
      changes.LeftOver (fun a b => compare a.1 b.1 = .eq ∧ (a.2 == b.2) = true) old new := by
  refine ⟨⟨?_, ?_, fun steps => ?_⟩, ?_, ?_⟩
  · exact ItemDiff.shows_toList.handsOut ItemDiff.ends_toList _
  · exact (ItemDiff.editScript_changes order source target).leftOver
  · intro d
    have hview : d.toList = (diffBy order source target).drop steps :=
      ItemDiff.shows_toList.after ItemDiff.ends_toList steps _
    obtain ⟨_, used, used', hsource, htarget, hscript⟩ :=
      ItemDiff.editScript_after steps ⟨order, source, target⟩
    rw [← hview]
    exact ⟨ItemDiff.shows_toList.handsOut ItemDiff.ends_toList d,
      ⟨used, used', hsource, htarget, hscript.leftOver⟩, rfl,
      (ItemDiff.editScript_changes d.order d.source d.target).length_le⟩
  · exact EntryDiff.shows_toList.handsOut EntryDiff.ends_toList _
  · exact (EntryDiff.editScript_changes old new).leftOver

example : diffBy (fun a b : Nat × Char => if (a.1 + b.1) % 2 = 0 then .lt else .eq)
    [(0, 'x'), (1, 'x')] [(0, 'x'), (1, 'x')] = [.removed (0, 'x'), .added (1, 'x')] := by
  cbv

end VersionedMap
