import VersionedMap.EntryDiff
import VersionedMap.Proofs.Alternation

namespace VersionedMap

variable {K V : Type} [Ord K] [Std.TransOrd K]

namespace EntryDiff

variable [BEq V] {source target : List (K × V)}

/-- On each key the changes replace the old entry by the new one, unless their values are equal. -/
theorem on_changes (hs : Ascending source) (ht : Ascending target) (q : K) :
    (changes source target).on q =
      if (entryAt source q).map (·.2) == (entryAt target q).map (·.2) then []
      else Changes.replacing (entryAt source q) (entryAt target q) := by
  fun_induction changes source target with
  | case1 target =>
      rw [Changes.on_map_of_distinct ht.distinct .added]
      cases entryAt target q <;> rfl
  | case2 source _ =>
      rw [Changes.on_map_of_distinct hs.distinct .removed]
      cases entryAt source q <;> rfl
  | case3 a source b target hab ih =>
      have ih := ih hs.of_cons ht
      by_cases hq : compare a.1 q = .eq
      · have hnone : entryAt (b :: target) q = none := ht.entryAt_below (by rwa [← Std.TransCmp.congr_left hq])
        rw [hs.distinct.entryAt_tail hq, hnone] at ih
        rw [Changes.on_cons_same hq, entryAt_cons_same hq, hnone, ih]
        rfl
      · rw [Changes.on_cons_other hq, entryAt_cons_other hq, ih]
  | case4 a source b target hab ih =>
      have ih := ih hs ht.of_cons
      by_cases hq : compare b.1 q = .eq
      · have hba := Std.OrientedCmp.lt_of_gt hab
        have hnone : entryAt (a :: source) q = none := hs.entryAt_below (by rwa [← Std.TransCmp.congr_left hq])
        rw [ht.distinct.entryAt_tail hq, hnone] at ih
        rw [Changes.on_cons_same hq, entryAt_cons_same hq, hnone, ih]
        rfl
      · rw [Changes.on_cons_other hq, entryAt_cons_other hq, ih]
  | case5 a source b target hab heq ih =>
      have ih := ih hs.of_cons ht.of_cons
      by_cases hq : compare a.1 q = .eq
      · have hbq : compare b.1 q = .eq := Std.TransCmp.eq_trans (Std.OrientedCmp.eq_symm hab) hq
        rw [hs.distinct.entryAt_tail hq, ht.distinct.entryAt_tail hbq] at ih
        rw [entryAt_cons_same hq, entryAt_cons_same hbq, ih]
        simp [heq]
      · have hbq : compare b.1 q ≠ .eq := fun h => hq (Std.TransCmp.eq_trans hab h)
        rw [entryAt_cons_other hq, entryAt_cons_other hbq, ih]
  | case6 a source b target hab hne ih =>
      have ih := ih hs.of_cons ht.of_cons
      by_cases hq : compare a.1 q = .eq
      · have hbq : compare b.1 q = .eq := Std.TransCmp.eq_trans (Std.OrientedCmp.eq_symm hab) hq
        rw [hs.distinct.entryAt_tail hq, ht.distinct.entryAt_tail hbq] at ih
        rw [Changes.on_cons_same hq, Changes.on_cons_same hbq, entryAt_cons_same hq, entryAt_cons_same hbq, ih]
        simp [hne, Changes.replacing]
      · have hbq : compare b.1 q ≠ .eq := fun h => hq (Std.TransCmp.eq_trans hab h)
        rw [Changes.on_cons_other hq, Changes.on_cons_other hbq, entryAt_cons_other hq, entryAt_cons_other hbq, ih]

end EntryDiff

namespace SortedMap

variable [BEq V]

/-- The entry that stays when a map is to get `entry`: its own, if that has an equal value. -/
def retained (m : SortedMap K V) (entry : K × V) : K × V :=
  match m.lookup? entry.1 with
  | some old => if old.2 == entry.2 then old else entry
  | none => entry

theorem compare_retained (m : SortedMap K V) (e : K × V) : compare (m.retained e).1 e.1 = .eq := by
  rw [retained]
  cases hold : m.lookup? e.1 with
  | none => exact Std.ReflCmp.compare_self
  | some old =>
      dsimp only
      split
      · exact compare_of_entryAt hold
      · exact Std.ReflCmp.compare_self

omit [Std.TransOrd K] in
theorem retained_eq_self [Std.LawfulEqOrd K] [LawfulBEq V] (m : SortedMap K V) (e : K × V) : m.retained e = e := by
  rw [retained]
  cases hold : m.lookup? e.1 with
  | none => rfl
  | some old =>
      dsimp only
      split
      · have hkey := compare_of_entryAt hold
        exact Prod.ext (Std.LawfulEqOrd.eq_of_compare hkey) (eq_of_beq ‹_›)
      · rfl

variable (a b : SortedMap K V)

theorem on_diffEntries (q : K) :
    (diffEntries a.entries b.entries).on q =
      if a.get? q == b.get? q then [] else Changes.replacing (a.lookup? q) (b.lookup? q) :=
  EntryDiff.on_changes a.ascending b.ascending q

theorem replay_difference :
    ∃ m, a.replay (diffEntries a.entries b.entries) = (m, none) ∧
      ∀ q, m.lookup? q = (b.lookup? q).map a.retained := by
  refine replay_of_replacing fun q => ?_
  have hon := a.on_diffEntries b q
  have hretained {e : K × V} (he : b.lookup? q = some e) :
      a.retained e = match a.lookup? q with
        | some old => if old.2 == e.2 then old else e
        | none => e := by
    have hkey := compare_of_entryAt he
    rw [retained, a.lookup?_congr hkey]
  rw [get?, get?] at hon
  rw [hon]
  cases hold : a.lookup? q with
  | none =>
      cases hnew : b.lookup? q with
      | none => exact .inl rfl
      | some e => simp [hretained hnew, hold]
  | some old =>
      cases hnew : b.lookup? q with
      | none => exact .inl rfl
      | some e =>
          cases heq : old.2 == e.2 with
          | true => simp [hretained hnew, hold, heq]
          | false => simp [hretained hnew, hold, heq]

theorem entries_retained {m : SortedMap K V} (h : ∀ q, m.lookup? q = (b.lookup? q).map a.retained) :
    m.entries = b.entries.map a.retained := by
  have hascending : Ascending (b.entries.map a.retained) := by
    refine List.pairwise_map.mpr (b.ascending.imp fun {d e} hde => ?_)
    rwa [Std.TransCmp.congr_left (a.compare_retained d), Std.TransCmp.congr_right (a.compare_retained e)]
  refine m.ascending.eq_of_entryAt hascending fun q => ?_
  have hkeys : (fun e => sameKey (a.retained e).1 q) = fun e : K × V => sameKey e.1 q := by
    funext e
    rw [sameKey, sameKey, Std.TransCmp.congr_left (a.compare_retained e)]
  have hmapped : entryAt (b.entries.map a.retained) q = (b.lookup? q).map a.retained := by
    rw [entryAt, List.find?_map, Function.comp_def, hkeys]
    rfl
  exact (h q).trans hmapped.symm

theorem replay_difference_eq [Std.LawfulEqOrd K] [LawfulBEq V] :
    a.replay (diffEntries a.entries b.entries) = (b, none) := by
  obtain ⟨m, hreplay, hlookup⟩ := a.replay_difference b
  have hself : a.retained = id := funext a.retained_eq_self
  have hm : m = b := ext_lookup? fun q => by rw [hlookup, hself, Option.map_id, id]
  rw [hreplay, hm]

/-- Comparing two maps finds changes that can be replayed on the first. This gives it the keys of the second, and
under each key the second's entry, or its own where that has an equal value. -/
theorem replay_diffEntries :
    Walk.Yields EntryDiff.next (.start a.entries b.entries) (diffEntries a.entries b.entries) ∧
    ∃ m, a.replay (diffEntries a.entries b.entries) = (m, none) ∧
      (∀ q, m.contains q = b.contains q) ∧ m.entries = b.entries.map a.retained ∧
      (Std.LawfulEqOrd K → LawfulBEq V → m = b) := by
  obtain ⟨m, hreplay, hlookup⟩ := a.replay_difference b
  refine ⟨EntryDiff.shows_toList.yields _, m, hreplay, fun q => ?_, a.entries_retained b hlookup, fun _ _ => ?_⟩
  · rw [contains, hlookup, Option.isSome_map, contains]
  · rw [replay_difference_eq] at hreplay
    exact (Prod.mk.inj hreplay).1.symm

theorem replay_diffEntries_respelled :
    -- one value that does not equal itself, and others that equal each other
    let _ : BEq Nat := ⟨fun m n => m != 0 && m / 10 == n / 10⟩
    let a : SortedMap (Ranked (compareOn (· % 10 : Nat → Nat))) Nat :=
      ⟨[((11 : Nat), 0), ((12 : Nat), 25), ((14 : Nat), 40)], by decide⟩
    let b : SortedMap (Ranked (compareOn (· % 10 : Nat → Nat))) Nat :=
      ⟨[((21 : Nat), 0), ((22 : Nat), 26), ((23 : Nat), 30)], by decide⟩
    let c : SortedMap Nat Bool := ⟨[(1, true), (2, false)], by decide⟩
    let d : SortedMap Nat Bool := ⟨[(2, true), (3, true)], by decide⟩
    Walk.Yields EntryDiff.next (.start a.entries b.entries) (diffEntries a.entries b.entries) ∧
    (∃ m, a.replay (diffEntries a.entries b.entries) = (m, none) ∧
      (∀ q, m.contains q = b.contains q) ∧ m.entries = ([(21, 0), (12, 25), (23, 30)] : List (Nat × Nat))) ∧
    c.replay (diffEntries c.entries d.entries) = (d, none) := by
  intro _ a b c d
  obtain ⟨hyields, m, hreplay, hkeys, hentries, _⟩ := replay_diffEntries a b
  obtain ⟨_, n, hreplay', _, _, hsame⟩ := replay_diffEntries c d
  have hn : n = d := hsame inferInstance inferInstance
  exact ⟨hyields, ⟨m, hreplay, hkeys, hentries⟩, hn ▸ hreplay'⟩

end SortedMap

end VersionedMap
