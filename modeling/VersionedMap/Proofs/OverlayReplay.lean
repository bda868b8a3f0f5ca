import VersionedMap.OverlayDiff
import VersionedMap.Proofs.Alternation
import VersionedMap.Proofs.MergedEntries

namespace VersionedMap

variable {K V : Type} [Ord K]

namespace OverlayDiff

def reports (entries : List (K × V)) (ops : List (K × Pending V)) : Changes (K × V) :=
  ops.flatMap fun e => report e.1 e.2 (entryAt entries e.1)

variable [Std.TransOrd K]

theorem locate_eq {base : Array (K × V)} (hb : Ascending base.toList) {start : Nat}
    (hstart : start ≤ base.size) {key : K}
    (hbefore : ∀ i, (_ : i < base.size) → i < start → compare base[i].1 key = .lt) :
    locate base start key = locate base 0 key := by
  have hturns : base.toList.Pairwise fun a b => compare b.1 key == .lt → compare a.1 key == .lt :=
    Snapshot.below_turns (s := ⟨base, 0⟩) hb key
  have hfront : ∀ e ∈ base.toList.take start, (compare e.1 key == .lt) = true := by
    intro e he
    obtain ⟨i, hi, rfl⟩ := List.getElem_of_mem he
    simp only [List.length_take, Array.length_toList] at hi
    simpa using hbefore i (by omega) (by omega)
  have hparts : (base.toList.takeWhile fun e => compare e.1 key == .lt) =
      base.toList.take start ++ (base.toList.drop start).takeWhile fun e => compare e.1 key == .lt := by
    rw [← List.takeWhile_append_of_pos hfront, List.take_append_drop]
  rw [locate, locate, Bisect.partitionPoint_eq hturns hstart (fun i hi hlt => by simpa using hbefore i hi hlt),
    Bisect.partitionPoint_eq hturns (Nat.zero_le _) (fun i _ hlt => absurd hlt (Nat.not_lt_zero i)),
    List.drop_zero, hparts, List.length_append, List.length_take,
    Nat.min_eq_left (by simpa using hstart), Nat.zero_add]

theorem before_locate {base : Array (K × V)} (hb : Ascending base.toList) (key : K) :
    ∀ i, (_ : i < base.size) → i < locate base 0 key → compare base[i].1 key = .lt := by
  intro i hi hlt
  have htake := Bisect.take_partitionPoint (Snapshot.below_turns (s := ⟨base, 0⟩) hb key)
  have hmem : base[i] ∈ base.toList.take (locate base 0 key) :=
    List.mem_take_iff_getElem.mpr ⟨i, by simpa using Nat.lt_min.mpr ⟨hlt, hi⟩, by simp⟩
  rw [locate, htake] at hmem
  simpa using List.mem_takeWhile_imp hmem

/-- Looking only at entries not yet passed finds what a search of all of them finds. -/
theorem changes_eq_reports {base : Array (K × V)} (hb : Ascending base.toList)
    {ops : List (K × Pending V)} (ho : Ascending ops) {start : Nat} (hstart : start ≤ base.size)
    (hbefore : ∀ e ∈ ops, ∀ i, (_ : i < base.size) → i < start → compare base[i].1 e.1 = .lt) :
    changes base start ops = reports base.toList ops := by
  induction ops generalizing start with
  | nil => rfl
  | cons op ops ih =>
      obtain ⟨key, op⟩ := op
      obtain ⟨hkey, hops⟩ := List.pairwise_cons.mp ho
      have hplace := locate_eq hb hstart (hbefore (key, op) List.mem_cons_self)
      have hfound : (base[locate base 0 key]?.filter fun e => sameKey e.1 key) = entryAt base.toList key :=
        Snapshot.lookup?_eq_find? (s := ⟨base, 0⟩) hb key
      have htail : changes base (locate base 0 key) ops = reports base.toList ops := by
        refine ih hops (Bisect.partitionPoint_le _ _ (Nat.zero_le _)) fun e he i hi hlt => ?_
        exact Std.TransCmp.lt_trans (before_locate hb key i hi hlt) (hkey e he)
      simp only [changes, hplace, hfound, htail]
      rfl

omit [Ord K] [Std.TransOrd K] in
theorem report_eq_replacing (key : K) (op : Pending V) (old? : Option (K × V)) :
    report key op old? = .replacing old? (Overlay.shown (some (key, op)) none) := by
  cases op <;> cases old? <;> rfl

theorem compare_of_mem_report {key : K} {op : Pending V} {old? : Option (K × V)}
    (h : ∀ old ∈ old?, compare old.1 key = .eq) : ∀ c ∈ report key op old?, compare c.item.1 key = .eq := by
  cases old? with
  | none => cases op <;> simp [report, Change.added]
  | some old => cases op <;> simp [report, Change.added, Change.removed, h old rfl]

theorem on_report (entries : List (K × V)) (key : K) (op : Pending V) (q : K) :
    Changes.on (report key op (entryAt entries key)) q =
      if sameKey key q then report key op (entryAt entries key) else [] := by
  have hkeys : ∀ c ∈ report key op (entryAt entries key), sameKey c.item.1 q = sameKey key q := by
    intro c hc
    have hsame := compare_of_mem_report (fun old hold => compare_of_entryAt hold) c hc
    rw [sameKey, sameKey, Std.TransCmp.congr_left hsame]
  rw [Changes.on, List.filter_congr hkeys]
  cases sameKey key q <;> simp

theorem on_reports (entries : List (K × V)) {ops : List (K × Pending V)} (ho : Distinct ops) (q : K) :
    (reports entries ops).on q =
      (entryAt ops q).elim [] fun e => Changes.replacing (entryAt entries q) (Overlay.shown (some e) none) := by
  induction ops with
  | nil => rfl
  | cons op ops ih =>
      obtain ⟨key, op⟩ := op
      rw [reports, List.flatMap_cons, ← reports, Changes.on_append, on_report, ih ho.of_cons]
      by_cases hq : compare key q = .eq
      · rw [if_pos (sameKey_iff.mpr hq), ho.entryAt_tail hq, entryAt_cons_same hq, report_eq_replacing,
          entryAt_congr entries hq]
        exact List.append_nil _
      · rw [if_neg (by simpa using hq), entryAt_cons_other hq]
        rfl

end OverlayDiff

namespace SortedMap

variable [Std.TransOrd K] (m : SortedMap K V)

theorem replay_reports {ops : List (K × Pending V)} (ho : Ascending ops) :
    ∃ m', m.replay (OverlayDiff.reports m.entries ops) = (m', none) ∧
      ∀ q, m'.lookup? q = Overlay.shown (entryAt ops q) (m.lookup? q) := by
  refine replay_of_replacing fun q => ?_
  rw [OverlayDiff.on_reports m.entries ho.distinct]
  cases entryAt ops q with
  | none => exact .inr ⟨rfl, rfl⟩
  | some e => exact .inl (by obtain ⟨key, op⟩ := e; cases op <;> rfl)

theorem replay_populate : (empty : SortedMap K V).replay (Changes.populate m.entries) = (m, none) := by
  have hadded (q : K) : (Changes.populate m.entries).on q = .replacing none (m.lookup? q) :=
    Changes.on_map_of_distinct m.ascending.distinct .added q
  obtain ⟨n, hreplay, hlookup⟩ := replay_of_replacing (m := empty) fun q => .inl (hadded q)
  have hn : n = m := ext_lookup? hlookup
  rw [hreplay, hn]

end SortedMap

namespace Overlay

variable [Std.TransOrd K] (o : Overlay K V) {base : Snapshot K V}

theorem toList_diff (hb : Ascending base.toList) :
    (o.diff base).toList = OverlayDiff.reports base.toList o.ops.entries :=
  OverlayDiff.changes_eq_reports hb o.ops.ascending (Nat.zero_le _)
    fun _ _ i _ hlt => absurd hlt (Nat.not_lt_zero i)

/-- Replayed on the base, the difference that an overlay makes gives the merged view. -/
theorem replay_diff (hb : Ascending base.toList) :
    SortedMap.replay ⟨base.toList, hb⟩ (o.diff base).toList =
      (⟨(o.ascending base).toList, o.ascending_toList hb⟩, none) := by
  obtain ⟨m, hreplay, hlookup⟩ := SortedMap.replay_reports ⟨base.toList, hb⟩ o.ops.ascending
  rw [o.toList_diff hb, hreplay]
  have hm : m = ⟨(o.ascending base).toList, o.ascending_toList hb⟩ :=
    SortedMap.ext_lookup? fun q => (hlookup q).trans (o.entryAt_toList hb q).symm
  rw [hm]

end Overlay

end VersionedMap
