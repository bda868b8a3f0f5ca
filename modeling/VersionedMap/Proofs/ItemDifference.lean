import VersionedMap.ItemDiff
import VersionedMap.KeySet
import VersionedMap.Proofs.KeyedDifference

namespace VersionedMap

variable {α : Type}

/-- The items that compare equal to `x`. -/
def alike (order : α → α → Ordering) (x : α) (items : List α) : List α :=
  items.filter (order · x == .eq)

namespace ItemDiff

variable {order : α → α → Ordering} {source target : List α}

theorem forall_mem_changes {P : α → Prop} (hs : ∀ a ∈ source, P a) (ht : ∀ b ∈ target, P b) :
    ∀ c ∈ changes order source target, P c.item := by
  fun_induction changes order source target with
  | case1 target => exact List.forall_mem_map.mpr ht
  | case2 source _ => exact List.forall_mem_map.mpr hs
  | case3 a source b target _ ih =>
      obtain ⟨ha, hs⟩ := List.forall_mem_cons.mp hs
      exact List.forall_mem_cons.mpr ⟨ha, ih hs ht⟩
  | case4 a source b target _ ih =>
      obtain ⟨hb, ht⟩ := List.forall_mem_cons.mp ht
      exact List.forall_mem_cons.mpr ⟨hb, ih hs ht⟩
  | case5 a source b target _ ih => exact ih (List.forall_mem_cons.mp hs).2 (List.forall_mem_cons.mp ht).2

theorem alike_cons_same {a x : α} (h : order a x = .eq) (items : List α) :
    alike order x (a :: items) = a :: alike order x items :=
  List.filter_cons_of_pos (by simpa using h)

theorem alike_cons_other {a x : α} (h : order a x ≠ .eq) (items : List α) :
    alike order x (a :: items) = alike order x items :=
  List.filter_cons_of_neg (by simpa using h)

variable [Std.TransCmp order]

theorem lt_of_rising {a b : α} {items : List α} (h : Rising order (b :: items)) (hab : order a b = .lt) :
    ∀ x ∈ b :: items, order a x = .lt :=
  List.forall_mem_cons.mpr ⟨hab, fun _ hx => Std.TransCmp.lt_of_lt_of_isLE hab (List.rel_of_pairwise_cons h hx)⟩

theorem pairwise_changes {R : α → α → Prop} (hlt : ∀ {a b}, order a b = .lt → R a b)
    (htrans : ∀ {a b x}, order a b = .lt → R b x → R a x) (hs : source.Pairwise R) (ht : target.Pairwise R) :
    (changes order source target).Pairwise (R ·.item ·.item) := by
  fun_induction changes order source target with
  | case1 target => exact List.pairwise_map.mpr ht
  | case2 source _ => exact List.pairwise_map.mpr hs
  | case3 a source b target hab ih =>
      obtain ⟨ha, hs⟩ := List.pairwise_cons.mp hs
      have hb : ∀ x ∈ b :: target, R a x :=
        List.forall_mem_cons.mpr ⟨hlt hab, fun x hx => htrans hab (List.rel_of_pairwise_cons ht hx)⟩
      exact List.pairwise_cons.mpr ⟨forall_mem_changes ha hb, ih hs ht⟩
  | case4 a source b target hab ih =>
      obtain ⟨hb, ht⟩ := List.pairwise_cons.mp ht
      have hba : order b a = .lt := Std.OrientedCmp.lt_of_gt hab
      have ha : ∀ x ∈ a :: source, R b x :=
        List.forall_mem_cons.mpr ⟨hlt hba, fun x hx => htrans hba (List.rel_of_pairwise_cons hs hx)⟩
      exact List.pairwise_cons.mpr ⟨forall_mem_changes ha hb, ih hs ht⟩
  | case5 a source b target _ ih => exact ih hs.of_cons ht.of_cons

theorem rising_changes (hs : Rising order source) (ht : Rising order target) :
    Rising (order ·.item ·.item) (changes order source target) :=
  pairwise_changes (R := fun a b => (order a b).isLE) Ordering.isLE_of_eq_lt
    (fun hab hbx => Ordering.isLE_of_eq_lt (Std.TransCmp.lt_of_lt_of_isLE hab hbx)) hs ht

theorem alike_eq_nil {a b x : α} {items : List α} (h : Rising order (b :: items)) (hab : order a b = .lt)
    (hx : order a x = .eq) : alike order x (b :: items) = [] := by
  refine List.filter_eq_nil_iff.mpr fun y hy hyx => ?_
  have hay := lt_of_rising h hab y hy
  have hxy := Std.OrientedCmp.eq_symm (beq_iff_eq.mp hyx)
  simp [Std.TransCmp.eq_trans hx hxy] at hay

/-- Of items that compare equal, those are reported which the other side has no counterpart for, the last ones. -/
theorem filter_changes (hs : Rising order source) (ht : Rising order target) (x : α) :
    (changes order source target).filter (order ·.item x == .eq) =
      ((alike order x source).drop (alike order x target).length).map .removed ++
        ((alike order x target).drop (alike order x source).length).map .added := by
  fun_induction changes order source target with
  | case1 target => simp [alike, List.filter_map, Function.comp_def]
  | case2 source _ => simp [alike, List.filter_map, Function.comp_def]
  | case3 a source b target hab ih =>
      have ih := ih hs.of_cons ht
      by_cases hx : order a x = .eq
      · have hnone : alike order x (b :: target) = [] := alike_eq_nil ht hab hx
        rw [hnone] at ih ⊢
        rw [List.filter_cons_of_pos (by simpa using hx), ih, alike_cons_same hx]
        simp
      · rw [List.filter_cons_of_neg (by simpa using hx), ih, alike_cons_other hx]
  | case4 a source b target hab ih =>
      have ih := ih hs ht.of_cons
      have hba := Std.OrientedCmp.lt_of_gt hab
      by_cases hx : order b x = .eq
      · have hnone : alike order x (a :: source) = [] := alike_eq_nil hs hba hx
        rw [hnone] at ih ⊢
        rw [List.filter_cons_of_pos (by simpa using hx), ih, alike_cons_same hx]
        simp
      · rw [List.filter_cons_of_neg (by simpa using hx), ih, alike_cons_other hx]
  | case5 a source b target hab ih =>
      have ih := ih hs.of_cons ht.of_cons
      by_cases hx : order a x = .eq
      · have hbx : order b x = .eq := Std.TransCmp.eq_trans (Std.OrientedCmp.eq_symm hab) hx
        rw [ih, alike_cons_same hx, alike_cons_same hbx]
        simp
      · have hbx : order b x ≠ .eq := fun h => hx (Std.TransCmp.eq_trans hab h)
        rw [ih, alike_cons_other hx, alike_cons_other hbx]

end ItemDiff

namespace KeySet

def unbare {K : Type} (changes : Changes K) : Changes (K × Unit) :=
  changes.mapItems fun key => (key, ())

variable {K : Type} [Ord K]

theorem diffEntries_units (source target : List K) :
    diffEntries (source.map fun key => (key, ())) (target.map fun key => (key, ())) = unbare (diff source target) := by
  change EntryDiff.changes (source.map fun key => (key, ())) (target.map fun key => (key, ())) =
    unbare (ItemDiff.changes compare source target)
  fun_induction ItemDiff.changes compare source target with
  | case1 target => simp [unbare, Changes.mapItems, Change.map]
  | case2 source _ => simp [unbare, Changes.mapItems, Change.map]
  | case3 a source b target hab ih => simpa [unbare, Changes.mapItems, Change.map, EntryDiff.changes, hab] using ih
  | case4 a source b target hab ih => simpa [unbare, Changes.mapItems, Change.map, EntryDiff.changes, hab] using ih
  | case5 a source b target hab ih => simpa [unbare, Changes.mapItems, Change.map, EntryDiff.changes, hab] using ih

/-- The difference of two sets, replayed on the first, leads to the second, up to the spelling of keys. -/
theorem replay_diff [Std.TransOrd K] {source target : List K} (hs : source.Pairwise (compare · · = .lt))
    (ht : target.Pairwise (compare · · = .lt)) :
    ∃ s t : SortedMap K Unit, keys s.entries = source ∧ s.replay (unbare (diff source target)) = (t, none) ∧
      List.Forall₂ (compare · · = .eq) (keys t.entries) target := by
  have hkeys (ks : List K) : keys (ks.map fun key => (key, ())) = ks := by
    simp [keys, Function.comp_def]
  obtain ⟨t, hreplay, hlookup⟩ := SortedMap.replay_difference
    ⟨source.map fun key => (key, ()), List.pairwise_map.mpr hs⟩
    ⟨target.map fun key => (key, ()), List.pairwise_map.mpr ht⟩
  have hentries := SortedMap.entries_retained _ _ hlookup
  rw [diffEntries_units] at hreplay
  refine ⟨_, t, hkeys source, hreplay, ?_⟩
  rw [hentries, keys, List.map_map, List.map_map, List.forall₂_map_left_iff, List.forall₂_same]
  exact fun key _ => SortedMap.compare_retained _ (key, ())

end KeySet

/-- The difference of two sequences that do not descend does not descend either. Of the items that compare equal to
one another it reports as many as one side has in excess, namely the last of that side, in their order. For sequences
in which no two items compare equal, it can be replayed on the set of the first, which leads to the second. -/
theorem diffBy_eq_excess (order : α → α → Ordering) [Std.TransCmp order] {source target : List α}
    (hs : Rising order source) (ht : Rising order target) :
    let changes := diffBy order source target
    Walk.Yields ItemDiff.next ⟨order, source, target⟩ changes ∧
    Rising (order ·.item ·.item) changes ∧
    (∀ x, changes.filter (order ·.item x == .eq) =
      ((alike order x source).drop (alike order x target).length).map .removed ++
        ((alike order x target).drop (alike order x source).length).map .added) ∧
    (∀ [Ord α], compare = order → diff source target = changes) ∧
    (source.Pairwise (order · · ≠ .eq) → target.Pairwise (order · · ≠ .eq) →
      ∃ s t : SortedMap (Ranked order) Unit, KeySet.keys s.entries = source ∧
        s.replay (KeySet.unbare changes) = (t, none) ∧
        List.Forall₂ (order · · = .eq) (KeySet.keys t.entries) target) := by
  intro changes
  have hstrict {items : List α} (h : Rising order items) (hne : items.Pairwise (order · · ≠ .eq)) :
      items.Pairwise (order · · = .lt) :=
    (h.and hne).imp fun {a b} ⟨hle, hne⟩ => by
      cases ho : order a b with
      | lt => rfl
      | eq => exact absurd ho hne
      | gt => simp [ho] at hle
  refine ⟨ItemDiff.shows_toList.yields _, ItemDiff.rising_changes hs ht, ItemDiff.filter_changes hs ht,
    fun {_} hnatural => congrArg (diffBy · source target) hnatural, fun hs' ht' => ?_⟩
  exact KeySet.replay_diff (K := Ranked order) (hstrict hs hs') (hstrict ht ht')

theorem diffBy_eq_excess_repeated :
    let order : Nat → Nat → Ordering := compareOn (· % 10)
    let source := [11, 21, 31, 2, 12]
    let target := [41, 22, 2, 32, 3]
    let changes := diffBy order source target
    let before : List Nat := [11, 2, 23]
    let after : List Nat := [21, 3, 4]
    Rising order source ∧ Rising order target ∧ changes = [.removed 21, .removed 31, .added 32, .added 3] ∧
    Walk.Yields ItemDiff.next ⟨order, source, target⟩ changes ∧ Rising (order ·.item ·.item) changes ∧
    (∀ x, changes.filter (order ·.item x == .eq) =
      ((alike order x source).drop (alike order x target).length).map .removed ++
        ((alike order x target).drop (alike order x source).length).map .added) ∧
    ∃ s t : SortedMap (Ranked order) Unit, KeySet.keys s.entries = before ∧
      s.replay (KeySet.unbare (diffBy order before after)) = (t, none) ∧
      List.Forall₂ (order · · = .eq) (KeySet.keys t.entries) after := by
  intro order source target changes before after
  have hs : Rising order source := by decide
  have ht : Rising order target := by decide
  have hchanges : diffBy (compareOn (· % 10)) [11, 21, 31, 2, 12] [41, 22, 2, 32, 3] =
      [.removed 21, .removed 31, .added 32, .added 3] := by cbv
  obtain ⟨hyields, hrising, hexcess, _⟩ := diffBy_eq_excess order hs ht
  have hbefore : Rising order before := by decide
  have hafter : Rising order after := by decide
  obtain ⟨_, _, _, _, hset⟩ := diffBy_eq_excess order hbefore hafter
  exact ⟨hs, ht, hchanges, hyields, hrising, hexcess, hset (by decide) (by decide)⟩

end VersionedMap
