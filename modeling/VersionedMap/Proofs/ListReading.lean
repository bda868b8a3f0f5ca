import VersionedMap.CodecLaws
import Mathlib.Data.List.Forall2

namespace VersionedMap

variable {α β ε : Type}

theorem mapM_eq_ok_iff {f : α → Except ε β} {items : List α} {results : List β} :
    items.mapM f = .ok results ↔ List.Forall₂ (fun a b => f a = .ok b) items results := by
  constructor
  · intro h
    induction items generalizing results with
    | nil =>
        cases h
        exact .nil
    | cons a items ih =>
        rw [List.mapM_cons] at h
        obtain ⟨b, hab, h⟩ := ok_of_bind h
        obtain ⟨bs, hrest, h⟩ := ok_of_bind h
        cases h
        exact .cons hab (ih hrest)
  · intro h
    induction h with
    | nil => rfl
    | cons hab _ ih =>
        rw [List.mapM_cons, hab, ih]
        rfl

theorem exists_forall₂_iff {R : α → β → Prop} {items : List α} :
    (∃ results, List.Forall₂ R items results) ↔ ∀ a ∈ items, ∃ b, R a b := by
  induction items with
  | nil => simp
  | cons a items ih =>
      rw [List.forall_mem_cons, ← ih]
      constructor
      · rintro ⟨results, hresults⟩
        cases hresults with
        | cons hab hrest => exact ⟨⟨_, hab⟩, _, hrest⟩
      · rintro ⟨⟨b, hab⟩, results, hresults⟩
        exact ⟨b :: results, .cons hab hresults⟩

namespace Codec

variable [Codec α]

theorem decode_list_eq_ok_iff {j : Json} {as : List α} :
    decode j = .ok as ↔ ∃ items, j = .list items ∧ List.Forall₂ (fun item a => decode item = .ok a) items as := by
  cases j with
  | list items =>
      rw [show decode (.list items) = items.mapM (decode (α := α)) from rfl, mapM_eq_ok_iff]
      simp
  | _ => exact ⟨nofun, nofun⟩

theorem decode_list_ok_iff {j : Json} :
    (∃ as : List α, decode j = .ok as) ↔ ∃ items, j = .list items ∧ ∀ item ∈ items, ∃ a : α, decode item = .ok a := by
  simp only [decode_list_eq_ok_iff, ← exists_forall₂_iff]
  exact ⟨fun ⟨as, items, hj, has⟩ => ⟨items, hj, as, has⟩, fun ⟨items, hj, as, has⟩ => ⟨as, items, hj, has⟩⟩

/-- A list is read as another is if each item is read as the other's item is, be it with success or not. -/
theorem decode_list_congr {items items' : List Json}
    (h : List.Forall₂ (fun item item' => decode (α := α) item = decode item') items items') :
    decode (α := List α) (.list items) = decode (.list items') := by
  change items.mapM (decode (α := α)) = items'.mapM decode
  induction h with
  | nil => rfl
  | cons hitem _ ih => rw [List.mapM_cons, List.mapM_cons, hitem, ih]

theorem decode_encode_list (h : ∀ a : α, decode (encode a) = .ok a) (as : List α) : decode (encode as) = .ok as :=
  decode_list_eq_ok_iff.mpr ⟨_, rfl, List.forall₂_map_left_iff.mpr (List.forall₂_same.mpr fun a _ => h a)⟩

theorem forall₂_encode_of_decode {R : Json → Json → Prop}
    (h : ∀ (item : Json) (a : α), decode item = .ok a → R item (encode a)) {items : List Json} {as : List α}
    (has : List.Forall₂ (fun item a => decode item = .ok a) items as) :
    List.Forall₂ R items (as.map encode) :=
  List.forall₂_map_right_iff.mpr (has.imp h)

instance [LawfulCodec α] : LawfulCodec (List α) where
  decode_encode as := decode_encode_list LawfulCodec.decode_encode as
  encode_decode {j as} h := by
    obtain ⟨items, rfl, has⟩ := decode_list_eq_ok_iff.mp h
    have hitems : List.Forall₂ (· = ·) items (as.map encode) :=
      forall₂_encode_of_decode (fun _ _ ha => (LawfulCodec.encode_decode ha).symm) has
    rw [List.forall₂_eq_eq_eq] at hitems
    rw [hitems]
    rfl

end Codec

end VersionedMap
