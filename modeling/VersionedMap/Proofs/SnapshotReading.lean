import VersionedMap.SnapshotCodec
import VersionedMap.Proofs.ListReading
import Mathlib.Order.Nat

namespace VersionedMap

variable {K V : Type}

namespace Json

variable [Codec K] [Codec V]

def SpellsEntry (j : Json) (e : K × V) : Prop :=
  ∃ key value, j = .list [key, value] ∧ decode key = .ok e.1 ∧ decode value = .ok e.2

def SpellsEntries (j : Json) (entries : List (K × V)) : Prop :=
  ∃ items, j = .list items ∧ List.Forall₂ SpellsEntry items entries

theorem spellsEntry_iff {j : Json} {e : K × V} : j.SpellsEntry e ↔ decode j = .ok e := by
  cases j with
  | list parts =>
      rw [show decode (.list parts) = Codec.decodeTwo .pair (decode (α := K)) (decode (α := V)) parts from rfl,
        Codec.decodeTwo_eq_ok]
      simp [SpellsEntry]
  | _ =>
      constructor
      · rintro ⟨_, _, hj, _⟩
        cases hj
      · intro h
        cases h

theorem spellsEntries_iff {j : Json} {entries : List (K × V)} : j.SpellsEntries entries ↔ decode j = .ok entries := by
  have hitems : SpellsEntry (K := K) (V := V) = fun item e => decode item = .ok e := by
    funext item e
    exact propext spellsEntry_iff
  rw [Codec.decode_list_eq_ok_iff, ← hitems, SpellsEntries]

/-- What stands for no entries is no list, or has an item that stands for no entry. -/
theorem not_spellsEntries_iff {j : Json} : (∀ entries : List (K × V), ¬j.SpellsEntries entries) ↔
    ∀ items, j = .list items → ∃ item ∈ items, ∀ e : K × V, ¬item.SpellsEntry e := by
  constructor
  · rintro h items rfl
    by_contra hitems
    push Not at hitems
    obtain ⟨entries, hentries⟩ := exists_forall₂_iff.mpr hitems
    exact h entries ⟨items, rfl, hentries⟩
  · rintro h entries ⟨items, rfl, hentries⟩
    obtain ⟨item, hmem, hnone⟩ := h items rfl
    obtain ⟨e, he⟩ := exists_forall₂_iff.mp ⟨entries, hentries⟩ item hmem
    exact hnone e he

end Json

variable [Ord K]

def DropsAt (entries : List (K × V)) (n : Nat) : Prop :=
  1 ≤ n ∧ ∃ a b, entries[n - 1]? = some a ∧ entries[n]? = some b ∧ compare a.1 b.1 ≠ .lt

theorem dropsAt_succ_iff {entries : List (K × V)} {i : Nat} :
    DropsAt entries (i + 1) ↔ ∃ hi : i < (entries.zip entries.tail).length,
      (compare (entries.zip entries.tail)[i].1.1 (entries.zip entries.tail)[i].2.1 != .lt) = true := by
  have hpair (a b : K × V) : entries[i]? = some a ∧ entries[i + 1]? = some b ↔
      ∃ hi : i < (entries.zip entries.tail).length, (entries.zip entries.tail)[i] = (a, b) := by
    rw [← List.getElem?_tail, ← List.getElem?_zip_eq_some (z := (a, b)), List.getElem?_eq_some_iff]
  constructor
  · rintro ⟨-, a, b, ha, hb, hab⟩
    obtain ⟨hi, hz⟩ := (hpair a b).mp ⟨ha, hb⟩
    exact ⟨hi, by simpa [hz] using hab⟩
  · rintro ⟨hi, hab⟩
    obtain ⟨ha, hb⟩ := (hpair _ _).mpr ⟨hi, rfl⟩
    exact ⟨Nat.succ_pos i, _, _, ha, hb, by simpa using hab⟩

theorem ascending_iff_not_dropsAt [Std.TransOrd K] {entries : List (K × V)} :
    Ascending entries ↔ ∀ n, ¬DropsAt entries n := by
  let below (a b : K × V) : Prop := compare a.1 b.1 = .lt
  have : Trans below below below := ⟨Std.TransCmp.lt_trans⟩
  change entries.Pairwise below ↔ _
  rw [← List.isChain_iff_pairwise, List.isChain_iff_getElem]
  constructor
  · rintro h n ⟨hn, a, b, ha, hb, hab⟩
    obtain ⟨n, rfl⟩ := Nat.exists_eq_add_of_le' hn
    obtain ⟨_, rfl⟩ := List.getElem?_eq_some_iff.mp ha
    obtain ⟨hlt, rfl⟩ := List.getElem?_eq_some_iff.mp hb
    exact hab (h n hlt)
  · intro h i hi
    by_contra hab
    exact h (i + 1) ⟨Nat.succ_pos i, _, _, List.getElem?_eq_getElem (Nat.lt_of_succ_lt hi),
      List.getElem?_eq_getElem hi, hab⟩

namespace Snapshot

theorem disorder?_eq_some_iff {entries : List (K × V)} {n : Nat} :
    disorder? entries = some n ↔ IsLeast {n | DropsAt entries n} n := by
  rw [disorder?, Option.map_eq_some_iff]
  constructor
  · rintro ⟨i, hi, rfl⟩
    obtain ⟨hlt, hdrop, hbefore⟩ := List.findIdx?_eq_some_iff_getElem.mp hi
    refine ⟨dropsAt_succ_iff.mpr ⟨hlt, hdrop⟩, fun m hm => ?_⟩
    obtain ⟨m, rfl⟩ := Nat.exists_eq_add_of_le' hm.1
    refine Nat.succ_le_succ (Nat.le_of_not_lt fun hmi => ?_)
    exact hbefore m hmi (dropsAt_succ_iff.mp hm).2
  · rintro ⟨hdrop, hleast⟩
    obtain ⟨i, rfl⟩ := Nat.exists_eq_add_of_le' hdrop.1
    obtain ⟨hlt, hdrop⟩ := dropsAt_succ_iff.mp hdrop
    refine ⟨i, List.findIdx?_eq_some_iff_getElem.mpr ⟨hlt, hdrop, fun j hj hj' => ?_⟩, rfl⟩
    have hle : i + 1 ≤ j + 1 := hleast (dropsAt_succ_iff.mpr ⟨Nat.lt_trans hj hlt, hj'⟩)
    omega

theorem disorder?_eq_none_iff {entries : List (K × V)} : disorder? entries = none ↔ ∀ n, ¬DropsAt entries n := by
  classical
  rw [Option.eq_none_iff_forall_ne_some]
  constructor
  · intro h n hn
    exact h _ (disorder?_eq_some_iff.mpr (Nat.isLeast_find ⟨n, hn⟩))
  · intro h n hn
    exact h n (disorder?_eq_some_iff.mp hn).1

theorem ofEntries?_of_dropsAt {entries : List (K × V)} {n : Nat} (hn : IsLeast {n | DropsAt entries n} n) :
    ofEntries? entries = .error n := by
  rw [ofEntries?, disorder?_eq_some_iff.mpr hn]

theorem ofEntries?_of_not_dropsAt {entries : List (K × V)} (hn : ∀ n, ¬DropsAt entries n) :
    ofEntries? entries = .ok ⟨entries.toArray, 0⟩ := by
  rw [ofEntries?, disorder?_eq_none_iff.mpr hn]

variable [Codec K] [Codec V] {j : Json} {entries : List (K × V)}

theorem ofJson_of_spells (h : j.SpellsEntries entries) : ofJson j = (ofEntries? entries).mapError .disordered := by
  have hdecode := Json.spellsEntries_iff.mp h
  obtain ⟨items, rfl, _⟩ := h
  simp only [ofJson, hdecode]

theorem decode_of_spells (h : j.SpellsEntries entries) : decode j = (ofEntries? entries).mapError .disordered := by
  change (decode (α := List (K × V)) j).bind _ = _
  rw [Json.spellsEntries_iff.mp h]
  rfl

/-- What becomes of a snapshot that is read by itself, and of the same as a part of other JSON. -/
inductive Outcome (j : Json) : Except Fault (Snapshot K V) → Except DecodeFault (Snapshot K V) → Prop
  | null (hj : j = .null) : Outcome j (.error .nullInput) (.error (.unexpected .null .list))
  | undecodable (cause : DecodeFault) (hj : j ≠ .null) (hnone : ∀ entries : List (K × V), ¬j.SpellsEntries entries) :
    Outcome j (.error (.undecodable cause)) (.error cause)
  | disordered {entries : List (K × V)} {n : Nat} (hentries : j.SpellsEntries entries)
    (hn : IsLeast {n | DropsAt entries n} n) : Outcome j (.error (.disordered n)) (.error (.disordered n))
  | ordered {entries : List (K × V)} (hentries : j.SpellsEntries entries) (hn : ∀ n, ¬DropsAt entries n) :
    Outcome j (.ok ⟨entries.toArray, 0⟩) (.ok ⟨entries.toArray, 0⟩)

theorem outcome (j : Json) : Outcome j (ofJson (K := K) (V := V) j) (decode j) := by
  cases hdecode : decode (α := List (K × V)) j with
  | error cause =>
      have hnone (entries : List (K × V)) : ¬j.SpellsEntries entries := by
        rw [Json.spellsEntries_iff, hdecode]
        exact nofun
      have hpart : decode (α := Snapshot K V) j = .error cause := by
        change (decode (α := List (K × V)) j).bind _ = _
        rw [hdecode]
        rfl
      by_cases hj : j = .null
      · subst hj
        exact .null rfl
      · have hread : ofJson (K := K) (V := V) j = .error (.undecodable cause) := by
          cases j with
          | null => exact absurd rfl hj
          | _ => simp only [ofJson, hdecode]
        rw [hread, hpart]
        exact .undecodable cause hj hnone
  | ok entries =>
      have hentries := Json.spellsEntries_iff.mpr hdecode
      rw [ofJson_of_spells hentries, decode_of_spells hentries]
      cases hn : disorder? entries with
      | some n =>
          have hn := disorder?_eq_some_iff.mp hn
          rw [ofEntries?_of_dropsAt hn]
          exact .disordered hentries hn
      | none =>
          have hn := disorder?_eq_none_iff.mp hn
          rw [ofEntries?_of_not_dropsAt hn]
          exact .ordered hentries hn

theorem exists_outcome (j : Json) : ∃ part, Outcome j (ofJson (K := K) (V := V) j) part :=
  ⟨_, outcome j⟩

theorem ofJson_eq_nullInput_iff : ofJson (K := K) (V := V) j = .error .nullInput ↔ j = .null := by
  constructor
  · intro h
    obtain ⟨_, houtcome⟩ := exists_outcome (K := K) (V := V) j
    rw [h] at houtcome
    cases houtcome
    assumption
  · rintro rfl
    rfl

theorem ofJson_eq_undecodable_iff : (∃ cause, ofJson (K := K) (V := V) j = .error (.undecodable cause)) ↔
    j ≠ .null ∧ ∀ entries : List (K × V), ¬j.SpellsEntries entries := by
  obtain ⟨_, houtcome⟩ := exists_outcome (K := K) (V := V) j
  constructor
  · rintro ⟨cause, h⟩
    rw [h] at houtcome
    cases houtcome with
    | undecodable _ hj hnone => exact ⟨hj, hnone⟩
  · rintro ⟨hj, hnone⟩
    generalize ofJson (K := K) (V := V) j = read at houtcome ⊢
    cases houtcome with
    | null hnull => exact absurd hnull hj
    | undecodable cause _ _ => exact ⟨cause, rfl⟩
    | disordered hentries _ => exact absurd hentries (hnone _)
    | ordered hentries _ => exact absurd hentries (hnone _)

theorem ofJson_eq_disordered_iff {n : Nat} : ofJson (K := K) (V := V) j = .error (.disordered n) ↔
    ∃ entries : List (K × V), j.SpellsEntries entries ∧ IsLeast {n | DropsAt entries n} n := by
  constructor
  · intro h
    obtain ⟨_, houtcome⟩ := exists_outcome (K := K) (V := V) j
    rw [h] at houtcome
    cases houtcome with
    | disordered hentries hn => exact ⟨_, hentries, hn⟩
  · rintro ⟨entries, hentries, hn⟩
    rw [ofJson_of_spells hentries, ofEntries?_of_dropsAt hn]
    rfl

theorem ofJson_eq_ok_iff {s : Snapshot K V} : ofJson j = .ok s ↔
    ∃ entries : List (K × V), j.SpellsEntries entries ∧ (∀ n, ¬DropsAt entries n) ∧ s = ⟨entries.toArray, 0⟩ := by
  constructor
  · intro h
    obtain ⟨_, houtcome⟩ := exists_outcome (K := K) (V := V) j
    rw [h] at houtcome
    cases houtcome with
    | ordered hentries hn => exact ⟨_, hentries, hn, rfl⟩
  · rintro ⟨entries, hentries, hn, rfl⟩
    rw [ofJson_of_spells hentries, ofEntries?_of_not_dropsAt hn]
    rfl

inductive SameFailure : Fault → DecodeFault → Prop
  | null : SameFailure .nullInput (.unexpected .null .list)
  | undecodable (cause : DecodeFault) : SameFailure (.undecodable cause) cause
  | disordered (index : Nat) : SameFailure (.disordered index) (.disordered index)

/-- A snapshot is read by itself exactly if it is read as a part of other JSON. By itself, null is refused as a missing
input, then whatever has a part that is no entry as undecodable, and then entries out of order with the least position
at which they are. As a part, every failure is one of the JSON. -/
theorem readings_agree (j : Json) :
    let read : Except Fault (Snapshot K V) := ofJson j
    let part : Except Fault (Snapshot K V) := (decode j).mapError .undecodable
    ((∃ s, s.version = 0 ∧ read = .ok s ∧ part = .ok s) ∨
      ∃ fault cause, read = .error fault ∧ part = .error (.undecodable cause) ∧ SameFailure fault cause) ∧
    (read = .error .nullInput ↔ j = .null) ∧
    ((∃ cause, read = .error (.undecodable cause)) ↔
      j ≠ .null ∧ ∀ items, j = .list items → ∃ item ∈ items, ∀ e : K × V, ¬item.SpellsEntry e) ∧
    (∀ n, read = .error (.disordered n) ↔
      ∃ entries : List (K × V), j.SpellsEntries entries ∧ IsLeast {n | DropsAt entries n} n) ∧
    ((∃ s, read = .ok s) ↔ ∃ entries : List (K × V), j.SpellsEntries entries ∧ ∀ n, ¬DropsAt entries n) := by
  intro read part
  refine ⟨?_, ofJson_eq_nullInput_iff, ?_, fun n => ofJson_eq_disordered_iff, ?_⟩
  · have houtcome : Outcome j read (decode j) := outcome j
    dsimp only [part]
    clear_value read
    generalize decode (α := Snapshot K V) j = part' at houtcome ⊢
    cases houtcome with
    | null => exact .inr ⟨_, _, rfl, rfl, .null⟩
    | undecodable cause => exact .inr ⟨_, _, rfl, rfl, .undecodable cause⟩
    | @disordered _ n => exact .inr ⟨_, _, rfl, rfl, .disordered n⟩
    | ordered => exact .inl ⟨_, rfl, rfl, rfl⟩
  · rw [← Json.not_spellsEntries_iff]
    exact ofJson_eq_undecodable_iff
  · constructor
    · rintro ⟨s, hs⟩
      obtain ⟨entries, hentries, hn, _⟩ := ofJson_eq_ok_iff.mp hs
      exact ⟨entries, hentries, hn⟩
    · rintro ⟨entries, hentries, hn⟩
      exact ⟨_, ofJson_eq_ok_iff.mpr ⟨entries, hentries, hn, rfl⟩⟩

-- the first of several drops is named, and only where all items stand for entries
example : (ofJson (.list [.list [.int 1, .null], .list [.int 3, .null], .list [.int 3, .null], .list [.int 2, .null]]) :
    Except Fault (Snapshot Int64 Json)) = .error (.disordered 2) := rfl

example : (ofJson (.list [.list [.int 2, .null], .list [.int 1, .null], .int 0]) :
    Except Fault (Snapshot Int64 Json)) = .error (.undecodable (.unexpected (.int 0) .pair)) := rfl

variable [Std.TransOrd K] [LawfulCodec K] [LawfulCodec V]

/-- Where keys and values are read back as they were written, so are snapshots. What is read as one is just a list of
entries in strictly ascending key order, and is written as it was. -/
theorem ofJson_inverts_toJson :
    (∀ s : Snapshot K V, Ascending s.toList → ofJson s.toJson = .ok ⟨s.entries, 0⟩) ∧
    ∀ j : Json,
      ((∃ s : Snapshot K V, ofJson j = .ok s) ↔ ∃ entries : List (K × V), j.SpellsEntries entries ∧ Ascending entries) ∧
      ∀ s : Snapshot K V, ofJson j = .ok s → s.version = 0 ∧ Ascending s.toList ∧ s.toJson = j := by
  have hread {j : Json} {s : Snapshot K V} : ofJson j = .ok s ↔
      ∃ entries : List (K × V), j.SpellsEntries entries ∧ Ascending entries ∧ s = ⟨entries.toArray, 0⟩ := by
    simp only [ofJson_eq_ok_iff, ascending_iff_not_dropsAt]
  refine ⟨fun s hs => ?_, fun j => ⟨?_, fun s hs => ?_⟩⟩
  · have hspells : s.toJson.SpellsEntries s.toList := Json.spellsEntries_iff.mpr (LawfulCodec.decode_encode s.toList)
    exact hread.mpr ⟨s.toList, hspells, hs, rfl⟩
  · constructor
    · rintro ⟨s, hs⟩
      obtain ⟨entries, hentries, hascending, _⟩ := hread.mp hs
      exact ⟨entries, hentries, hascending⟩
    · rintro ⟨entries, hentries, hascending⟩
      exact ⟨_, hread.mpr ⟨entries, hentries, hascending, rfl⟩⟩
  · obtain ⟨entries, hentries, hascending, rfl⟩ := hread.mp hs
    exact ⟨rfl, hascending, LawfulCodec.encode_decode (Json.spellsEntries_iff.mp hentries)⟩

theorem ofJson_inverts_toJson_caseless :
    -- numbers descend, and then text ascends whatever its case
    let s : Snapshot (Paired (Descending Int64) Caseless) Json :=
      ⟨#[(⟨⟨2⟩, ⟨"b"⟩⟩, .null), (⟨⟨1⟩, ⟨"A"⟩⟩, .list [.text "x"]), (⟨⟨1⟩, ⟨"b"⟩⟩, .int 7)], 3⟩
    let j : Json := .list
      [.list [.list [.int 2, .text "b"], .null],
        .list [.list [.int 1, .text "A"], .list [.text "x"]],
        .list [.list [.int 1, .text "b"], .int 7]]
    Ascending s.toList ∧ s.toJson = j ∧ ofJson j = .ok ⟨s.entries, 0⟩ ∧
      (∃ entries : List (Paired (Descending Int64) Caseless × Json), j.SpellsEntries entries ∧ Ascending entries) ∧
      ∀ s' : Snapshot (Paired (Descending Int64) Caseless) Json,
        ofJson j = .ok s' → s'.version = 0 ∧ Ascending s'.toList ∧ s'.toJson = j := by
  intro s j
  have hs : Ascending s.toList := by decide +kernel
  have hj : s.toJson = j := rfl
  obtain ⟨hwritten, hread⟩ := ofJson_inverts_toJson (K := Paired (Descending Int64) Caseless) (V := Json)
  have hback : ofJson j = .ok ⟨s.entries, 0⟩ := hj ▸ hwritten s hs
  exact ⟨hs, hj, hback, (hread j).1.mp ⟨_, hback⟩, (hread j).2⟩

end Snapshot

end VersionedMap
