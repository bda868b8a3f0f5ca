import VersionedMap.Codec

namespace VersionedMap.Codec

variable {α β : Type}

theorem bounds_toInt (n : Int64) : Int64.minValue.toInt ≤ n.toInt ∧ n.toInt ≤ Int64.maxValue.toInt :=
  ⟨Int64.le_toInt n, Int64.toInt_le n⟩

theorem toInt_ofInt_of_bounds {n : Int} (h : Int64.minValue.toInt ≤ n ∧ n ≤ Int64.maxValue.toInt) :
    (Int64.ofInt n).toInt = n :=
  Int64.toInt_ofInt_of_le h.1 (Int.lt_of_le_of_lt h.2 (by decide))

instance : LawfulCodec Int64 where
  decode_encode n := by
    simp only [encode, decode, if_pos (bounds_toInt n), Int64.ofInt_toInt]
  encode_decode {j n} h := by
    cases j <;> simp only [decode, reduceCtorEq] at h
    split at h
    case isTrue inside =>
      cases h
      simp only [encode, toInt_ofInt_of_bounds inside]
    case isFalse => cases h

instance : LawfulCodec String where
  decode_encode _ := rfl
  encode_decode {j s} h := by
    cases j <;> cases h
    rfl

instance : LawfulCodec Unit where
  decode_encode _ := rfl
  encode_decode {j u} h := by
    cases j <;> cases h
    rfl

instance : LawfulCodec Json where
  decode_encode _ := rfl
  encode_decode h := by
    cases h
    rfl

theorem encode_of_map_decode [Codec α] [LawfulCodec α] {wrap : α → β} (unwrap : β → α)
    (unwrap_wrap : ∀ a, unwrap (wrap a) = a) {j : Json} {b : β}
    (h : (decode (α := α) j).map wrap = .ok b) : encode (unwrap b) = j := by
  obtain ⟨a, hread, rfl⟩ := ok_of_map h
  rw [unwrap_wrap]
  exact LawfulCodec.encode_decode hread

instance [Codec α] [LawfulCodec α] : LawfulCodec (Descending α) where
  decode_encode a := by
    simp only [encode, decode]
    rw [LawfulCodec.decode_encode]
    rfl
  encode_decode {j a} h :=
    show encode a.value = j from encode_of_map_decode Descending.value (fun _ => rfl) h

instance : LawfulCodec Caseless where
  decode_encode _ := rfl
  encode_decode {j a} h :=
    show encode a.text = j from encode_of_map_decode Caseless.text (fun _ => rfl) h

instance : LawfulCodec OddText where
  decode_encode _ := rfl
  encode_decode {j a} h :=
    show encode a.text = j from encode_of_map_decode OddText.text (fun _ => rfl) h

/-- What is read from two parts is what they are read as, and nothing is left over. -/
theorem decodeTwo_eq_ok {wanted : Wanted} {first : Json → Except DecodeFault α}
    {second : Json → Except DecodeFault β} {parts : List Json} {p : α × β} :
    decodeTwo wanted first second parts = .ok p ↔
      ∃ a b, parts = [a, b] ∧ first a = .ok p.1 ∧ second b = .ok p.2 := by
  match parts with
  | [] => simp [decodeTwo]
  | [a] => cases h : first a <;> simp [decodeTwo, h, bind, Except.bind]
  | a :: b :: rest =>
    constructor
    · intro h
      cases ha : first a <;> cases hb : second b <;> cases rest <;>
        simp [decodeTwo, ha, hb, bind, Except.bind] at h
      cases h
      exact ⟨a, b, rfl, ha, hb⟩
    · rintro ⟨_, _, parts, ha, hb⟩
      cases parts
      simp [decodeTwo, ha, hb, bind, Except.bind]

instance [Codec α] [Codec β] [LawfulCodec α] [LawfulCodec β] : LawfulCodec (α × β) where
  decode_encode p := by
    obtain ⟨a, b⟩ := p
    exact decodeTwo_eq_ok.2
      ⟨_, _, rfl, LawfulCodec.decode_encode a, LawfulCodec.decode_encode b⟩
  encode_decode {j p} h := by
    cases j with
    | list parts =>
      obtain ⟨a, b, rfl, first, second⟩ := decodeTwo_eq_ok.1 h
      simp only [encode]
      rw [LawfulCodec.encode_decode first, LawfulCodec.encode_decode second]
    | _ => cases h

instance [Codec α] [Codec β] [LawfulCodec α] [LawfulCodec β] : LawfulCodec (Paired α β) where
  decode_encode p := by
    simp only [encode, decode]
    rw [show decodeTwo .pair decode decode [encode p.fst, encode p.snd] = .ok (p.fst, p.snd) from
      LawfulCodec.decode_encode (p.fst, p.snd)]
    rfl
  encode_decode {j p} h :=
    show encode (p.fst, p.snd) = j from
      encode_of_map_decode (fun p : Paired α β => (p.fst, p.snd)) (fun _ => rfl) h

end VersionedMap.Codec
