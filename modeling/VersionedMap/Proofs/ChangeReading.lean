import VersionedMap.ChangeCodec
import VersionedMap.Proofs.ListReading

namespace VersionedMap

variable {α : Type}

theorem eq_some_of_mapM {ε β : Type} {f : α → Except ε β} {a? : Option α} {b : β} (h : a?.mapM f = .ok (some b)) :
    ∃ a, a? = some a ∧ f a = .ok b := by
  cases a? with
  | none => cases h
  | some a =>
      obtain ⟨b', ha, hb⟩ := ok_of_map h
      cases hb
      exact ⟨a, rfl, ha⟩

namespace Json

/-- An operation is given by its name, or by an object whose one member has that name and holds nothing. -/
inductive SpellsOperation : Json → Operation → Prop
  | name (op : Operation) : SpellsOperation (text op.name) op
  | member (op : Operation) : SpellsOperation (object [(op.name, null)]) op

/-- The operation and the item that stand for a change are two members of an object, whatever else that holds, or the
two items of a list. -/
inductive HoldsParts : Json → Json → Json → Prop
  | object {members : List (String × Json)} {op item : Json} (hop : (object members).member? "op" = some op)
    (hitem : (object members).member? "item" = some item) : HoldsParts (object members) op item
  | list (op item : Json) : HoldsParts (list [op, item]) op item

def canonicalChange (op : Operation) (item : Json) : Json :=
  object [("item", item), ("op", text op.name)]

/-- The change that the first spells is written as the second, but for its item, which stays as it is given. -/
def HasCanonical (j canonical : Json) : Prop :=
  ∃ op item o, j.HoldsParts op item ∧ op.SpellsOperation o ∧ canonical = canonicalChange o item

theorem holdsParts_canonicalChange (op : Operation) (item : Json) :
    (canonicalChange op item).HoldsParts (text op.name) item :=
  .object rfl rfl

end Json

namespace Operation

theorem ofName?_eq_ok_iff {s : String} {op : Operation} : ofName? s = .ok op ↔ s = op.name := by
  constructor
  · intro h
    rw [ofName?] at h
    split at h
    · cases h
      assumption
    · split at h
      · cases h
        assumption
      · cases h
  · rintro rfl
    cases op <;> rfl

theorem decode_eq_ok_iff {j : Json} {op : Operation} : decode j = .ok op ↔ j.SpellsOperation op := by
  constructor
  · intro h
    match j with
    | .text s =>
        obtain rfl := ofName?_eq_ok_iff.mp h
        exact .name op
    | .object [(s, payload)] =>
        have hread : (ofName? s >>= fun op => decode (α := Unit) payload >>= fun _ => pure op) = .ok op := h
        obtain ⟨o, hs, hread⟩ := ok_of_bind hread
        obtain ⟨u, hpayload, ho⟩ := ok_of_bind hread
        cases ho
        obtain rfl := ofName?_eq_ok_iff.mp hs
        obtain rfl : .null = payload := LawfulCodec.encode_decode hpayload
        exact .member op
    | .object [] | .object (_ :: _ :: _) => cases h
    | .null | .bool _ | .int _ | .float _ | .list _ => cases h
  · rintro (_ | _)
    · exact ofName?_eq_ok_iff.mpr rfl
    · cases op <;> rfl

end Operation

namespace Change

variable [Codec α]

theorem decode_of_parts {j op item : Json} {o : Operation} (hparts : j.HoldsParts op item) (ho : op.SpellsOperation o) :
    decode (α := Change α) j = (decode item).map (Change.mk o) := by
  have hop : decode op = .ok o := Operation.decode_eq_ok_iff.mpr ho
  cases hparts with
  | object hmember hitem =>
      change ofMembers? _ = _
      rw [ofMembers?, hmember, hitem]
      simp only [Option.mapM_some, hop]
      cases decode (α := α) item <;> rfl
  | list =>
      change (Codec.decodeTwo .change decode decode [op, item]).map _ = _
      simp only [Codec.decodeTwo, hop]
      cases decode (α := α) item <;> rfl

theorem holdsParts_of_decode {j : Json} {c : Change α} (h : decode j = .ok c) :
    ∃ op item, j.HoldsParts op item ∧ op.SpellsOperation c.op ∧ decode item = .ok c.item := by
  cases j with
  | object members =>
      have hread : ofMembers? (.object members) = .ok c := h
      obtain ⟨item?, hitem, hread⟩ := ok_of_bind hread
      obtain ⟨op?, hop, hread⟩ := ok_of_bind hread
      split at hread
      · cases hread
        obtain ⟨op, hmember, hop⟩ := eq_some_of_mapM hop
        obtain ⟨item, hmember', hitem⟩ := eq_some_of_mapM hitem
        exact ⟨op, item, .object hmember hmember', Operation.decode_eq_ok_iff.mp hop, hitem⟩
      · cases hread
      · cases hread
  | list parts =>
      obtain ⟨p, hp, rfl⟩ := ok_of_map h
      obtain ⟨op, item, rfl, hop, hitem⟩ := Codec.decodeTwo_eq_ok.mp hp
      exact ⟨op, item, .list op item, Operation.decode_eq_ok_iff.mp hop, hitem⟩
  | _ => cases h

theorem decode_eq_ok_iff {j : Json} {c : Change α} : decode j = .ok c ↔
    ∃ op item, j.HoldsParts op item ∧ op.SpellsOperation c.op ∧ decode item = .ok c.item := by
  constructor
  · exact holdsParts_of_decode
  · rintro ⟨op, item, hparts, hop, hitem⟩
    rw [decode_of_parts hparts hop, hitem]
    rfl

theorem decode_ok_iff {j : Json} : (∃ c : Change α, decode j = .ok c) ↔
    ∃ op item, j.HoldsParts op item ∧ (∃ o, op.SpellsOperation o) ∧ ∃ a : α, decode item = .ok a := by
  constructor
  · rintro ⟨c, hc⟩
    obtain ⟨op, item, hparts, hop, hitem⟩ := decode_eq_ok_iff.mp hc
    exact ⟨op, item, hparts, ⟨c.op, hop⟩, c.item, hitem⟩
  · rintro ⟨op, item, hparts, ⟨o, hop⟩, a, hitem⟩
    exact ⟨⟨o, a⟩, decode_eq_ok_iff.mpr ⟨op, item, hparts, hop, hitem⟩⟩

theorem decode_canonical {j j' : Json} (h : j.HasCanonical j') : decode (α := Change α) j = decode j' := by
  obtain ⟨op, item, o, hparts, hop, rfl⟩ := h
  rw [decode_of_parts hparts hop, decode_of_parts (Json.holdsParts_canonicalChange o item) (.name o)]

theorem decode_encode (hitems : ∀ a : α, decode (encode a) = .ok a) (c : Change α) : decode (encode c) = .ok c :=
  decode_eq_ok_iff.mpr ⟨_, _, Json.holdsParts_canonicalChange c.op (encode c.item), .name c.op, hitems c.item⟩

theorem hasCanonical_encode [LawfulCodec α] {j : Json} {c : Change α} (h : decode j = .ok c) :
    j.HasCanonical (encode c) := by
  obtain ⟨op, item, hparts, hop, hitem⟩ := decode_eq_ok_iff.mp h
  refine ⟨op, item, c.op, hparts, hop, ?_⟩
  rw [← LawfulCodec.encode_decode hitem]
  rfl

end Change

namespace Changes

variable [Codec α]

theorem ofJson_eq_ok_iff {j : Json} {cs : Changes α} : ofJson j = .ok cs ↔ decode (α := List (Change α)) j = .ok cs := by
  rw [ofJson]
  cases decode (α := List (Change α)) j <;> simp [Except.mapError]

variable [LawfulCodec α]

/-- A change set is read back as it was written. What is read as one is just a list with a spelling of a change at each
place, and it is read as if each were replaced by the object by which the change is written. -/
theorem ofJson_reads_spellings :
    (∀ cs : Changes α, ofJson cs.toJson = .ok cs) ∧
    (∀ j : Json, (∃ cs : Changes α, ofJson j = .ok cs) ↔
      ∃ items, j = .list items ∧ ∀ item ∈ items, ∃ op payload,
        item.HoldsParts op payload ∧ (∃ o, op.SpellsOperation o) ∧ ∃ a : α, decode payload = .ok a) ∧
    (∀ items items', List.Forall₂ Json.HasCanonical items items' →
      ofJson (α := α) (.list items) = ofJson (.list items')) ∧
    ∀ (j : Json) (cs : Changes α), ofJson j = .ok cs →
      ∃ items items', j = .list items ∧ List.Forall₂ Json.HasCanonical items items' ∧
        cs.toJson = .list items' := by
  refine ⟨fun cs => ?_, fun j => ?_, fun items items' h => ?_, fun j cs h => ?_⟩
  · exact ofJson_eq_ok_iff.mpr (Codec.decode_encode_list (Change.decode_encode LawfulCodec.decode_encode) cs)
  · simp only [ofJson_eq_ok_iff, Codec.decode_list_ok_iff, Change.decode_ok_iff]
  · rw [ofJson, ofJson, Codec.decode_list_congr (h.imp fun _ _ => Change.decode_canonical)]
  · obtain ⟨items, rfl, hitems⟩ := Codec.decode_list_eq_ok_iff.mp (ofJson_eq_ok_iff.mp h)
    exact ⟨items, _, rfl, Codec.forall₂_encode_of_decode (fun _ _ => Change.hasCanonical_encode) hitems, rfl⟩

theorem ofJson_reads_spellings_mixed :
    let items : List Json :=
      [.object [("extra", .bool true), ("item", .list [.int 1, .text "a"]), ("op", .object [("Added", .null)])],
        .list [.text "Removed", .list [.int 2, .text "b"]],
        .object [("item", .list [.int 2, .text "c"]), ("op", .text "Added")]]
    let cs : Changes (Paired Int64 String) := [.added ⟨1, "a"⟩, .removed ⟨2, "b"⟩, .added ⟨2, "c"⟩]
    ofJson (.list items) = .ok cs ∧ ofJson cs.toJson = .ok cs ∧
      (∃ items', List.Forall₂ Json.HasCanonical items items' ∧
        ofJson (α := Paired Int64 String) (.list items) = ofJson (.list items') ∧ cs.toJson = .list items') ∧
      ¬∃ cs : Changes (Paired Int64 String), ofJson (.list [.object [("item", .list [.int 1, .text "a"])]]) = .ok cs := by
  intro items cs
  obtain ⟨hwritten, haccepted, hsame, hcanonical⟩ := ofJson_reads_spellings (α := Paired Int64 String)
  have hread : ofJson (.list items) = .ok cs := rfl
  obtain ⟨_, items', ⟨⟩, hitems, hcs⟩ := hcanonical _ cs hread
  refine ⟨hread, hwritten cs, ⟨items', hitems, hsame items items' hitems, hcs⟩, fun hincomplete => ?_⟩
  obtain ⟨_, ⟨⟩, hparts⟩ := (haccepted _).mp hincomplete
  obtain ⟨op, _, hmembers, _⟩ := hparts _ List.mem_cons_self
  cases hmembers with
  | object hop => cases hop

end Changes

end VersionedMap
