import VersionedMap.Inspect

namespace VersionedMap

structure Descending (α : Type) where
  value : α
deriving DecidableEq, Hashable, Repr

namespace Descending

variable {α : Type}

instance [Ord α] : Ord (Descending α) := ⟨fun a b => compare b.value a.value⟩

instance [Ord α] [Std.TransOrd α] : Std.TransOrd (Descending α) where
  eq_swap {a b} := @Std.OrientedCmp.eq_swap α compare _ b.value a.value
  isLE_trans h h' := @Std.TransCmp.isLE_trans α compare _ _ _ _ h' h

instance [Inspect α] : Inspect (Descending α) := ⟨fun a => "Reverse(" ++ inspect a.value ++ ")"⟩

end Descending

/-- Text in which the letters A to Z stand for a to z, so that equal keys may be spelled differently. -/
structure Caseless where
  text : String
deriving Repr

namespace Caseless

def folded (k : Caseless) : String :=
  k.text.map Char.toLower

instance : BEq Caseless := ⟨fun a b => a.folded == b.folded⟩

instance : Hashable Caseless := ⟨fun a => hash a.folded⟩

instance : Ord Caseless := ⟨fun a b => compare a.folded b.folded⟩

instance : Std.TransOrd Caseless where
  eq_swap {a b} := @Std.OrientedCmp.eq_swap String compare _ a.folded b.folded
  isLE_trans h h' := @Std.TransCmp.isLE_trans String compare _ _ _ _ h h'

instance : Inspect Caseless := ⟨fun a => Inspect.quoted a.text⟩

end Caseless

structure Paired (α β : Type) where
  fst : α
  snd : β
deriving DecidableEq, Hashable, Repr

namespace Paired

variable {α β : Type}

def compareParts [Ord α] [Ord β] (a b : Paired α β) : Ordering :=
  (compare a.fst b.fst).then (compare a.snd b.snd)

instance [Ord α] [Ord β] : Ord (Paired α β) := ⟨compareParts⟩

instance [Ord α] [Ord β] [Std.TransOrd α] [Std.TransOrd β] : Std.TransOrd (Paired α β) :=
  inferInstanceAs (Std.TransCmp
    (compareLex (compareOn Paired.fst) (compareOn (Paired.snd (α := α) (β := β)))))

instance [Inspect α] [Inspect β] : Inspect (Paired α β) :=
  ⟨fun a => "(" ++ inspect a.fst ++ ", " ++ inspect a.snd ++ ")"⟩

end Paired

/-- Text compared without regard to ASCII case, except that `NaN`, spelled so, equals nothing: an
equality that is not reflexive. -/
structure OddText where
  text : String
deriving Repr

namespace OddText

instance : BEq OddText :=
  ⟨fun a b => a.text != "NaN" && b.text != "NaN" && a.text.map Char.toLower == b.text.map Char.toLower⟩

instance : Inspect OddText := ⟨fun a => Inspect.quoted a.text⟩

end OddText

end VersionedMap
