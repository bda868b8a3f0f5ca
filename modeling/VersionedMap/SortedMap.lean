namespace VersionedMap

variable {K V : Type} [Ord K]

/-- Whether two keys are the same key, however they are spelled. -/
def sameKey (a b : K) : Bool :=
  compare a b == .eq

@[simp]
theorem sameKey_iff {a b : K} : sameKey a b = true ↔ compare a b = .eq := by
  simp [sameKey]

def Ascending (entries : List (K × V)) : Prop :=
  entries.Pairwise fun a b => compare a.1 b.1 = .lt

instance (entries : List (K × V)) : Decidable (Ascending entries) :=
  inferInstanceAs (Decidable (entries.Pairwise _))

theorem Ascending.sublist {some all : List (K × V)} (h : some.Sublist all) (ascending : Ascending all) :
    Ascending some :=
  List.Pairwise.sublist h ascending

def insertWith (merge : K × V → K × V) (key : K) (entry : K × V) : List (K × V) → List (K × V)
  | [] => [entry]
  | head :: rest =>
    match compare key head.1 with
    | .lt => entry :: head :: rest
    | .eq => merge head :: rest
    | .gt => head :: insertWith merge key entry rest

theorem forall_mem_insertWith {merge : K × V → K × V} {key : K} {entry : K × V} {P : K × V → Prop}
    {entries : List (K × V)} (new : P entry)
    (old : ∀ e ∈ entries, P e) (merged : ∀ e ∈ entries, compare key e.1 = .eq → P (merge e)) :
    ∀ e ∈ insertWith merge key entry entries, P e := by
  induction entries with
  | nil => simpa [insertWith] using new
  | cons head rest ih =>
    rw [insertWith]
    split <;> simp_all

variable [Std.TransOrd K]

theorem ascending_insertWith {merge : K × V → K × V} {key : K} {entry : K × V} {entries : List (K × V)}
    (new : compare entry.1 key = .eq) (merged : ∀ e, compare key e.1 = .eq → compare (merge e).1 key = .eq)
    (h : Ascending entries) : Ascending (insertWith merge key entry entries) := by
  induction entries with
  | nil => simp [insertWith, Ascending]
  | cons head rest ih =>
    obtain ⟨below, tail⟩ := List.pairwise_cons.1 h
    rw [insertWith]
    split
    case h_1 lt =>
      have first : compare entry.1 head.1 = .lt := by
        rw [Std.TransCmp.congr_left new]; exact lt
      refine List.pairwise_cons.2 ⟨fun e he => ?_, h⟩
      rcases List.mem_cons.1 he with rfl | he
      · exact first
      · exact Std.TransCmp.lt_trans first (below e he)
    case h_2 eq =>
      refine List.pairwise_cons.2 ⟨fun e he => ?_, tail⟩
      rw [Std.TransCmp.congr_left (merged head eq), Std.TransCmp.congr_left eq]
      exact below e he
    case h_3 gt =>
      refine List.pairwise_cons.2 ⟨?_, ih tail⟩
      have above : compare head.1 key = .lt := Std.OrientedCmp.lt_of_gt gt
      refine forall_mem_insertWith ?_ below fun e _ eq => ?_
      · rw [Std.TransCmp.congr_right new]; exact above
      · rw [Std.TransCmp.congr_right (merged e eq)]; exact above

/-- A look-up after an insertion: the key inserted is found as it was merged, and no other key is
affected. -/
theorem find?_insertWith {merge : K × V → K × V} {key : K} {entry : K × V} {entries : List (K × V)}
    (new : compare entry.1 key = .eq) (merged : ∀ e, compare key e.1 = .eq → compare (merge e).1 key = .eq)
    (h : Ascending entries) (q : K) :
    (insertWith merge key entry entries).find? (sameKey ·.1 q) =
      if sameKey key q then some ((entries.find? (sameKey ·.1 key)).elim entry merge)
      else entries.find? (sameKey ·.1 q) := by
  have reaches {e : K × V} (eq : compare e.1 key = .eq) : sameKey e.1 q = sameKey key q := by
    rw [sameKey, sameKey, Std.TransCmp.congr_left eq]
  induction entries with
  | nil => simp [insertWith, List.find?, reaches new]
  | cons head rest ih =>
    obtain ⟨below, tail⟩ := List.pairwise_cons.1 h
    rw [insertWith]
    split
    case h_1 lt =>
      have absent : (head :: rest).find? (sameKey ·.1 key) = none := by
        refine List.find?_eq_none.2 fun e mem same => ?_
        have above : compare key e.1 = .lt := by
          rcases List.mem_cons.1 mem with rfl | mem
          · exact lt
          · exact Std.TransCmp.lt_trans lt (below e mem)
        have := Std.OrientedCmp.eq_symm (sameKey_iff.1 same)
        simp [above] at this
      rw [absent, List.find?_cons, reaches new]
      split <;> simp_all
    case h_2 eq =>
      have here : sameKey head.1 key = true := sameKey_iff.2 (Std.OrientedCmp.eq_symm eq)
      rw [List.find?_cons, List.find?_cons, List.find?_cons, here, reaches (merged head eq),
        reaches (sameKey_iff.1 here)]
      split <;> simp_all
    case h_3 gt =>
      have elsewhere : sameKey head.1 key = false := by
        have above : compare head.1 key = .lt := Std.OrientedCmp.lt_of_gt gt
        simp [sameKey, above]
      rw [List.find?_cons, List.find?_cons, List.find?_cons, ih tail, elsewhere]
      by_cases same : sameKey key q = true
      · have apart : sameKey head.1 q = false := by
          rw [sameKey, ← Std.TransCmp.congr_right (sameKey_iff.1 same)]
          exact elsewhere
        simp [apart, same]
      · simp [same]

theorem find?_eraseP {entries : List (K × V)} (h : Ascending entries) (key q : K) :
    (entries.eraseP (sameKey ·.1 key)).find? (sameKey ·.1 q) =
      if sameKey key q then none else entries.find? (sameKey ·.1 q) := by
  induction entries with
  | nil => simp
  | cons head rest ih =>
    obtain ⟨below, tail⟩ := List.pairwise_cons.1 h
    rw [List.eraseP_cons]
    cases here : sameKey head.1 key with
    | true =>
      have alike : sameKey head.1 q = sameKey key q := by
        rw [sameKey, sameKey, Std.TransCmp.congr_left (sameKey_iff.1 here)]
      cases same : sameKey key q with
      | true =>
        refine List.find?_eq_none.2 fun e mem found => ?_
        have above := below e mem
        rw [Std.TransCmp.congr_left (sameKey_iff.1 (alike.trans same)),
          Std.OrientedCmp.eq_symm (sameKey_iff.1 found)] at above
        exact nomatch above
      | false => simp [alike, same]
    | false =>
      simp only [cond_false, List.find?_cons, ih tail]
      cases same : sameKey key q with
      | true =>
        have apart : sameKey head.1 q = false := by
          rw [sameKey, ← Std.TransCmp.congr_right (sameKey_iff.1 same)]
          exact here
        simp [apart]
      | false => simp

structure SortedMap (K V : Type) [Ord K] where
  entries : List (K × V)
  ascending : Ascending entries

namespace SortedMap

omit [Std.TransOrd K] in
@[ext]
theorem ext {m n : SortedMap K V} (h : m.entries = n.entries) : m = n := by
  cases m; cases n; simp_all

def empty : SortedMap K V :=
  ⟨[], .nil⟩

instance : Inhabited (SortedMap K V) := ⟨empty⟩

def size (m : SortedMap K V) : Nat :=
  m.entries.length

def isEmpty (m : SortedMap K V) : Bool :=
  m.entries.isEmpty

def lookup? (m : SortedMap K V) (key : K) : Option (K × V) :=
  m.entries.find? fun e => sameKey e.1 key

def get? (m : SortedMap K V) (key : K) : Option V :=
  (m.lookup? key).map (·.2)

def contains (m : SortedMap K V) (key : K) : Bool :=
  (m.lookup? key).isSome

/-- Sets the value under `key`; a key that is there keeps its spelling, where `put` spells it as given.
-/
def insert (m : SortedMap K V) (key : K) (value : V) : SortedMap K V where
  entries := insertWith (fun old => (old.1, value)) key (key, value) m.entries
  ascending := ascending_insertWith Std.ReflCmp.compare_self (fun _ h => Std.OrientedCmp.eq_symm h) m.ascending

def put (m : SortedMap K V) (key : K) (value : V) : SortedMap K V where
  entries := insertWith (fun _ => (key, value)) key (key, value) m.entries
  ascending := ascending_insertWith Std.ReflCmp.compare_self (fun _ _ => Std.ReflCmp.compare_self) m.ascending

def erase (m : SortedMap K V) (key : K) : SortedMap K V where
  entries := m.entries.eraseP fun e => sameKey e.1 key
  ascending := m.ascending.sublist List.eraseP_sublist

theorem lookup?_insert (m : SortedMap K V) (key : K) (value : V) (q : K) :
    (m.insert key value).lookup? q =
      if sameKey key q then some ((m.lookup? key).elim key (·.1), value) else m.lookup? q := by
  simp only [lookup?, insert]
  refine (find?_insertWith ?_ ?_ m.ascending q).trans ?_
  · exact Std.ReflCmp.compare_self
  · exact fun _ h => Std.OrientedCmp.eq_symm h
  · cases m.entries.find? (sameKey ·.1 key) <;> rfl

theorem lookup?_put (m : SortedMap K V) (key : K) (value : V) (q : K) :
    (m.put key value).lookup? q = if sameKey key q then some (key, value) else m.lookup? q := by
  simp only [lookup?, put]
  refine (find?_insertWith ?_ ?_ m.ascending q).trans ?_
  · exact Std.ReflCmp.compare_self
  · exact fun _ _ => Std.ReflCmp.compare_self
  · cases m.entries.find? (sameKey ·.1 key) <;> rfl

theorem lookup?_erase (m : SortedMap K V) (key q : K) :
    (m.erase key).lookup? q = if sameKey key q then none else m.lookup? q :=
  find?_eraseP m.ascending key q

/-- Sorts entries by key; of several under one key the last stays. -/
def ofList (entries : List (K × V)) : SortedMap K V :=
  entries.foldl (fun m e => m.put e.1 e.2) empty

def atLeast (m : SortedMap K V) (key : K) : List (K × V) :=
  m.entries.dropWhile fun e => compare e.1 key == .lt

def atMost (m : SortedMap K V) (key : K) : List (K × V) :=
  m.entries.takeWhile fun e => compare e.1 key != .gt

end SortedMap

end VersionedMap
