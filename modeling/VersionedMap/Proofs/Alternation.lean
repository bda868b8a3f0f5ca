import VersionedMap.Replay
import VersionedMap.Proofs.SortedEntries

namespace VersionedMap

def Operation.fitting (held : Bool) : Operation :=
  if held then .removed else .added

def Operation.fault : Operation → Fault
  | .removed => .keyNotFound
  | .added => .keyPresent

/-- Removals and additions take turns, a removal first if the key is there at the start. -/
def Alternate : Bool → List Operation → Prop
  | _, [] => True
  | held, op :: ops => op = .fitting held ∧ Alternate (!held) ops

variable {K V : Type} [Ord K]

/-- What a change leaves under its key. -/
def Change.leaves (c : Change (K × V)) : Option (K × V) :=
  match c.op with
  | .removed => none
  | .added => some c.item

namespace Changes

def on (cs : Changes (K × V)) (key : K) : Changes (K × V) :=
  cs.filter (sameKey ·.item.1 key)

def replacing {α : Type} (old? new? : Option α) : Changes α :=
  old?.toList.map .removed ++ new?.toList.map .added

theorem on_cons_same {c : Change (K × V)} {key : K} (h : compare c.item.1 key = .eq) (cs : Changes (K × V)) :
    on (c :: cs) key = c :: on cs key :=
  List.filter_cons_of_pos (sameKey_iff.mpr h)

theorem on_cons_other {c : Change (K × V)} {key : K} (h : compare c.item.1 key ≠ .eq) (cs : Changes (K × V)) :
    on (c :: cs) key = on cs key :=
  List.filter_cons_of_neg fun hsame => h (sameKey_iff.mp hsame)

theorem on_append (cs ds : Changes (K × V)) (key : K) : on (cs ++ ds) key = on cs key ++ on ds key :=
  List.filter_append cs ds

theorem on_map_of_distinct [Std.TransOrd K] {entries : List (K × V)} (h : Distinct entries) (op : Operation)
    (q : K) : on (entries.map (Change.mk op)) q = (entryAt entries q).toList.map (Change.mk op) := by
  induction entries with
  | nil => rfl
  | cons e entries ih =>
      by_cases hq : compare e.1 q = .eq
      · rw [List.map_cons, on_cons_same (c := ⟨op, e⟩) hq, ih h.of_cons, h.entryAt_tail hq, entryAt_cons_same hq]
        rfl
      · rw [List.map_cons, on_cons_other (c := ⟨op, e⟩) hq, ih h.of_cons, entryAt_cons_other hq]

end Changes

namespace SortedMap

/-- The changes on every key take turns, beginning with one that fits the map. -/
def Admits (m : SortedMap K V) (cs : Changes (K × V)) : Prop :=
  ∀ key, Alternate (m.contains key) ((cs.on key).map (·.op))

variable [Std.TransOrd K] {m m' : SortedMap K V} {c : Change (K × V)} {cs : Changes (K × V)}

theorem ext_lookup? {m n : SortedMap K V} (h : ∀ q, m.lookup? q = n.lookup? q) : m = n :=
  SortedMap.ext (m.ascending.eq_of_entryAt n.ascending h)

theorem lookup?_congr (m : SortedMap K V) {a b : K} (h : compare a b = .eq) : m.lookup? a = m.lookup? b :=
  entryAt_congr m.entries h

theorem contains_congr (m : SortedMap K V) {a b : K} (h : compare a b = .eq) : m.contains a = m.contains b := by
  rw [contains, contains, m.lookup?_congr h]

theorem applyChange_cases (m : SortedMap K V) (c : Change (K × V)) :
    (c.op = .fitting (m.contains c.item.1) ∧ ∃ m', m.applyChange c = .ok m' ∧
      ∀ q, m'.lookup? q = if sameKey c.item.1 q then c.leaves else m.lookup? q) ∨
    (c.op ≠ .fitting (m.contains c.item.1) ∧ m.applyChange c = .error c.op.fault) := by
  obtain ⟨op, key, value⟩ := c
  cases op with
  | removed =>
      cases hheld : m.contains key with
      | true => exact .inl ⟨rfl, m.erase key, if_pos hheld, m.lookup?_erase key⟩
      | false => exact .inr ⟨nofun, if_neg (Bool.eq_false_iff.mp hheld)⟩
  | added =>
      cases hheld : m.contains key with
      | true => exact .inr ⟨nofun, if_pos hheld⟩
      | false =>
          refine .inl ⟨rfl, m.insert key value, if_neg (Bool.eq_false_iff.mp hheld), fun q => ?_⟩
          have hnone : m.lookup? key = none := Option.not_isSome_iff_eq_none.mp (Bool.eq_false_iff.mp hheld)
          rw [m.lookup?_insert, hnone]
          rfl

omit [Std.TransOrd K] in
theorem admits_nil (m : SortedMap K V) : m.Admits [] :=
  fun _ => trivial

theorem not_admits_of_not_fitting (h : c.op ≠ .fitting (m.contains c.item.1)) (cs : Changes (K × V)) :
    ¬ m.Admits (c :: cs) := by
  intro hadmits
  have hturns := hadmits c.item.1
  rw [Changes.on_cons_same Std.ReflCmp.compare_self, List.map_cons] at hturns
  exact h hturns.1

theorem admits_cons_iff (hfit : c.op = .fitting (m.contains c.item.1))
    (hm : ∀ q, m'.lookup? q = if sameKey c.item.1 q then c.leaves else m.lookup? q) :
    m.Admits (c :: cs) ↔ m'.Admits cs := by
  refine forall_congr' fun q => ?_
  by_cases hq : compare c.item.1 q = .eq
  · rw [m.contains_congr hq] at hfit
    have hturn : m'.contains q = !m.contains q := by
      rw [contains, hm, if_pos (sameKey_iff.mpr hq), Change.leaves, hfit]
      cases m.contains q <;> rfl
    rw [Changes.on_cons_same hq, List.map_cons, hturn]
    exact and_iff_right hfit
  · have hsame : m'.contains q = m.contains q := by
      rw [contains, hm, if_neg (by simpa using hq), ← contains]
    rw [Changes.on_cons_other hq, hsame]

/-- Changes that take turns are all made. Each key is left with what its last change says. -/
theorem replay_of_admits (h : m.Admits cs) :
    ∃ m', m.replay cs = (m', none) ∧
      ∀ q, m'.lookup? q = (cs.on q).getLast?.elim (m.lookup? q) Change.leaves := by
  induction cs generalizing m with
  | nil => exact ⟨m, rfl, fun _ => rfl⟩
  | cons c cs ih =>
      rcases m.applyChange_cases c with ⟨hfit, m₁, happly, hlookup⟩ | ⟨hunfit, _⟩
      · obtain ⟨m₂, hreplay, hlast⟩ := ih ((admits_cons_iff hfit hlookup).mp h)
        refine ⟨m₂, by simp only [replay, happly, hreplay], fun q => ?_⟩
        rw [hlast]
        by_cases hq : compare c.item.1 q = .eq
        · rw [Changes.on_cons_same hq, List.getLast?_cons, hlookup, if_pos (sameKey_iff.mpr hq)]
          cases (Changes.on cs q).getLast? <;> rfl
        · rw [Changes.on_cons_other hq, hlookup, if_neg (by simpa using hq)]
      · exact absurd h (not_admits_of_not_fitting hunfit cs)

theorem replay_of_not_admits (h : ¬ m.Admits cs) :
    ∃ before c after, cs = before ++ c :: after ∧ m.Admits before ∧ ¬ m.Admits (before ++ [c]) ∧
      m.replay cs = ((m.replay before).1, some c.op.fault) := by
  induction cs generalizing m with
  | nil => exact absurd m.admits_nil h
  | cons c cs ih =>
      rcases m.applyChange_cases c with ⟨hfit, m₁, happly, hlookup⟩ | ⟨hunfit, happly⟩
      · have hstep (ds : Changes (K × V)) : m.Admits (c :: ds) ↔ m₁.Admits ds := admits_cons_iff hfit hlookup
        obtain ⟨before, d, after, rfl, hbefore, hd, hreplay⟩ := ih (mt (hstep cs).mpr h)
        refine ⟨c :: before, d, after, rfl, (hstep before).mpr hbefore, mt (hstep _).mp hd, ?_⟩
        simp only [replay, happly, hreplay]
      · refine ⟨[], c, cs, rfl, m.admits_nil, not_admits_of_not_fitting hunfit [], ?_⟩
        simp only [replay, happly]

theorem replay_eq_none_iff : (m.replay cs).2 = none ↔ m.Admits cs := by
  constructor
  · intro hreplay
    by_contra h
    obtain ⟨_, _, _, _, _, _, hfault⟩ := replay_of_not_admits h
    rw [hfault] at hreplay
    cases hreplay
  · intro h
    obtain ⟨_, hreplay, _⟩ := replay_of_admits h
    rw [hreplay]

theorem replay_of_replacing {new? : K → Option (K × V)}
    (h : ∀ q, cs.on q = .replacing (m.lookup? q) (new? q) ∨ cs.on q = [] ∧ m.lookup? q = new? q) :
    ∃ m', m.replay cs = (m', none) ∧ ∀ q, m'.lookup? q = new? q := by
  have hadmits : m.Admits cs := by
    intro q
    rcases h q with hon | ⟨hon, _⟩
    · rw [hon, contains]
      cases m.lookup? q <;> cases new? q <;> simp [Changes.replacing, Alternate, Operation.fitting]
    · rw [hon]
      trivial
  obtain ⟨m', hreplay, hlookup⟩ := replay_of_admits hadmits
  refine ⟨m', hreplay, fun q => ?_⟩
  rw [hlookup]
  rcases h q with hon | ⟨hon, hsame⟩
  · rw [hon]
    cases m.lookup? q <;> cases new? q <;> rfl
  · rw [hon]
    exact hsame

/-- A replay goes through if and only if the changes on every key take turns. It leaves each key with what the last
change on it says, and other keys as they are, whichever way the changes on different keys are interleaved. Otherwise
it ends at the first change out of turn, with the changes before that one made. -/
theorem replay_iff_alternate (m : SortedMap K V) (cs : Changes (K × V)) :
    ((m.replay cs).2 = none ↔ m.Admits cs) ∧
    ((m.replay cs).2 = none →
      (∀ q, (m.replay cs).1.lookup? q = (cs.on q).getLast?.elim (m.lookup? q) Change.leaves) ∧
      ∀ cs' : Changes (K × V), (∀ q, cs'.on q = cs.on q) → m.replay cs' = m.replay cs) ∧
    ((m.replay cs).2 ≠ none → ∃ before c after, cs = before ++ c :: after ∧
      m.Admits before ∧ ¬ m.Admits (before ++ [c]) ∧
      (m.replay before).2 = none ∧ m.replay cs = ((m.replay before).1, some c.op.fault)) := by
  refine ⟨replay_eq_none_iff, fun hreplay => ?_, fun hfault => ?_⟩
  · have h := replay_eq_none_iff.mp hreplay
    obtain ⟨m₁, hreplay, hlookup⟩ := replay_of_admits h
    rw [hreplay]
    refine ⟨hlookup, fun cs' hon => ?_⟩
    have h' : m.Admits cs' := fun q => by rw [hon]; exact h q
    obtain ⟨m₂, hreplay', hlookup'⟩ := replay_of_admits h'
    rw [hreplay']
    have hm : m₂ = m₁ := ext_lookup? fun q => by rw [hlookup', hlookup, hon]
    rw [hm]
  · obtain ⟨before, c, after, hcs, hbefore, hc, hreplay⟩ := replay_of_not_admits (mt replay_eq_none_iff.mpr hfault)
    obtain ⟨_, hmade, _⟩ := replay_of_admits hbefore
    exact ⟨before, c, after, hcs, hbefore, hc, by rw [hmade], hreplay⟩

theorem replay_iff_alternate_interrupted :
    let m : SortedMap Nat Nat := ⟨[(1, 10), (3, 30)], by decide⟩
    let made : Changes (Nat × Nat) := [.removed (1, 0), .added (5, 50), .added (1, 11), .removed (5, 0)]
    let cs := made ++ [.added (3, 31), .removed (9, 90)]
    (m.replay made).1.entries = [(1, 11), (3, 30)] ∧
    (∀ q, (m.replay made).1.lookup? q = (made.on q).getLast?.elim (m.lookup? q) Change.leaves) ∧
    (∀ cs' : Changes (Nat × Nat), (∀ q, cs'.on q = made.on q) → m.replay cs' = m.replay made) ∧
    ¬ m.Admits cs ∧ ∃ before c after, cs = before ++ c :: after ∧
      m.Admits before ∧ ¬ m.Admits (before ++ [c]) ∧
      (m.replay before).2 = none ∧ m.replay cs = ((m.replay before).1, some c.op.fault) := by
  intro m made cs
  have hfault : (m.replay cs).2 ≠ none := nofun
  obtain ⟨hlookup, hordered⟩ := (replay_iff_alternate m made).2.1 rfl
  obtain ⟨hadmits, _, hmade⟩ := replay_iff_alternate m cs
  exact ⟨rfl, hlookup, hordered, mt hadmits.mpr hfault, hmade hfault⟩

end SortedMap

end VersionedMap
