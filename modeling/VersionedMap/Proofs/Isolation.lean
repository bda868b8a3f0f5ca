import VersionedMap.KeySet
import VersionedMap.Proofs.SerialOrder

namespace VersionedMap

variable {τ ν K V : Type} [Ord K]

namespace Transaction

structure ReadsLike (t t' : Transaction K V) : Prop where
  origin : t'.origin = t.origin
  base : t'.base = t.base
  get? : ∀ q, t'.get? q = t.get? q
  get : ∀ q, t'.get q = t.get q
  contains : ∀ q, t'.contains q = t.contains q
  size : t'.size = t.size
  isEmpty : t'.isEmpty = t.isEmpty
  hasChanges : t'.hasChanges = t.hasChanges
  ascending : t'.ascending = t.ascending
  descending : t'.descending = t.descending
  atLeast : ∀ q, t'.atLeast q = t.atLeast q
  atMost : ∀ q, t'.atMost q = t.atMost q
  diff : t'.diff = t.diff

theorem readsLike_of_overlay {t t' : Transaction K V} (horigin : t'.origin = t.origin)
    (hoverlay : t'.overlay = t.overlay) : t.ReadsLike t' := by
  obtain ⟨origin, overlay, status⟩ := t
  cases horigin
  cases hoverlay
  constructor <;> intros <;> rfl

def close (t : Transaction K V) : Transaction K V :=
  { t with status := .committed }

variable [Std.TransOrd K] [BEq V] {t : Transaction K V}

def attempt (t : Transaction K V) (c : Call K V) : Transaction K V :=
  match t.call c with
  | .ok (_, t') => t'
  | .error _ => t

theorem attempt_of_committed (ht : t.status = .committed) (c : Call K V) : t.attempt c = t := by
  have hclosed (edit : Edit) : t.ensureActive edit = .error (.committed edit) := by rw [ensureActive, ht]
  cases c with
  | set => simp only [attempt, call, set, hclosed, bind, Except.bind]
  | remove => simp only [attempt, call, remove, hclosed, bind, Except.bind]
  | tryRemove => simp only [attempt, call, tryRemove, remove, hclosed, bind, Except.bind, pure, Except.pure]
  | revert => simp only [attempt, call, revert, hclosed, bind, Except.bind]

end Transaction

namespace Session

open Transaction

def Op.own [DecidableEq τ] [Std.TransOrd K] [BEq V] (name : τ) (t : Transaction K V) (op : Op τ ν K V) :
    Transaction K V :=
  match op with
  | .commit other => if other = name then t.close else t
  | op =>
    match op.call? with
    | some (other, c) => if other = name then t.attempt c else t
    | none => t

/-- What an operation makes of what is under `name`, while `current` is the current snapshot. -/
def Op.act [DecidableEq τ] [Std.TransOrd K] [BEq V] (current : Pinned K V) (name : τ)
    (t? : Option (Transaction K V)) (op : Op τ ν K V) : Option (Transaction K V) :=
  match op with
  | .start other => if other = name then some (.start current) else t?
  | .drop other => if other = name then none else t?
  | op => t?.map (op.own name)

variable {s : Session τ ν K V}

section Names

variable [DecidableEq τ] {name other : τ}

theorem transaction?_hold_other (h : other ≠ name) (t : Transaction K V) :
    (s.hold name t).transaction? other = s.transaction? other := by
  rw [transaction?, transaction?, hold]
  split
  · generalize s.transactions = entries
    induction entries with
    | nil => rfl
    | cons e entries ih =>
        rw [List.map_cons, List.lookup_cons, List.lookup_cons, ih]
        by_cases he : e.1 = name
        · simp [he, beq_eq_false_iff_ne.mpr h]
        · rw [if_neg he]
  · rw [List.lookup_cons, beq_eq_false_iff_ne.mpr h]

theorem lookup_eraseP {α : Type} {entries : List (τ × α)} (h : (entries.map (·.1)).Nodup) (name other : τ) :
    (entries.eraseP (·.1 == other)).lookup name = if other = name then none else entries.lookup name := by
  by_cases hother : other = name
  · subst hother
    rw [if_pos rfl, List.lookup_eq_none_iff]
    intro e he
    refine bne_iff_ne.mpr fun heq => ?_
    have hmem : other ∈ (entries.map (·.1)).erase other := by
      rw [List.erase_eq_eraseP', List.eraseP_map]
      exact List.mem_map.mpr ⟨e, he, heq.symm⟩
    exact h.not_mem_erase hmem
  · rw [if_neg hother, Signal.lookup_eraseP_of_ne hother]

theorem hold_self (h : (s.transactions.map (·.1)).Nodup) {t : Transaction K V} (ht : s.transaction? name = some t) :
    s.hold name t = s := by
  have hmem := mem_of_transaction? ht
  have hany : s.transactions.any (·.1 == name) = true := List.any_eq_true.mpr ⟨_, hmem, beq_self_eq_true name⟩
  have hmap : (s.transactions.map fun e => if e.1 = name then (name, t) else e) = s.transactions := by
    refine (List.map_congr_left fun e he => ?_).trans (List.map_id _)
    by_cases hname : e.1 = name
    · have hheld : s.transaction? name = some e.2 := transaction?_of_mem h (hname ▸ he)
      rw [ht] at hheld
      rw [if_pos hname, Option.some.inj hheld, ← hname]
      rfl
    · rw [if_neg hname]
      rfl
  rw [hold, if_pos hany, hmap]

end Names

variable [DecidableEq τ] [DecidableEq ν] [Std.TransOrd K] [BEq V] {name : τ}

theorem names_step (h : (s.transactions.map (·.1)).Nodup) (op : Op τ ν K V) :
    ((s.step op).2.transactions.map (·.1)).Nodup := by
  have hcalled {op : Op τ ν K V} {name : τ} {c : Call K V} (hc : op.call? = some (name, c)) :
      ((s.step op).2.transactions.map (·.1)).Nodup := by
    rw [step_of_call hc]
    split
    · exact h
    · split
      · exact h
      · exact names_hold h _ _
  cases op with
  | start name =>
      rw [step, start, transactions_discard]
      exact names_hold h name _
  | set | remove | tryRemove | revert => exact hcalled rfl
  | commit name =>
      have hcases := s.commit_cases name
      rw [step]
      generalize s.commit name = result at hcases ⊢
      cases hcases with
      | unknown | refused => exact h
      | unchanged => exact names_hold h name _
      | changed => exact names_hold (s := { s with store := _ }) h name _
  | drop name =>
      rw [step, drop, transactions_discard]
      exact h.sublist (List.eraseP_sublist.map _)
  | subscribe | disconnect | detach | count => exact h

theorem Reachable.names (h : s.Reachable) : (s.transactions.map (·.1)).Nodup := by
  induction h with
  | opened entries => exact List.nodup_nil
  | step op h ih => exact names_step ih op

omit [Std.TransOrd K] [DecidableEq ν] [BEq V] in
theorem map_of_ne {other : τ} (h : other ≠ name) (f : Transaction K V → Transaction K V)
    (t? : Option (Transaction K V)) : t? = t?.map fun t => if other = name then f t else t := by
  simp [h]

theorem transaction?_of_call {op : Op τ ν K V} {other : τ} {c : Call K V} (hc : op.call? = some (other, c))
    (name : τ) : (s.step op).2.transaction? name =
      (s.transaction? name).map fun t => if other = name then t.attempt c else t := by
  rw [step_of_call hc]
  by_cases hname : other = name
  · subst hname
    cases ht : s.transaction? other with
    | none => exact ht
    | some t =>
        simp only [Option.map_some, if_true, attempt]
        cases t.call c with
        | error fault => exact ht
        | ok result => exact transaction?_hold s other result.2
  · rw [← map_of_ne hname]
    split
    · rfl
    · split
      · rfl
      · exact transaction?_hold_other (Ne.symm hname) _

omit [Std.TransOrd K] [BEq V] in
theorem transaction?_commit (s : Session τ ν K V) (other name : τ) : (s.commit other).2.transaction? name =
    (s.transaction? name).map fun t => if other = name then t.close else t := by
  have hcases := s.commit_cases other
  generalize s.commit other = result at hcases ⊢
  by_cases hname : other = name
  · subst hname
    cases hcases with
    | unknown hnone => rw [hnone, Option.map_none]
    | refused t ht hstatus => rw [ht, Option.map_some, if_pos rfl, close, ← hstatus]
    | unchanged t ht =>
        rw [ht, Option.map_some, if_pos rfl]
        exact transaction?_hold s other t.close
    | changed t ht =>
        rw [ht, Option.map_some, if_pos rfl]
        exact transaction?_hold _ other t.close
  · rw [← map_of_ne hname]
    cases hcases with
    | unknown | refused => rfl
    | unchanged t => exact transaction?_hold_other (Ne.symm hname) t.close
    | changed t => exact transaction?_hold_other (s := { s with store := _ }) (Ne.symm hname) t.close

/-- What is under a name after an operation follows from what was there before and from the operation. -/
theorem transaction?_step (h : (s.transactions.map (·.1)).Nodup) (op : Op τ ν K V) (name : τ) :
    (s.step op).2.transaction? name = op.act s.store.current name (s.transaction? name) := by
  cases op with
  | start other =>
      rw [step, start, transaction?, transactions_discard, ← transaction?, Op.act]
      by_cases hname : other = name
      · rw [if_pos hname, ← hname]
        exact transaction?_hold _ other _
      · rw [if_neg hname]
        exact transaction?_hold_other (Ne.symm hname) _
  | set | remove | tryRemove | revert => exact transaction?_of_call rfl name
  | commit other => exact s.transaction?_commit other name
  | drop other =>
      rw [step, drop, transaction?, transactions_discard]
      exact lookup_eraseP h name other
  | subscribe | disconnect | detach | count => exact (Option.map_id_apply ..).symm

def Op.ends (name : τ) : Op τ ν K V → Bool
  | .start other | .drop other => decide (other = name)
  | _ => false

def Op.edits (name : τ) (op : Op τ ν K V) : Bool :=
  op.call?.any (·.1 = name)

/-- What a session keeps from its transaction `t` under `name`, and what it keeps that from. -/
structure Isolates (s : Session τ ν K V) (name : τ) (t : Transaction K V) : Prop where
  own : ∀ ops : List (Op τ ν K V), (∀ op ∈ ops, op.ends name = false) →
    (s.run ops).transaction? name = some (ops.foldl (Op.own name) t)
  reads : ∀ ops : List (Op τ ν K V), (∀ op ∈ ops, op.ends name = false) →
    t.status = .committed ∨ (∀ op ∈ ops, op.edits name = false) →
      ∃ t', (s.run ops).transaction? name = some t' ∧ t.ReadsLike t'
  stays : t.status = .committed → ∀ ops : List (Op τ ν K V), (∀ op ∈ ops, op.ends name = false) →
    (s.run ops).transaction? name = some t
  refuses : t.status = .committed → ∀ key value,
    s.step (.set name key value) = (.refused (.committed .set), s) ∧
      s.step (.remove name key) = (.refused (.committed .remove), s) ∧
      s.step (.tryRemove name key) = (.flag false, s) ∧
      s.step (.revert name) = (.refused (.committed .revert), s) ∧
      s.step (.commit name) = (.refused (.committed .commit), s)
  drops : (s.step (.drop name)).2.store =
    if t.status = .active ∧ t.hasChanges then s.store.record (.discarded t.base.version t.overlay.size) else s.store
  replaces : (s.step (.start name)).2.store =
    let started := s.store.record (.started s.store.version)
    if t.status = .active ∧ t.hasChanges then started.record (.discarded t.base.version t.overlay.size) else started

variable {t : Transaction K V} {op : Op τ ν K V} {ops : List (Op τ ν K V)}

omit [DecidableEq ν] in
theorem Op.act_of_not_ends (h : op.ends name = false) (current : Pinned K V) :
    op.act current name (some t) = some (op.own name t) := by
  cases op with
  | start other | drop other => exact if_neg (of_decide_eq_false h)
  | set | remove | tryRemove | revert | commit | subscribe | disconnect | detach | count => rfl

theorem own_run (h : (s.transactions.map (·.1)).Nodup) (ht : s.transaction? name = some t)
    (hops : ∀ op ∈ ops, op.ends name = false) :
    (s.run ops).transaction? name = some (ops.foldl (Op.own name) t) := by
  induction ops generalizing s t with
  | nil => exact ht
  | cons op ops ih =>
      obtain ⟨hop, hops⟩ := List.forall_mem_cons.mp hops
      refine ih (names_step h op) ?_ hops
      rw [transaction?_step h, ht, Op.act_of_not_ends hop]

omit [DecidableEq ν] in
theorem Op.own_of_committed (ht : t.status = .committed) (op : Op τ ν K V) : op.own name t = t := by
  have hclose : t.close = t := by rw [close, ← ht]
  cases op with
  | set | remove | tryRemove | revert => simp only [own, call?, attempt_of_committed ht, ite_self]
  | commit => simp only [own, hclose, ite_self]
  | start | drop | subscribe | disconnect | detach | count => rfl

omit [DecidableEq ν] in
theorem own_all_of_committed (ht : t.status = .committed) (ops : List (Op τ ν K V)) :
    ops.foldl (Op.own name) t = t := by
  induction ops with
  | nil => rfl
  | cons op ops ih => rw [List.foldl_cons, op.own_of_committed ht, ih]

omit [DecidableEq ν] in
theorem Op.own_of_not_edits (h : op.edits name = false) :
    (op.own name t).origin = t.origin ∧ (op.own name t).overlay = t.overlay := by
  cases op with
  | set other | remove other | tryRemove other | revert other =>
      have hother : other ≠ name := of_decide_eq_false h
      simp only [own, call?, if_neg hother, and_self]
  | commit other =>
      rw [own]
      split <;> exact ⟨rfl, rfl⟩
  | start | drop | subscribe | disconnect | detach | count => exact ⟨rfl, rfl⟩

omit [DecidableEq ν] in
theorem own_all_of_not_edits (h : ∀ op ∈ ops, op.edits name = false) :
    (ops.foldl (Op.own name) t).origin = t.origin ∧ (ops.foldl (Op.own name) t).overlay = t.overlay := by
  induction ops generalizing t with
  | nil => exact ⟨rfl, rfl⟩
  | cons op ops ih =>
      obtain ⟨hop, hops⟩ := List.forall_mem_cons.mp h
      obtain ⟨horigin, hoverlay⟩ := Op.own_of_not_edits (t := t) hop
      obtain ⟨horigin', hoverlay'⟩ := ih (t := op.own name t) hops
      exact ⟨horigin'.trans horigin, hoverlay'.trans hoverlay⟩

theorem step_of_committed (h : (s.transactions.map (·.1)).Nodup) (ht : s.transaction? name = some t)
    (hstatus : t.status = .committed) (key : K) (value : V) :
    s.step (.set name key value) = (.refused (.committed .set), s) ∧
      s.step (.remove name key) = (.refused (.committed .remove), s) ∧
      s.step (.tryRemove name key) = (.flag false, s) ∧
      s.step (.revert name) = (.refused (.committed .revert), s) ∧
      s.step (.commit name) = (.refused (.committed .commit), s) := by
  have hclosed (edit : Edit) : t.ensureActive edit = .error (.committed edit) := by rw [ensureActive, hstatus]
  have hremove : t.remove key = .error (.committed .remove) := by
    simp only [remove, hclosed, bind, Except.bind]
  refine ⟨?set, ?remove, ?tryRemove, ?revert, commit_of_committed ht hstatus⟩
  case set => simp only [step, edit, ht, Transaction.set, hclosed, bind, Except.bind]
  case remove => simp only [step, edit, ht, hremove, bind, Except.bind]
  case tryRemove => simp only [step, edit, ht, tryRemove, hremove, pure, Except.pure, hold_self h ht]
  case revert => simp only [step, edit, ht, revert, hclosed, bind, Except.bind]

theorem Reachable.isolates (hs : s.Reachable) (ht : s.transaction? name = some t) : s.Isolates name t := by
  have hown (ops : List (Op τ ν K V)) (hends : ∀ op ∈ ops, op.ends name = false) := own_run hs.names ht hends
  constructor
  case own => exact hown
  case reads =>
    intro ops hends hquiet
    refine ⟨_, hown ops hends, ?_⟩
    rcases hquiet with hstatus | hedits
    · rw [own_all_of_committed hstatus]
      exact readsLike_of_overlay rfl rfl
    · obtain ⟨horigin, hoverlay⟩ := own_all_of_not_edits (t := t) hedits
      exact readsLike_of_overlay horigin hoverlay
  case stays =>
    intro hstatus ops hends
    rw [hown ops hends, own_all_of_committed hstatus]
  case refuses => exact step_of_committed hs.names ht
  case drops =>
    rw [Session.step, drop, ht, discard]
    split <;> rfl
  case replaces =>
    rw [Session.step, start, ht, discard]
    split <;> rfl

end Session

namespace KeySet

open Session

variable [DecidableEq τ] [DecidableEq ν] [Std.TransOrd K]

def Op.plain : Op τ ν K → Session.Op τ ν K Unit
  | .insert name key => .set name key ()
  | .any op => op

theorem step_plain (s : Session τ ν K Unit) (op : Op τ ν K) : (step s op).2 = (s.step op.plain).2 := by
  cases op with
  | any op => rfl
  | insert name key =>
      simp only [step, Op.plain, Session.step, edit, insert]
      cases s.transaction? name with
      | none => rfl
      | some t => cases ht : t.set key () <;> simp [ht, bind, Except.bind, pure, Except.pure]

theorem run_plain (s : Session τ ν K Unit) (ops : List (Op τ ν K)) : run s ops = s.run (ops.map Op.plain) := by
  induction ops generalizing s with
  | nil => rfl
  | cons op ops ih =>
      refine (ih (step s op).2).trans ?_
      rw [step_plain]
      rfl

theorem insert_of_committed {s : Session τ ν K Unit} {name : τ} {t : Transaction K Unit}
    (ht : s.transaction? name = some t) (hstatus : t.status = .committed) (key : K) :
    step s (.insert name key) = (.refused (.committed .set), s) := by
  have hclosed : t.ensureActive .set = .error (.committed .set) := by rw [Transaction.ensureActive, hstatus]
  simp only [step, edit, ht, insert, Transaction.set, hclosed, bind, Except.bind]

end KeySet

namespace Session

variable [DecidableEq τ] [DecidableEq ν] [Std.TransOrd K] [BEq V]

/-- Dictionaries and sets isolate every transaction from all but its own calls, and from these too once it is
committed. -/
theorem transactions_isolated :
    (∀ (entries : List (K × V)) (ops : List (Op τ ν K V)) (name : τ) (t : Transaction K V),
      let s : Session τ ν K V := (ofStore (Store.ofList entries)).run ops
      s.transaction? name = some t → s.Isolates name t) ∧
    ∀ (keys : List K) (ops : List (KeySet.Op τ ν K)) (name : τ) (t : Transaction K Unit),
      let s : Session τ ν K Unit := KeySet.run (ofStore (KeySet.ofList keys)) ops
      s.transaction? name = some t → s.Isolates name t ∧
        (∀ later, KeySet.run s later = s.run (later.map KeySet.Op.plain)) ∧
        (t.status = .committed → ∀ key, KeySet.step s (.insert name key) = (.refused (.committed .set), s)) := by
  constructor
  · intro entries ops name t s ht
    exact ((Reachable.opened entries).run ops).isolates ht
  · intro keys ops name t s ht
    have hs : s.Reachable := by
      rw [show s = _ from KeySet.run_plain _ ops]
      exact (Reachable.opened _).run _
    exact ⟨hs.isolates ht, KeySet.run_plain s, KeySet.insert_of_committed ht⟩

theorem transactions_isolated_overtaken :
    ∃ t, overtaken.transaction? 1 = some t ∧ t.status = .committed ∧ overtaken.Isolates 1 t := by
  have hany : (overtaken.transaction? 1).any (fun t => decide (t.status = .committed)) = true := by
    decide +kernel
  obtain ⟨t, ht, hstatus⟩ := (Option.any_eq_true _ _).mp hany
  exact ⟨t, ht, of_decide_eq_true hstatus, transactions_isolated.1 [(1, 10)] _ 1 t ht⟩

end Session

end VersionedMap
