import VersionedMap.Proofs.ConnectionLog

namespace VersionedMap

@[ext] structure Custody where
  dropped : List Nat
  owns : List (Nat × Nat)

namespace Custody

instance : Append Custody :=
  ⟨fun c c' => ⟨c.dropped ++ c'.dropped, c.owns ++ c'.owns⟩⟩

@[simp] theorem dropped_append (c c' : Custody) : (c ++ c').dropped = c.dropped ++ c'.dropped := rfl

@[simp] theorem owns_append (c c' : Custody) : (c ++ c').owns = c.owns ++ c'.owns := rfl

theorem append_assoc (c c' c'' : Custody) : c ++ c' ++ c'' = c ++ (c' ++ c'') := by
  ext1 <;> simp

/-- A subscription is gone when it was given up, and when the handler that owns it is. Handlers that
own each other's subscriptions stay. -/
inductive Gone (c : Custody) : Nat → Prop
  | dropped {id : Nat} (hd : id ∈ c.dropped) : Gone c id
  | owned {owner id : Nat} (hg : Gone c owner) (ho : (owner, id) ∈ c.owns) : Gone c id

variable {c : Custody} {id : Nat}

theorem Gone.append (h : c.Gone id) (c' : Custody) : (c ++ c').Gone id := by
  induction h with
  | dropped hd => exact .dropped (by simp [hd])
  | owned _ ho ih => exact .owned ih (by simp [ho])

end Custody

namespace Signal

open Event

variable {ν α ρ : Type}

def Owns (s : Signal ν α ρ) (owner id : Nat) : Prop :=
  ∃ m ∈ s.members, m.id = owner ∧ id ∈ m.owned

theorem owns_of_roster {s s' : Signal ν α ρ} (h : s'.roster = s.roster) (owner id : Nat) :
    s'.Owns owner id ↔ s.Owns owner id := by
  have howns : ∀ t : Signal ν α ρ, t.Owns owner id ↔ ∃ ids, (owner, ids) ∈ t.roster ∧ id ∈ ids := by
    intro t
    simp only [Owns, roster, List.mem_map, Prod.mk.injEq]
    grind
  rw [howns, howns, h]

/-- A signal has removed what is gone, and queued what it has still to remove. -/
structure Kept (c : Custody) (n : Nat) (s : Signal ν α ρ) : Prop where
  below : ∀ id ∈ c.dropped ++ c.owns.map (·.2), id < n
  retired : ∀ id ∈ s.retired, c.Gone id
  absent : ∀ id < n, id ∉ s.ids → c.Gone id
  dropped : ∀ id ∈ c.dropped, id ∈ s.ids → id ∈ s.retired
  moved : ∀ owner id, (owner, id) ∈ c.owns → id ∈ s.ids → id ∈ s.retired ∨ s.Owns owner id
  owned : ∀ owner id, s.Owns owner id → (owner, id) ∈ c.owns

variable {c : Custody} {n : Nat} {s s' : Signal ν α ρ}

theorem kept_empty : Kept ⟨[], []⟩ 0 (empty : Signal ν α ρ) where
  below := by simp
  retired := by simp [empty]
  absent := by simp
  dropped := by simp
  moved := by simp
  owned := by simp [Owns, empty]

theorem Kept.mem_ids (h : Kept c n s) (hs : s.retired = []) {id : Nat} (hid : id < n) :
    id ∈ s.ids ↔ ¬ c.Gone id := by
  refine ⟨fun hi hg => ?_, fun hg => by_contra fun hi => hg (h.absent id hid hi)⟩
  clear hid
  -- up the chain of owners: nothing is queued, so an owned subscription is still where it was put
  induction hg with
  | dropped hd => simpa [hs] using h.dropped _ hd hi
  | owned hg ho ih =>
      rcases h.moved _ _ ho hi with hr | ⟨m, hm, hmid, _⟩
      · simp [hs] at hr
      · exact ih (List.mem_map.2 ⟨m, hm, hmid⟩)

theorem Kept.drop (h : Kept c n s) {ids : List Nat} (hroster : s'.roster = s.roster)
    (hretired : ∀ id, id ∈ s'.retired ↔ id ∈ s.retired ∨ id ∈ ids) (hlt : ∀ id ∈ ids, id < n) :
    Kept (c ++ ⟨ids, []⟩) n s' := by
  refine ⟨?_, ?_, ?_, ?_, ?_, ?_⟩
  · intro id hid
    have hids := h.below id
    simp only [Custody.dropped_append, Custody.owns_append, List.append_nil, List.mem_append] at hid hids
    rcases hid with (hid | hid) | hid
    · exact hids (.inl hid)
    · exact hlt id hid
    · exact hids (.inr hid)
  · intro id hid
    rcases (hretired id).1 hid with hid | hid
    · exact (h.retired id hid).append _
    · exact .dropped (by simp [hid])
  · intro id hid hi
    exact (h.absent id hid (ids_of_roster hroster ▸ hi)).append _
  · intro id hid hi
    rw [hretired]
    rcases List.mem_append.1 hid with hid | hid
    · exact .inl (h.dropped id hid (ids_of_roster hroster ▸ hi))
    · exact .inr hid
  · intro owner id ho hi
    rw [hretired, owns_of_roster hroster]
    rcases h.moved owner id (by simpa using ho) (ids_of_roster hroster ▸ hi) with hr | ho
    · exact .inl (.inl hr)
    · exact .inr ho
  · intro owner id ho
    simpa using h.owned owner id ((owns_of_roster hroster owner id).1 ho)

theorem Kept.congr (h : Kept c n s) (hroster : s'.roster = s.roster) (hretired : s'.retired = s.retired) :
    Kept c n s' := by
  have hsame : Kept (c ++ ⟨[], []⟩) n s' := h.drop hroster (by simp [hretired]) (by simp)
  rwa [show c ++ ⟨[], []⟩ = c by ext1 <;> simp] at hsame

theorem Kept.remove {id : Nat} {rest : List Nat} (h : Kept c n s) (hn : s.ids.Nodup)
    (hs : s.retired = id :: rest) : Kept c n ({ s with retired := rest }.remove id) := by
  have hgone := h.retired id (by simp [hs])
  have hqueue : ∀ x, x ≠ id → x ∈ s.retired → x ∈ rest := by
    intro x hx hr
    simpa [hs, hx] using hr
  rcases remove_cases { s with retired := rest } id with ⟨hid, hsame⟩ | ⟨m, hm, hid, hrm, hids⟩
  · rw [hsame]
    have hne : ∀ x ∈ s.ids, x ≠ id := fun x hx he => hid (he ▸ hx)
    refine ⟨h.below, fun x hx => h.retired x (by simp [hs, hx]), h.absent, ?_, ?_, h.owned⟩
    · exact fun x hd hi => hqueue x (hne x hi) (h.dropped x hd hi)
    · exact fun owner x ho hi => (h.moved owner x ho hi).imp_left (hqueue x (hne x hi))
  · have hids : ∀ x, x ∈ ({ s with retired := rest }.remove id).ids ↔ x ≠ id ∧ x ∈ s.ids := fun x =>
      hids ▸ hn.mem_erase_iff
    have howns : ∀ owner x, s.Owns owner x →
        x ∈ m.owned ∨ ({ s with retired := rest }.remove id).Owns owner x := by
      rintro owner x ⟨m', hm', rfl, hx⟩
      by_cases he : m'.id = id
      · exact .inl (List.inj_on_of_nodup_map hn hm' hm (he.trans hid.symm) ▸ hx)
      · exact .inr ⟨m', by simpa [hrm, List.mem_eraseP_of_neg, he] using hm', rfl, hx⟩
    have hretired : ∀ x, x ∈ ({ s with retired := rest }.remove id).retired ↔ x ∈ rest ∨ x ∈ m.owned := by
      simp [hrm]
    refine ⟨h.below, ?_, ?_, ?_, ?_, ?_⟩
    · intro x hx
      rcases (hretired x).1 hx with hx | hx
      · exact h.retired x (by simp [hs, hx])
      · -- what the handler owned is gone as the handler is
        exact .owned hgone (h.owned id x ⟨m, hm, hid, hx⟩)
    · intro x hx hi
      by_cases he : x = id
      · exact he ▸ hgone
      · exact h.absent x hx fun hxs => hi ((hids x).2 ⟨he, hxs⟩)
    · intro x hd hi
      obtain ⟨he, hi⟩ := (hids x).1 hi
      exact (hretired x).2 (.inl (hqueue x he (h.dropped x hd hi)))
    · intro owner x ho hi
      obtain ⟨he, hi⟩ := (hids x).1 hi
      rw [hretired]
      rcases h.moved owner x ho hi with hr | ho
      · exact .inl (.inl (hqueue x he hr))
      · exact (howns owner x ho).imp_left .inr
    · rintro owner x ⟨m', hm', ho⟩
      refine h.owned owner x ⟨m', ?_, ho⟩
      rw [hrm] at hm'
      exact List.mem_of_mem_eraseP hm'

theorem Kept.settle (h : Kept c n s) (hl : s.Logged n) (ha : s.alive = true) : Kept c n s.settle := by
  fun_induction Signal.settle s with
  | case1 s => exact h
  | case2 s id rest hs ih =>
      have hrest : { s with retired := rest }.Logged n := ⟨hl.log, hl.ids⟩
      obtain ⟨_, _, _, hrm⟩ := remove_shape { s with retired := rest } id
      exact ih (h.remove (hl.nodup_ids ha) hs) (hrest.remove ha id) (by rw [hrm]; exact ha)

theorem Kept.enroll (h : Kept c n s) {m : Member ν} (hm : m.id = n) (hlt : ∀ id ∈ m.owned, id < n) :
    Kept (c ++ ⟨[], m.owned.map (n, ·)⟩) (n + 1) (s.enroll m) := by
  have hids : ∀ id, id < n → id ∈ (s.enroll m).ids → id ∈ s.ids := by
    intro id hid hi
    simpa [Signal.ids, Signal.enroll, hm, Nat.ne_of_lt hid] using hi
  have howns : ∀ owner id, (s.enroll m).Owns owner id ↔ s.Owns owner id ∨ owner = n ∧ id ∈ m.owned := by
    intro owner id
    simp only [Owns, Signal.enroll, List.mem_append, List.mem_singleton]
    grind
  have hbelow := h.below
  simp only [List.mem_append, List.mem_map, Prod.exists] at hbelow
  refine ⟨?_, ?_, ?_, ?_, ?_, ?_⟩
  · simp only [Custody.dropped_append, Custody.owns_append, List.append_nil, List.map_append, List.mem_append,
      List.mem_map, Prod.exists]
    grind
  · exact fun id hid => (h.retired id hid).append _
  · intro id hid hi
    have hs : id ∉ s.ids ∧ id ≠ n := by simpa [Signal.ids, Signal.enroll, hm, not_or] using hi
    exact (h.absent id (by omega) hs.1).append _
  · intro id hd hi
    have hd : id ∈ c.dropped := by simpa using hd
    exact h.dropped id hd (hids id (hbelow id (.inl hd)) hi)
  · intro owner id ho hi
    rw [howns]
    rcases List.mem_append.1 ho with ho | ho
    · have hlt := hbelow id (.inr ⟨owner, id, ho, rfl⟩)
      exact (h.moved owner id ho (hids id hlt hi)).imp_right .inl
    · obtain ⟨_, hid, he⟩ := List.mem_map.1 ho
      cases he
      exact .inr (.inr ⟨rfl, hid⟩)
  · intro owner id ho
    rcases (howns owner id).1 ho with ho | ⟨rfl, hid⟩
    · exact List.mem_append_left _ (h.owned owner id ho)
    · exact List.mem_append_right _ (List.mem_map.2 ⟨id, hid, rfl⟩)

theorem Kept.drop_held (h : Kept c n s) (hl : s.Logged n) (ha : s.alive = true) {id : Nat} (hid : id < n)
    {held : List (ν × Nat)} : Kept (c ++ ⟨[id], []⟩) n ({ s with held }.drop id) := by
  rw [drop_eq_settle (by exact ha)]
  refine Kept.settle (h.drop rfl ?_ (by simpa using hid)) ⟨hl.log, hl.ids⟩ ha
  simp [or_comm]

variable [DecidableEq ν] {names : List ν}

theorem Kept.retires (h : Kept c n s) (hr : Retires names s s') (hlt : ∀ id ∈ (s.gather names).1, id < n) :
    Kept (c ++ ⟨(s.gather names).1, []⟩) n s' :=
  h.drop hr.roster (by simp [hr.retired]) hlt

theorem gather_singleton (s : Signal ν α ρ) (name : ν) : (s.gather [name]).1 = (s.held? name).toList := by
  simp [gather]

theorem Kept.disconnect (h : Kept c n s) (hl : s.Logged n) (ha : s.alive = true) (name : ν)
    (hlt : ∀ id ∈ (s.gather [name]).1, id < n) :
    Kept (c ++ ⟨(s.gather [name]).1, []⟩) n (s.disconnect name) := by
  rw [gather_singleton] at hlt ⊢
  rw [Signal.disconnect]
  cases hid : s.held? name with
  | none => exact h.drop rfl (by simp) (by simp)
  | some id => exact h.drop_held hl ha (hlt id (by simp [hid]))

theorem Kept.hold (h : Kept c n s) (hl : s.Logged n) (ha : s.alive = true) (name : ν) (id : Nat)
    (hlt : ∀ id ∈ (s.gather [name]).1, id < n) :
    Kept (c ++ ⟨(s.gather [name]).1, []⟩) n (s.hold name id) := by
  rw [gather_singleton] at hlt ⊢
  rw [Signal.hold]
  cases hid : s.held? name with
  | none => exact h.drop rfl (by simp [release]) (by simp)
  | some old => exact h.drop_held hl ha (hlt old (by simp [hid]))

theorem Kept.entrust (h : Kept c n s) {name : ν} {owner id : Nat} (hid : id < n) (ho : owner ∈ s.ids) :
    Kept (c ++ ⟨[], [(owner, id)]⟩) n
      { s.release name with members := s.members.map (entrusted owner id) } := by
  let t : Signal ν α ρ := { s.release name with members := s.members.map (entrusted owner id) }
  have hids : t.ids = s.ids := by simp [t, Signal.ids, id_entrusted, Function.comp_def]
  have howns : ∀ o x, t.Owns o x ↔ s.Owns o x ∨ o = owner ∧ x = id := by
    obtain ⟨m, hm, rfl⟩ := List.mem_map.1 ho
    intro o x
    simp only [t, Owns, List.mem_map, entrusted]
    grind
  refine ⟨?_, ?_, ?_, ?_, ?_, ?_⟩
  · have hbelow := h.below
    simp only [List.mem_append] at hbelow
    simp only [Custody.dropped_append, Custody.owns_append, List.append_nil, List.map_append, List.mem_append,
      List.map_cons, List.map_nil, List.mem_singleton]
    grind
  · exact fun x hx => (h.retired x hx).append _
  · exact fun x hx hi => (h.absent x hx (hids ▸ hi)).append _
  · exact fun x hd hi => h.dropped x (by simpa using hd) (hids ▸ hi)
  · intro o x hox hi
    rw [howns]
    rcases List.mem_append.1 hox with hox | hox
    · exact (h.moved o x hox (hids ▸ hi)).imp_right .inl
    · exact .inr (.inr (by simpa using hox))
  · intro o x hox
    rcases (howns o x).1 hox with hox | ⟨rfl, rfl⟩
    · exact List.mem_append_left _ (h.owned o x hox)
    · exact List.mem_append_right _ (List.mem_singleton_self _)

/-- What an operation makes of the subscriptions: it names those given up, also by the handlers it calls,
and those that move into a handler. -/
def account (s : Signal ν α ρ) : Op ν α → Custody
  | .connect name handler drops _ =>
    let (owned, rest) := s.gather handler.owns
    ⟨(rest.gather (drops ++ (handler.react 0).drops ++ [name])).1, owned.map (s.nextId, ·)⟩
  | .emit drops changes => ⟨(s.gather (drops ++ s.settle.called changes)).1, []⟩
  | .disconnect name => ⟨(s.gather [name]).1, []⟩
  | .entrust name owner => ⟨[], if owner ∈ s.ids then (s.gather [name]).1.map (owner, ·) else []⟩
  | .count | .detach _ | .close => ⟨[], []⟩

def custody (seen : ρ) : Signal ν α ρ → List (Op ν α) → Custody
  | _, [] => ⟨[], []⟩
  | s, op :: ops => s.account op ++ custody seen (s.step seen op).2 ops

theorem Kept.emit (h : Kept c n s) (hl : s.Logged n) (ha : s.alive = true) (drops : List ν)
    (changes : Changes α) (seen : ρ)
    (hlt : ∀ id ∈ (s.gather (drops ++ s.settle.called changes)).1, id < n) :
    Kept (c ++ s.account (.emit drops changes)) n (s.emit drops changes seen) := by
  obtain ⟨t, ht, he⟩ := s.emit_retires drops changes seen
  rw [(gather_congr s.held_settle _).1.symm] at hlt
  have hkept := (h.settle hl ha).retires ht hlt
  rw [(gather_congr s.held_settle _).1] at hkept
  have hat : t.alive = true := ht.alive.trans (s.alive_settle.trans ha)
  rcases he with he | he
  · exact he ▸ hkept
  · exact he ▸ hkept.settle ((hl.settle ha).retires ht) hat

theorem Kept.gather (h : Kept c n s) (names : List ν) : Kept c n (s.gather names).2 := by
  obtain ⟨_, hg⟩ := s.gather_shape names
  exact h.congr (by simp [hg, roster]) (by simp [hg])

theorem gather_lt_rest (hlt : ∀ names, ∀ id ∈ (s.gather names).1, id < n) (names names' : List ν) :
    ∀ id ∈ ((s.gather names).2.gather names').1, id < n := by
  intro id hid
  apply hlt (names ++ names') id
  rw [gather_append]
  exact List.mem_append_right _ hid

theorem held_joined (s : Signal ν α ρ) (name : ν) (handler : Handler ν) (drops : List ν) (changes : Changes α)
    (seen : ρ) : (s.joined name handler drops changes seen).held =
      ((s.gather handler.owns).2.gather (drops ++ (handler.react 0).drops)).2.held := by
  have hheld : { (s.gather handler.owns).2.settle with nextId := s.nextId + 1 }.held =
      (s.gather handler.owns).2.held := held_settle _
  exact (s.retires_offered name handler drops changes seen).held.trans (gather_congr hheld _).2

theorem Kept.joined (h : Kept c s.nextId s) (hl : s.Logged s.nextId) (ha : s.alive = true) (name : ν)
    (handler : Handler ν) (drops : List ν) (changes : Changes α) (seen : ρ)
    (hlt : ∀ names, ∀ id ∈ (s.gather names).1, id < s.nextId) :
    Kept (c ++ ⟨((s.gather handler.owns).2.gather (drops ++ (handler.react 0).drops)).1, []⟩ ++
      ⟨[], (s.gather handler.owns).1.map (s.nextId, ·)⟩) (s.nextId + 1)
        (s.joined name handler drops changes seen) := by
  let busy := { (s.gather handler.owns).2.settle with nextId := s.nextId + 1 }
  have hheld : busy.held = (s.gather handler.owns).2.held := held_settle _
  have hbusy : Kept c s.nextId busy :=
    ((h.gather handler.owns).settle (hl.gather _) ((s.alive_gather _).trans ha)).congr rfl rfl
  have hgather := (gather_congr hheld (drops ++ (handler.react 0).drops)).1
  have hoffered := hbusy.retires (s.retires_offered name handler drops changes seen) (by
    rw [hgather]
    exact gather_lt_rest hlt _ _)
  rw [hgather] at hoffered
  exact (hoffered.enroll (m := { s.newcomer name handler with calls := 1 }) rfl (hlt handler.owns)).congr rfl rfl

theorem Kept.connect (h : Kept c s.nextId s) (hl : s.Logged s.nextId) (ha : s.alive = true) (name : ν)
    (handler : Handler ν) (drops : List ν) (changes : Changes α) (seen : ρ)
    (hlt : ∀ names, ∀ id ∈ (s.gather names).1, id < s.nextId) :
    Kept (c ++ s.account (.connect name handler drops changes)) (s.nextId + 1)
      (s.connect name handler drops changes seen).2 := by
  let rest := (s.gather handler.owns).2
  let names := drops ++ (handler.react 0).drops
  have hjoined := h.joined hl ha name handler drops changes seen hlt
  have hlj := hl.joined ha name handler drops changes seen
  have haj := (s.alive_joined name handler drops changes seen).trans ha
  -- the new subscription takes the place of the one still held under its name
  have hheld : (s.joined name handler drops changes seen).settle.held = (rest.gather names).2.held :=
    (held_settle _).trans (s.held_joined name handler drops changes seen)
  have hgather := (gather_congr hheld [name]).1
  have hkept := (hjoined.settle hlj haj).hold (hlj.settle haj) ((alive_settle _).trans haj) name s.nextId (by
    intro id hid
    rw [hgather] at hid
    exact Nat.lt_succ_of_lt (gather_lt_rest (gather_lt_rest hlt handler.owns) names [name] id hid))
  have haccount : c ++ s.account (.connect name handler drops changes) =
      c ++ ⟨(rest.gather names).1, []⟩ ++ ⟨[], (s.gather handler.owns).1.map (s.nextId, ·)⟩ ++
        ⟨((s.joined name handler drops changes seen).settle.gather [name]).1, []⟩ := by
    rw [hgather]
    ext1
    · simp [account, gather_append, names, rest]
    · simp [account]
  rw [connect_eq, haccount]
  exact hkept

theorem WellFormed.gather_lt (hw : s.WellFormed) (names : List ν) :
    ∀ id ∈ (s.gather names).1, id < s.nextId := by
  intro id hid
  obtain ⟨_, _, h⟩ := sheds_gather [] s names
  have hlive : id ∈ (s.registry []).live := by
    apply h.live.mem_iff.2
    simp [registry, hid]
  exact hw.below id (hw.connected id (List.mem_append_left _ hlive))

theorem Kept.step (h : Kept c s.nextId s) (hl : s.Logged s.nextId) (hw : s.WellFormed) (ha : s.alive = true)
    (seen : ρ) (op : Op ν α) (hs : (s.step seen op).2.alive = true) :
    Kept (c ++ s.account op) (s.step seen op).2.nextId (s.step seen op).2 := by
  have hlt := hw.gather_lt
  have hnone : c ++ ⟨[], []⟩ = c := by ext1 <;> simp
  revert hs
  rw [step_of_alive ha]
  cases op with
  | connect name handler drops populate =>
      intro _
      rw [stepAlive, nextId_connect]
      exact h.connect hl ha name handler drops populate seen hlt
  | emit drops changes =>
      intro _
      rw [stepAlive, nextId_emit]
      exact h.emit hl ha drops changes seen (hlt _)
  | count =>
      intro _
      rw [stepAlive, account, hnone]
      exact s.nextId_settle.symm ▸ h.settle hl ha
  | disconnect name =>
      intro _
      rw [stepAlive, nextId_disconnect]
      exact h.disconnect hl ha name (hlt _)
  | detach name =>
      intro _
      rw [account, hnone]
      exact h.congr rfl rfl
  | entrust name owner =>
      intro _
      rw [stepAlive, nextId_entrust, account, gather_singleton]
      rcases s.entrust_cases name owner with ⟨hno, hs⟩ | ⟨id, hid, ho, hs⟩
      · have hnothing : (if owner ∈ s.ids then (s.held? name).toList.map (owner, ·) else []) = [] := by
          rcases hno with hno | hno
          · simp [hno]
          · simp [hno]
        rw [hs, hnothing, hnone]
        exact h
      · rw [hs, hid, if_pos ho]
        exact h.entrust (hlt [name] id (by simp [gather_singleton, hid])) ho
  | close =>
      intro hc
      cases hc

theorem kept_run (seen : ρ) (hl : s.Logged s.nextId) (h : s.alive = true → s.WellFormed ∧ Kept c s.nextId s)
    (ops : List (Op ν α)) (hs : (s.run seen ops).alive = true) :
    (s.run seen ops).WellFormed ∧ Kept (c ++ custody seen s ops) (s.run seen ops).nextId (s.run seen ops) := by
  induction ops generalizing c s with
  | nil =>
      obtain ⟨hw, hk⟩ := h hs
      refine ⟨hw, ?_⟩
      rwa [custody, show c ++ ⟨[], []⟩ = c by ext1 <;> simp]
  | cons op ops ih =>
      rw [custody, ← Custody.append_assoc]
      refine ih (logged_step hl seen op) (fun hstep => ?_) hs
      cases ha : s.alive with
      | false => exact absurd hstep (by simp [(step_ended ha seen op).1])
      | true =>
          obtain ⟨hw, hk⟩ := h ha
          exact ⟨((advances_step ha hw seen op).goesOn hstep).1, hk.step hl hw ha seen op hstep⟩

/-- The list when the callback of an operation starts, or when its handlers are counted. -/
def atStart (s : Signal ν α ρ) : Op ν α → Option (Signal ν α ρ)
  | .connect _ handler _ _ => some (s.gather handler.owns).2.settle
  | .emit _ _ | .count => some s.settle
  | .disconnect _ | .detach _ | .entrust _ _ | .close => none

/-- What is left of an operation then. -/
def resume (seen : ρ) (s u : Signal ν α ρ) : Op ν α → Reply α × Signal ν α ρ
  | .connect name handler drops populate =>
    let prepared := drops.foldl retire { u with nextId := s.nextId + 1 }
    let offered := prepared.deliver (s.newcomer name handler) populate seen
    let joined := (offered.enroll { s.newcomer name handler with calls := 1 }).record (.connected s.nextId)
    (.subscribed s.nextId, joined.settle.hold name s.nextId)
  | .emit drops changes => (.emitted changes, (drops.foldl retire u).announce changes seen)
  | .count => (.counted u.members.length, u)
  | op => s.stepAlive seen op

theorem step_eq_resume (ha : s.alive = true) (seen : ρ) {op : Op ν α} {u : Signal ν α ρ}
    (hu : s.atStart op = some u) : s.step seen op = s.resume seen u op := by
  rw [step_of_alive ha]
  cases op with
  | connect name handler drops populate =>
      cases hu
      simp only [stepAlive, connect_eq]
      rfl
  | emit | count =>
      cases hu
      rfl
  | disconnect | detach | entrust | close => cases hu

theorem atStart_settled (h : Kept c n s) (hl : s.Logged n) (ha : s.alive = true) {op : Op ν α}
    {u : Signal ν α ρ} (hu : s.atStart op = some u) :
    u.retired = [] ∧ u.alive = true ∧ u.Logged n ∧ Kept c n u := by
  cases op with
  | connect name handler drops populate =>
      cases hu
      have hat := (s.alive_gather handler.owns).trans ha
      exact ⟨retired_settle _, (alive_settle _).trans hat, (hl.gather _).settle hat,
        (h.gather handler.owns).settle (hl.gather _) hat⟩
  | emit | count =>
      cases hu
      exact ⟨s.retired_settle, s.alive_settle.trans ha, hl.settle ha, h.settle hl ha⟩
  | disconnect | detach | entrust | close => cases hu

/-- Whatever handlers own and whoever gives up subscriptions, settling ends; ids are given out in
ascending order and the log has each come once and go at most once and later. While the signal lives the
log and the registry agree, and whenever a callback starts or handlers are counted, nothing is queued and
those connected are the ones that are not gone, in ascending order. -/
theorem connected_iff_not_gone (seen : ρ) (ops : List (Op ν α)) :
    let s := (empty : Signal ν α ρ).run seen ops
    let given := subscriptions seen (empty : Signal ν α ρ) ops
    let c := custody seen (empty : Signal ν α ρ) ops
    (∀ t : Signal ν α ρ, ∀ passes > t.members.length,
      pass^[passes] t = t.settle ∧ t.settle.retired = []) ∧
    given.Pairwise (· < ·) ∧ connections s.trace = given ∧ (disconnections s.trace).Nodup ∧
    (∀ past, past <+: s.trace → disconnections past ⊆ connections past) ∧
    (s.alive = true →
      s.ids = given.filter (· ∉ disconnections s.trace) ∧
      (connections s.trace).length = (disconnections s.trace).length + s.members.length ∧
      ∀ op u, s.atStart op = some u → s.step seen op = s.resume seen u op ∧ u.retired = [] ∧
        u.ids.Pairwise (· < ·) ∧ ∀ id, id ∈ u.ids ↔ id ∈ given ∧ ¬ c.Gone id) := by
  intro s given c
  have hl : s.Logged s.nextId := logged_run logged_empty seen ops
  have hgiven : given = List.range s.nextId := by
    obtain ⟨k, hk, hn⟩ := subscriptions_run seen (empty : Signal ν α ρ) ops
    rw [show s.nextId = 0 + k from hn, Nat.zero_add, List.range_eq_range']
    exact hk
  refine ⟨?_, ?_, ?_, hl.log.once, hl.log.after, ?_⟩
  · exact fun t passes hp => ⟨t.passes_settle hp, t.retired_settle⟩
  · rw [hgiven]
    exact List.pairwise_lt_range
  · rw [hgiven, hl.log.connected]
  intro ha
  refine ⟨hgiven ▸ hl.ids ha, hl.balance ha, fun op u hu => ?_⟩
  obtain ⟨_, hk⟩ := kept_run seen logged_empty (fun _ => ⟨wellFormed_empty, kept_empty⟩) ops ha
  obtain ⟨hr, hua, hul, huk⟩ := atStart_settled hk hl ha hu
  refine ⟨step_eq_resume ha seen hu, hr, hul.pairwise_ids hua, fun id => ?_⟩
  rw [hgiven, List.mem_range]
  refine ⟨fun hi => ?_, fun ⟨hid, hg⟩ => (huk.mem_ids hr hid).2 hg⟩
  have hid := ((hul.mem_ids hua).1 hi).1
  exact ⟨hid, (huk.mem_ids hr hid).1 hi⟩

/-- Handler 2 owns the subscription of 1, which owns that of 0; 3 and 4 own each other's. Giving up the
subscription of 2 takes two more handlers away, and the two others stay, like 5, which is detached. -/
def cascading : List (Op Nat Nat) :=
  [.connect 0 ⟨fun _ => ⟨[], .returned⟩, []⟩ [] [], .connect 1 ⟨fun _ => ⟨[], .returned⟩, [0]⟩ [] [],
    .connect 2 ⟨fun _ => ⟨[], .returned⟩, [1]⟩ [] [], .connect 3 ⟨fun _ => ⟨[], .returned⟩, []⟩ [] [],
    .connect 4 ⟨fun _ => ⟨[], .panicked none⟩, []⟩ [] [], .entrust 3 4, .entrust 4 3,
    .connect 5 ⟨fun _ => ⟨[], .returned⟩, []⟩ [] [], .detach 5, .emit [2] []]

theorem connected_iff_not_gone_cascading :
    let s := (empty : Signal Nat Nat Unit).run () cascading
    let given := subscriptions () (empty : Signal Nat Nat Unit) cascading
    let c := custody () (empty : Signal Nat Nat Unit) cascading
    s.alive = true ∧ s.retired = [2] ∧ s.ids = [0, 1, 2, 3, 4, 5] ∧ given = [0, 1, 2, 3, 4, 5] ∧
      c.dropped = [2] ∧ c.owns = [(1, 0), (2, 1), (4, 3), (3, 4)] ∧ s.settle.ids = [3, 4, 5] ∧
      ∀ id, id ∈ s.settle.ids ↔ id ∈ given ∧ ¬ c.Gone id := by
  intro s given c
  have hends : s.alive = true ∧ s.retired = [2] ∧ s.ids = [0, 1, 2, 3, 4, 5] ∧ given = [0, 1, 2, 3, 4, 5] ∧
      c.dropped = [2] ∧ c.owns = [(1, 0), (2, 1), (4, 3), (3, 4)] ∧ s.settle.ids = [3, 4, 5] := by
    simp [s, given, c, cascading, run, subscriptions, custody, account, called, step, stepAlive, Reply.id?, connect,
      entrust, detach, emit, announce, gather, held?, release, deliver, retire, hold, record, empty, Signal.ids,
      remove, List.lookup_cons, settle_of_retired_nil, settle_cons (s := ⟨_, _, _ :: _, _, _, _⟩) rfl]
  obtain ⟨ha, hretired, hids, hgiven, hdropped, howns, hsettled⟩ := hends
  obtain ⟨_, _, _, _, _, h⟩ := connected_iff_not_gone () cascading
  obtain ⟨_, _, _, hgone⟩ := (h ha).2.2 .count _ rfl
  exact ⟨ha, hretired, hids, hgiven, hdropped, howns, hsettled, hgone⟩

end Signal

end VersionedMap
