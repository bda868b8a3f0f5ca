import VersionedMap.Proofs.Isolation
import VersionedMap.Proofs.ConnectionLog

namespace VersionedMap

variable {τ ν α ρ K V : Type}

/-- How each call of each handler ends. -/
abbrev Outcomes := Nat → Nat → Outcome

namespace Event

def isFailure : Event ν α ρ → Bool
  | failed .. | panicked .. => true
  | _ => false

def ofOutcome (id : Nat) : Outcome → Option (Event ν α ρ)
  | .returned => none
  | .failed reason => some (.failed id reason)
  | .panicked payload => some (.panicked id (payload.getD "<non-string panic payload>"))

/-- What is logged after an event, going by the outcomes of all calls. -/
def aftermath (f : Outcomes) : Event ν α ρ → Option (Event ν α ρ)
  | received _ id call _ _ => ofOutcome id (f id call)
  | _ => none

def voiced (f : Outcomes) (log : List (Event ν α ρ)) : List (Event ν α ρ) :=
  (log.filter (!·.isFailure)).flatMap fun e => e :: (e.aftermath f).toList

variable {f : Outcomes} {log : List (Event ν α ρ)} {e : Event ν α ρ}

theorem voiced_append (f : Outcomes) (log log' : List (Event ν α ρ)) :
    voiced f (log ++ log') = voiced f log ++ voiced f log' := by
  rw [voiced, List.filter_append, List.flatMap_append, voiced, voiced]

theorem voiced_concat (he : e.isFailure = false) :
    voiced f (log ++ [e]) = voiced f log ++ e :: (e.aftermath f).toList := by
  simp [voiced, he]

theorem voiced_failure (he : e.isFailure = true) : voiced f (log ++ [e]) = voiced f log := by
  simp [voiced, he]

theorem isFailure_ofOutcome {id : Nat} {outcome : Outcome} {e : Event ν α ρ} (h : ofOutcome id outcome = some e) :
    e.isFailure = true := by
  cases outcome with
  | returned => cases h
  | failed | panicked => cases h; rfl

theorem filter_voiced (f : Outcomes) (log : List (Event ν α ρ)) :
    (voiced f log).filter (!·.isFailure) = log.filter (!·.isFailure) := by
  induction log with
  | nil => rfl
  | cons e log ih =>
      have hsplit := voiced_append f [e] log
      rw [List.singleton_append] at hsplit
      rw [hsplit, List.filter_append, ih, List.filter_cons]
      cases he : e.isFailure with
      | true => simp [voiced, he]
      | false =>
          have hafter : (e.aftermath f).toList.filter (!·.isFailure) = [] := by
            rw [List.filter_eq_nil_iff]
            intro e' he'
            cases e with
            | received name id call changes seen => simp [isFailure_ofOutcome (Option.mem_toList.mp he')]
            | _ => cases he'
          simp [voiced, he, hafter]

end Event

def Member.voice (f : Outcomes) (m : Member ν) : Member ν :=
  { m with react := fun call => ⟨(m.react call).drops, f m.id call⟩ }

/-- Handlers that give up the same subscriptions, whichever way they end. -/
structure Handler.Alike (h h' : Handler ν) : Prop where
  owns : h'.owns = h.owns
  drops : ∀ call, (h'.react call).drops = (h.react call).drops

theorem Handler.Alike.refl (h : Handler ν) : h.Alike h :=
  ⟨rfl, fun _ => rfl⟩

namespace Signal

open Event

/-- A signal as it is with these outcomes. -/
def voice (f : Outcomes) (s : Signal ν α ρ) : Signal ν α ρ :=
  { s with
    members := s.members.map (Member.voice f)
    trace := voiced f s.trace }

variable {f : Outcomes} {s : Signal ν α ρ}

theorem voice_record {e : Event ν α ρ} (he : e.isFailure = false) (hafter : e.aftermath f = none) :
    (s.record e).voice f = (s.voice f).record e := by
  rw [voice, record, voiced_concat he, hafter]
  rfl

theorem voice_record_failure {e : Event ν α ρ} (he : e.isFailure = true) : (s.record e).voice f = s.voice f := by
  rw [voice, record, voiced_failure he]
  rfl

theorem voice_remove (f : Outcomes) (s : Signal ν α ρ) (id : Nat) : (s.remove id).voice f = (s.voice f).remove id := by
  have hfind : (s.voice f).members.find? (·.id == id) = (s.members.find? (·.id == id)).map (Member.voice f) :=
    List.find?_map ..
  rw [remove, remove, hfind]
  cases s.members.find? (·.id == id) with
  | none => rfl
  | some m =>
      rw [voice_record rfl rfl]
      simp only [voice, List.eraseP_map, Option.map_some]
      rfl

theorem voice_settle (f : Outcomes) (s : Signal ν α ρ) : s.settle.voice f = (s.voice f).settle := by
  fun_induction settle s with
  | case1 s hs => exact (settle_of_retired_nil (s := s.voice f) hs).symm
  | case2 s id rest hs ih => rw [ih, voice_remove, settle_cons (s := s.voice f) hs]; rfl

theorem voice_drop (f : Outcomes) (s : Signal ν α ρ) (id : Nat) : (s.drop id).voice f = (s.voice f).drop id := by
  rw [drop, drop, apply_ite (voice f), voice_settle, voice_remove]
  rfl

variable [DecidableEq ν]

theorem voice_retire (f : Outcomes) (s : Signal ν α ρ) (name : ν) :
    (s.retire name).voice f = (s.voice f).retire name := by
  rw [retire, retire, show (s.voice f).held? name = s.held? name from rfl]
  cases s.held? name <;> rfl

theorem voice_retireAll (f : Outcomes) (s : Signal ν α ρ) (names : List ν) :
    (names.foldl retire s).voice f = names.foldl retire (s.voice f) := by
  induction names generalizing s with
  | nil => rfl
  | cons name names ih => rw [List.foldl_cons, ih, voice_retire, List.foldl_cons]

theorem voice_disconnect (f : Outcomes) (s : Signal ν α ρ) (name : ν) :
    (s.disconnect name).voice f = (s.voice f).disconnect name := by
  have hheld : (s.voice f).held? name = s.held? name := rfl
  rw [disconnect, disconnect, hheld]
  cases s.held? name with
  | none => rfl
  | some id => exact voice_drop f (s.release name) id

theorem voice_gather (f : Outcomes) (s : Signal ν α ρ) (names : List ν) :
    (s.voice f).gather names = ((s.gather names).1, (s.gather names).2.voice f) := by
  induction names generalizing s with
  | nil => rfl
  | cons name names ih =>
      have hrest := ih (s.release name)
      rw [gather, gather, show (s.voice f).release name = (s.release name).voice f from rfl, hrest]
      rfl

theorem voice_entrust (f : Outcomes) (s : Signal ν α ρ) (name : ν) (owner : Nat) :
    (s.entrust name owner).voice f = (s.voice f).entrust name owner := by
  have hany : (s.voice f).members.any (·.id == owner) = s.members.any (·.id == owner) := List.any_map ..
  have hheld : (s.voice f).held? name = s.held? name := rfl
  rw [entrust, entrust, hheld, hany]
  cases s.held? name with
  | none => rfl
  | some id =>
      cases s.members.any (·.id == owner) with
      | false => rfl
      | true =>
          have hmembers : (s.members.map fun m => if m.id == owner then { m with owned := m.owned ++ [id] } else m).map
                (Member.voice f) =
              (s.members.map (Member.voice f)).map fun m =>
                if m.id == owner then { m with owned := m.owned ++ [id] } else m := by
            rw [List.map_map, List.map_map]
            exact List.map_congr_left fun m _ => apply_ite (Member.voice f) _ _ _
          exact congrArg (fun members => { (s.voice f).release name with members }) hmembers

theorem voice_hold (f : Outcomes) (s : Signal ν α ρ) (name : ν) (id : Nat) :
    (s.hold name id).voice f = (s.voice f).hold name id := by
  have hheld : (s.voice f).held? name = s.held? name := rfl
  rw [hold, hold, hheld]
  cases s.held? name with
  | none => rfl
  | some old => exact voice_drop f { s.release name with held := (name, id) :: (s.release name).held } old

theorem retire_record (s : Signal ν α ρ) (e : Event ν α ρ) (name : ν) :
    (s.record e).retire name = (s.retire name).record e := by
  rw [retire, retire, show (s.record e).held? name = s.held? name from rfl]
  cases s.held? name <;> rfl

theorem retireAll_record (s : Signal ν α ρ) (e : Event ν α ρ) (names : List ν) :
    names.foldl retire (s.record e) = (names.foldl retire s).record e := by
  induction names generalizing s with
  | nil => rfl
  | cons name names ih => rw [List.foldl_cons, retire_record, ih, List.foldl_cons]

theorem deliver_eq (s : Signal ν α ρ) (m : Member ν) (changes : Changes α) (seen : ρ) :
    s.deliver m changes seen = (ofOutcome m.id (m.react m.calls).outcome).elim
      ((m.react m.calls).drops.foldl retire (s.record (.received m.name m.id m.calls changes seen)))
      ((m.react m.calls).drops.foldl retire (s.record (.received m.name m.id m.calls changes seen))).record := by
  rw [deliver]
  cases (m.react m.calls).outcome <;> rfl

omit [DecidableEq ν] in
theorem voice_record_received (f : Outcomes) (s : Signal ν α ρ) (name : ν) (id call : Nat) (changes : Changes α)
    (seen : ρ) : (s.record (.received name id call changes seen)).voice f =
      (ofOutcome id (f id call)).elim ((s.voice f).record (.received name id call changes seen))
        ((s.voice f).record (.received name id call changes seen)).record := by
  rw [voice, record, voiced_concat rfl, aftermath]
  cases ofOutcome id (f id call) with
  | none => rfl
  | some e =>
      have hlog : voiced f s.trace ++ [.received name id call changes seen, e] =
          voiced f s.trace ++ [.received name id call changes seen] ++ [e] := by simp
      exact congrArg (fun trace => { s.voice f with trace }) hlog

theorem voice_deliver (f : Outcomes) (s : Signal ν α ρ) (m : Member ν) (changes : Changes α) (seen : ρ) :
    (s.deliver m changes seen).voice f = (s.voice f).deliver (m.voice f) changes seen := by
  -- its own failure is left out, and the one told by `f` comes right after the delivery
  have hown : (s.deliver m changes seen).voice f =
      ((m.react m.calls).drops.foldl retire (s.record (.received m.name m.id m.calls changes seen))).voice f := by
    rw [deliver_eq]
    cases hfailure : ofOutcome m.id (m.react m.calls).outcome with
    | none => rfl
    | some e => exact voice_record_failure (isFailure_ofOutcome hfailure)
  rw [hown, voice_retireAll, voice_record_received, deliver_eq]
  change _ = (ofOutcome m.id (f m.id m.calls)).elim
    ((m.react m.calls).drops.foldl retire ((s.voice f).record (.received m.name m.id m.calls changes seen)))
    ((m.react m.calls).drops.foldl retire ((s.voice f).record (.received m.name m.id m.calls changes seen))).record
  cases ofOutcome m.id (f m.id m.calls) with
  | none => rfl
  | some e => exact retireAll_record ((s.voice f).record (.received m.name m.id m.calls changes seen)) e _

theorem voice_broadcast (f : Outcomes) (s : Signal ν α ρ) (changes : Changes α) (seen : ρ) :
    (s.broadcast changes seen).voice f = (s.voice f).broadcast changes seen := by
  have hall (ms : List (Member ν)) (s : Signal ν α ρ) :
      (ms.foldl (fun s m => s.deliver m changes seen) s).voice f =
        (ms.map (Member.voice f)).foldl (fun s m => s.deliver m changes seen) (s.voice f) := by
    induction ms generalizing s with
    | nil => rfl
    | cons m ms ih => rw [List.foldl_cons, ih, voice_deliver, List.map_cons, List.foldl_cons]
  have hmembers : (s.members.map fun m => { m with calls := m.calls + 1 }).map (Member.voice f) =
      (s.members.map (Member.voice f)).map fun m => { m with calls := m.calls + 1 } := by
    rw [List.map_map, List.map_map]
    rfl
  rw [broadcast, broadcast, show (s.voice f).members = s.members.map (Member.voice f) from rfl, ← hall, ← hmembers]
  rfl

theorem voice_announce (f : Outcomes) (s : Signal ν α ρ) (changes : Changes α) (seen : ρ) :
    (s.announce changes seen).voice f = (s.voice f).announce changes seen := by
  have hcount : (s.voice f).members.length = s.members.length := List.length_map _
  rw [announce, announce, hcount, apply_ite (voice f), voice_settle, voice_broadcast, voice_record rfl rfl]

theorem voice_emit (f : Outcomes) (s : Signal ν α ρ) (drops : List ν) (changes : Changes α) (seen : ρ) :
    (s.emit drops changes seen).voice f = (s.voice f).emit drops changes seen := by
  rw [emit, emit, voice_announce, voice_retireAll, voice_settle]

theorem voice_prepared {h h' : Handler ν} (halike : h.Alike h') (f : Outcomes) (s : Signal ν α ρ) (drops : List ν) :
    (s.prepared h drops).voice f = (s.voice f).prepared h' drops := by
  rw [prepared, prepared, voice_retireAll, halike.owns, voice_gather]
  change drops.foldl retire { (s.gather h.owns).2.settle.voice f with nextId := s.nextId + 1 } = _
  rw [voice_settle]
  rfl

theorem voice_newcomer {h h' : Handler ν} (halike : h.Alike h') {s : Signal ν α ρ}
    (hf : ∀ call, f s.nextId call = (h'.react call).outcome) (name : ν) :
    (s.newcomer name h).voice f = (s.voice f).newcomer name h' := by
  have hreact : (fun call => ⟨(h.react call).drops, f s.nextId call⟩) = h'.react := by
    funext call
    rw [hf, ← halike.drops]
  rw [newcomer, newcomer, halike.owns, voice_gather, Member.voice, hreact]
  rfl

theorem voice_connect {h h' : Handler ν} (halike : h.Alike h') {s : Signal ν α ρ}
    (hf : ∀ call, f s.nextId call = (h'.react call).outcome) (name : ν) (drops : List ν) (changes : Changes α)
    (seen : ρ) : (s.voice f).connect name h' drops changes seen =
      ((s.connect name h drops changes seen).1, (s.connect name h drops changes seen).2.voice f) := by
  have hoffered : (s.offered name h drops changes seen).voice f = (s.voice f).offered name h' drops changes seen := by
    rw [offered, offered, voice_deliver, voice_prepared halike, voice_newcomer halike hf]
  have henroll (u : Signal ν α ρ) (m : Member ν) : (u.enroll m).voice f = (u.voice f).enroll (m.voice f) := by
    rw [enroll, voice, List.map_append]
    rfl
  rw [connect_eq, connect_eq, voice_hold, voice_settle, voice_record rfl rfl, henroll, hoffered, ← voice_newcomer halike hf]
  rfl

inductive Op.Alike : Op ν α → Op ν α → Prop
  | connect (name : ν) {h h' : Handler ν} (handlers : h.Alike h') (drops : List ν) (populate : Changes α) :
    Alike (.connect name h drops populate) (.connect name h' drops populate)
  | same (op : Op ν α) : Alike op op

def Op.handler? : Op ν α → Option (Handler ν)
  | .connect _ handler _ _ => some handler
  | _ => none

end Signal

def Tells (f : Outcomes) (n : Nat) (handlers : List (Handler ν)) : Prop :=
  ∀ i h, handlers[i]? = some h → ∀ call, f (n + i) call = (h.react call).outcome

def outcomesOf (handlers : List (Handler ν)) : Outcomes :=
  fun id call => handlers[id]?.elim .returned fun h => (h.react call).outcome

theorem tells_outcomesOf (handlers : List (Handler ν)) : Tells (outcomesOf handlers) 0 handlers := by
  intro i h hi call
  rw [outcomesOf, Nat.zero_add, hi]
  rfl

theorem Tells.head {f : Outcomes} {n : Nat} {h : Handler ν} {handlers : List (Handler ν)}
    (htells : Tells f n (h :: handlers)) (call : Nat) : f n call = (h.react call).outcome :=
  htells 0 h rfl call

theorem Tells.tail {f : Outcomes} {n : Nat} {h : Handler ν} {handlers : List (Handler ν)}
    (htells : Tells f n (h :: handlers)) : Tells f (n + 1) handlers := by
  intro i h' hi call
  rw [Nat.add_right_comm]
  exact htells (i + 1) h' hi call

section Trails

variable {σ ω β : Type} {step : σ → ω → β × σ} {voice : Outcomes → σ → σ} {alike : ω → ω → Prop}
  {foretells : Outcomes → σ → List ω → Prop} {s : σ} {ops ops' : List ω} {f f' : Outcomes}

theorem trail_voice
    (hstep : ∀ f s op op' ops', foretells f s (op' :: ops') → alike op op' →
      step (voice f s) op' = ((step s op).1, voice f (step s op).2) ∧ foretells f (step s op).2 ops')
    (hf : foretells f s ops') (h : List.Forall₂ alike ops ops') :
    trail step (voice f s) ops' = (trail step s ops).map (Prod.map id (voice f)) := by
  induction h generalizing s with
  | nil => rfl
  | cons hop _ ih =>
      obtain ⟨hhere, hnext⟩ := hstep _ _ _ _ _ hf hop
      rw [trail, trail, List.map_cons, hhere, ih hnext]
      rfl

theorem forall₂_trail (voice : Outcomes → σ → σ) (foretells : Outcomes → σ → List ω → Prop)
    (hstep : ∀ f s op op' ops', foretells f s (op' :: ops') → alike op op' →
      step (voice f s) op' = ((step s op).1, voice f (step s op).2) ∧ foretells f (step s op).2 ops')
    (hsame : ∀ op, alike op op) (hf : foretells f s ops) (hf' : foretells f' s ops') (hstart : ∀ f, voice f s = s)
    (h : List.Forall₂ alike ops ops') :
    List.Forall₂ (fun a a' => a'.1 = a.1 ∧ voice f a.2 = a.2 ∧ a'.2 = voice f' a.2)
      (trail step s ops) (trail step s ops') := by
  have hself := trail_voice (f := f) hstep hf (List.forall₂_same.mpr fun op _ => hsame op)
  have hother := trail_voice hstep hf' h
  rw [hstart] at hself hother
  rw [hother, List.forall₂_map_right_iff, List.forall₂_same]
  intro a ha
  have hfixed : a = Prod.map id (voice f) a := by
    have hall : (trail step s ops).map id = (trail step s ops).map (Prod.map id (voice f)) := by
      rw [List.map_id, ← hself]
    exact List.map_inj_left.mp hall a ha
  exact ⟨rfl, (congrArg Prod.snd hfixed).symm, rfl⟩

end Trails

namespace Signal

variable [DecidableEq ν] {f : Outcomes} {s : Signal ν α ρ}

def Foretells (f : Outcomes) (s : Signal ν α ρ) (ops : List (Op ν α)) : Prop :=
  s.alive = true → Tells f s.nextId (ops.filterMap Op.handler?)

omit [DecidableEq ν] in
theorem voice_count (f : Outcomes) (s : Signal ν α ρ) : (s.voice f).count = (s.count.1, s.count.2.voice f) := by
  rw [count, count, ← voice_settle]
  exact Prod.ext (List.length_map _) rfl

theorem voice_stepAlive (seen : ρ) {op op' : Op ν α} (h : op.Alike op')
    (hf : ∀ handler, op'.handler? = some handler → ∀ call, f s.nextId call = (handler.react call).outcome) :
    (s.voice f).stepAlive seen op' = ((s.stepAlive seen op).1, (s.stepAlive seen op).2.voice f) := by
  have hconnect {h h' : Handler ν} (halike : h.Alike h') (hh : ∀ call, f s.nextId call = (h'.react call).outcome)
      (name : ν) (drops : List ν) (populate : Changes α) :
      (s.voice f).stepAlive seen (.connect name h' drops populate) =
        ((s.stepAlive seen (.connect name h drops populate)).1,
          (s.stepAlive seen (.connect name h drops populate)).2.voice f) := by
    simp only [stepAlive, voice_connect halike hh]
  cases h with
  | connect name halike drops populate => exact hconnect halike (hf _ rfl) name drops populate
  | same =>
      cases op with
      | connect name h drops populate => exact hconnect (.refl h) (hf _ rfl) name drops populate
      | emit drops changes => exact Prod.ext rfl (s.voice_emit f drops changes seen).symm
      | count => simp only [stepAlive, voice_count]
      | disconnect name => exact Prod.ext rfl (s.voice_disconnect f name).symm
      | detach => rfl
      | entrust name owner => exact Prod.ext rfl (s.voice_entrust f name owner).symm
      | close => rfl

theorem alive_step_of_ended (ha : s.alive = false) (seen : ρ) (op : Op ν α) : (s.step seen op).2.alive = false := by
  unfold step
  rw [if_neg (Bool.eq_false_iff.mp ha)]
  cases op with
  | disconnect name =>
      dsimp only
      rw [disconnect]
      split
      · exact ha
      · exact (alive_drop _ _).trans ha
  | connect | emit | count | detach | entrust | close => exact ha

theorem Foretells.step (seen : ρ) {op op' : Op ν α} {ops' : List (Op ν α)} (hf : Foretells f s (op' :: ops'))
    (h : op.Alike op') : Foretells f (s.step seen op).2 ops' := by
  intro halive
  have ha : s.alive = true := by
    by_contra hended
    rw [alive_step_of_ended (Bool.eq_false_iff.mpr hended)] at halive
    cases halive
  have htells := hf ha
  have hconnect (name : ν) (handler : Handler ν) (drops : List ν) (populate : Changes α) :
      (s.step seen (.connect name handler drops populate)).2.nextId = s.nextId + 1 := by
    simp only [Signal.step, ha, if_true, stepAlive, nextId_connect]
  cases h with
  | connect =>
      rw [hconnect]
      exact htells.tail
  | same =>
      cases op with
      | connect =>
          rw [hconnect]
          exact htells.tail
      | emit | count | disconnect | entrust | detach | close =>
          simp only [Signal.step, ha, if_true, stepAlive, nextId_emit, count, nextId_settle, nextId_disconnect,
            nextId_entrust]
          exact htells

theorem voice_step (seen : ρ) {op op' : Op ν α} {ops' : List (Op ν α)} (hf : Foretells f s (op' :: ops'))
    (h : op.Alike op') : (s.voice f).step seen op' = ((s.step seen op).1, (s.step seen op).2.voice f) := by
  unfold step
  rw [show (s.voice f).alive = s.alive from rfl]
  cases ha : s.alive with
  | true =>
      refine voice_stepAlive seen h fun handler hhandler => ?_
      have htells := hf ha
      rw [List.filterMap_cons_some hhandler] at htells
      exact htells.head
  | false =>
      cases h with
      | connect => rfl
      | same =>
          cases op with
          | disconnect name => exact Prod.ext rfl (s.voice_disconnect f name).symm
          | connect | emit | count | detach | entrust | close => rfl

end Signal

namespace Store

def voice (f : Outcomes) (s : Store ν K V) : Store ν K V :=
  { s with changed := s.changed.voice f }

variable {f : Outcomes} {s : Store ν K V}

theorem voice_record {e : Event ν (K × V) (Snapshot K V)} (he : e.isFailure = false) (hafter : e.aftermath f = none) :
    (s.record e).voice f = (s.voice f).record e := by
  rw [voice, record, Signal.voice_record he hafter]
  rfl

variable [DecidableEq ν]

theorem voice_publish (f : Outcomes) (s : Store ν K V) (baseVersion : Nat) (entries : List (K × V))
    (changes : Changes (K × V)) :
    (s.publish baseVersion entries changes).voice f = (s.voice f).publish baseVersion entries changes := by
  have hchanged : (s.publish baseVersion entries changes).changed.voice f =
      ((s.voice f).publish baseVersion entries changes).changed := by
    rw [publish, Signal.voice_announce, Signal.voice_record rfl rfl, apply_ite (Signal.voice f),
      Signal.voice_record rfl rfl, Signal.voice_settle]
    rfl
  exact congrArg (Store.mk ⟨s.stamps, ⟨entries.toArray, s.version + 1⟩⟩ (s.stamps + 1)) hchanged

theorem nextId_publish (s : Store ν K V) (baseVersion : Nat) (entries : List (K × V)) (changes : Changes (K × V)) :
    (s.publish baseVersion entries changes).changed.nextId = s.changed.nextId := by
  rw [publish]
  obtain ⟨_, _, _, _, hshape⟩ := Signal.announce_shape
    (Signal.record (if s.version = baseVersion then s.changed.settle
      else s.changed.settle.record (.stale baseVersion s.version)) (.committed (s.version + 1) changes.length))
    changes ⟨entries.toArray, s.version + 1⟩
  rw [hshape]
  split
  · exact s.changed.nextId_settle
  · exact s.changed.nextId_settle

end Store

namespace Session

inductive Op.Alike : Op τ ν K V → Op τ ν K V → Prop
  | subscribe (name : ν) {h h' : Handler ν} (handlers : h.Alike h') : Alike (.subscribe name h) (.subscribe name h')
  | same (op : Op τ ν K V) : Alike op op

def Op.handler? : Op τ ν K V → Option (Handler ν)
  | .subscribe _ handler => some handler
  | _ => none

variable [Ord K] {f : Outcomes} {s : Session τ ν K V}

def voice (f : Outcomes) (s : Session τ ν K V) : Session τ ν K V :=
  { s with store := s.store.voice f }

theorem voice_discard (f : Outcomes) (s : Session τ ν K V) (t? : Option (Transaction K V)) :
    (s.discard t?).voice f = (s.voice f).discard t? := by
  cases t? with
  | none => rfl
  | some t =>
      rw [discard, discard, apply_ite (voice f), voice, Store.voice_record rfl rfl]
      rfl

theorem nextId_discard (s : Session τ ν K V) (t? : Option (Transaction K V)) :
    (s.discard t?).store.changed.nextId = s.store.changed.nextId := by
  rcases s.discard_cases t? with hd | ⟨_, _, hd⟩ <;> rw [hd]
  rfl

variable [DecidableEq τ]

theorem voice_edit (f : Outcomes) (s : Session τ ν K V) (name : τ)
    (change : Transaction K V → Except Fault (Reply K V × Transaction K V)) :
    (s.voice f).edit name change = ((s.edit name change).1, (s.edit name change).2.voice f) := by
  rw [edit, edit, show (s.voice f).transaction? name = s.transaction? name from rfl]
  cases s.transaction? name with
  | none => rfl
  | some t =>
      dsimp only
      cases change t <;> rfl

theorem voice_start (f : Outcomes) (s : Session τ ν K V) (name : τ) :
    (s.start name).voice f = (s.voice f).start name := by
  rw [start, voice_discard]
  change (hold { s with store := (s.store.record (.started s.store.version)).voice f } name _).discard _ = _
  rw [Store.voice_record rfl rfl]
  rfl

variable [DecidableEq ν]

theorem voice_commit (f : Outcomes) (s : Session τ ν K V) (name : τ) :
    (s.voice f).commit name = ((s.commit name).1, (s.commit name).2.voice f) := by
  have hcases := s.commit_cases name
  generalize s.commit name = result at hcases ⊢
  cases hcases with
  | unknown ht => exact commit_of_unknown (s := s.voice f) ht
  | refused t ht hstatus => exact commit_of_committed (s := s.voice f) ht hstatus
  | unchanged t ht hstatus hc => exact commit_of_unchanged (s := s.voice f) ht hstatus hc
  | changed t ht hstatus hc =>
      refine (commit_of_changed (s := s.voice f) ht hstatus hc).trans ?_
      change _ = (_, hold { s with store := (s.store.publish _ _ _).voice f } name _)
      rw [Store.voice_publish]
      rfl

variable [Std.TransOrd K] [BEq V]

theorem nextId_step (s : Session τ ν K V) (op : Op τ ν K V) :
    (s.step op).2.store.changed.nextId = s.store.changed.nextId + if op.handler?.isSome then 1 else 0 := by
  cases op with
  | start name =>
      rw [step, start, nextId_discard]
      rfl
  | set | remove | tryRemove | revert =>
      rw [step, store_edit]
      rfl
  | commit name =>
      have hcases := s.commit_cases name
      rw [step]
      generalize s.commit name = result at hcases ⊢
      cases hcases with
      | unknown | refused | unchanged => rfl
      | changed => exact s.store.nextId_publish _ _ _
  | drop name =>
      rw [step, drop, nextId_discard]
      rfl
  | subscribe name handler => exact s.store.changed.nextId_connect name handler [] _ _
  | disconnect name => exact s.store.changed.nextId_disconnect name
  | detach name => rfl
  | count => exact s.store.changed.nextId_settle

theorem voice_step {op op' : Op τ ν K V} (h : op.Alike op')
    (hf : ∀ handler, op'.handler? = some handler →
      ∀ call, f s.store.changed.nextId call = (handler.react call).outcome) :
    (s.voice f).step op' = ((s.step op).1, (s.step op).2.voice f) := by
  have hsubscribe {h h' : Handler ν} (halike : h.Alike h')
      (hh : ∀ call, f s.store.changed.nextId call = (h'.react call).outcome) (name : ν) :
      (s.voice f).step (.subscribe name h') =
        ((s.step (.subscribe name h)).1, (s.step (.subscribe name h)).2.voice f) := by
    have hconnect := Signal.voice_connect halike hh name [] (Changes.populate s.store.snapshot.toList) s.store.snapshot
    simp only [step, Store.subscribe]
    rw [show (s.voice f).store.changed = s.store.changed.voice f from rfl]
    exact Prod.ext (congrArg (fun c => Reply.subscribed c.1) hconnect)
      (congrArg (fun c => { s with store := { s.store with changed := c.2 } }) hconnect)
  cases h with
  | subscribe name halike => exact hsubscribe halike (hf _ rfl) name
  | same =>
      cases op with
      | start name => exact Prod.ext rfl (s.voice_start f name).symm
      | set | remove | tryRemove | revert =>
          unfold step
          exact s.voice_edit f _ _
      | commit name => exact s.voice_commit f name
      | drop name =>
          exact Prod.ext rfl (voice_discard f { s with transactions := s.transactions.eraseP (·.1 == name) } _).symm
      | subscribe name h => exact hsubscribe (.refl h) (hf _ rfl) name
      | disconnect name =>
          exact Prod.ext rfl (congrArg (fun changed => { s with store := { s.store with changed } })
            (s.store.changed.voice_disconnect f name).symm)
      | detach => rfl
      | count =>
          obtain ⟨hcount, hsettled⟩ := Prod.mk.inj (s.store.changed.voice_count f)
          exact Prod.ext (congrArg Reply.counted hcount)
            (congrArg (fun changed => { s with store := { s.store with changed } }) hsettled)

def Foretells (f : Outcomes) (s : Session τ ν K V) (ops : List (Op τ ν K V)) : Prop :=
  Tells f s.store.changed.nextId (ops.filterMap Op.handler?)

theorem Foretells.step {op op' : Op τ ν K V} {ops' : List (Op τ ν K V)} (hf : Foretells f s (op' :: ops'))
    (h : op.Alike op') : (s.voice f).step op' = ((s.step op).1, (s.step op).2.voice f) ∧
      Foretells f (s.step op).2 ops' := by
  have hsame : op'.handler?.isSome = op.handler?.isSome := by cases h <;> rfl
  rw [Foretells, nextId_step, ← hsame]
  cases hhandler : op'.handler? with
  | none =>
      rw [Foretells, List.filterMap_cons_none hhandler] at hf
      exact ⟨voice_step h fun _ hsome => by simp [hhandler] at hsome, hf⟩
  | some handler =>
      rw [Foretells, List.filterMap_cons_some hhandler] at hf
      refine ⟨voice_step h fun _ hsome => ?_, hf.tail⟩
      rw [hhandler] at hsome
      exact Option.some.inj hsome ▸ hf.head

end Session

namespace KeySet

open Session

inductive Op.Alike : Op τ ν K → Op τ ν K → Prop
  | any {op op' : Session.Op τ ν K Unit} (ops : op.Alike op') : Alike (.any op) (.any op')
  | insert (name : τ) (key : K) : Alike (.insert name key) (.insert name key)

theorem Op.Alike.refl (op : Op τ ν K) : op.Alike op := by
  cases op with
  | any op => exact .any (.same op)
  | insert name key => exact .insert name key

variable [Ord K] [Std.TransOrd K] [DecidableEq τ] [DecidableEq ν] {f : Outcomes} {s : Session τ ν K Unit}

theorem voice_step {op op' : Op τ ν K} {ops' : List (Op τ ν K)} (h : op.Alike op')
    (hf : Session.Foretells f s ((op' :: ops').map Op.plain)) :
    KeySet.step (s.voice f) op' = ((KeySet.step s op).1, (KeySet.step s op).2.voice f) ∧
      Session.Foretells f (KeySet.step s op).2 (ops'.map Op.plain) := by
  cases h with
  | any halike => exact Foretells.step hf halike
  | insert name key =>
      have hstore : (KeySet.step s (.insert name key)).2.store = s.store := s.store_edit name _
      refine ⟨s.voice_edit f name _, ?_⟩
      rw [Session.Foretells, hstore]
      exact hf

end KeySet

/-- The two agree, and have received the same, but for what they log of failures: of each call that fails or panics
once, right after its delivery. -/
structure Signal.Agrees (f f' : Outcomes) (s s' : Signal ν α ρ) : Prop where
  nextId : s'.nextId = s.nextId
  members : s'.members.map (fun m => (m.id, m.name, m.calls, m.owned)) =
    s.members.map fun m => (m.id, m.name, m.calls, m.owned)
  retired : s'.retired = s.retired
  held : s'.held = s.held
  alive : s'.alive = s.alive
  quiet : s'.trace.filter (!·.isFailure) = s.trace.filter (!·.isFailure)
  failures : s.trace = (s.trace.filter (!·.isFailure)).flatMap fun e => e :: (e.aftermath f).toList
  failures' : s'.trace = (s'.trace.filter (!·.isFailure)).flatMap fun e => e :: (e.aftermath f').toList

theorem Signal.agrees_voice {f : Outcomes} {s : Signal ν α ρ} (hs : s.voice f = s) (f' : Outcomes) :
    s.Agrees f f' (s.voice f') where
  nextId := rfl
  members := List.map_map
  retired := rfl
  held := rfl
  alive := rfl
  quiet := Event.filter_voiced f' s.trace
  failures := (congrArg Signal.trace hs).symm
  failures' := congrArg (List.flatMap _) (Event.filter_voiced f' s.trace).symm

structure Session.Agrees [Ord K] (f f' : Outcomes) (s s' : Session τ ν K V) : Prop where
  current : s'.store.current = s.store.current
  stamps : s'.store.stamps = s.store.stamps
  transactions : s'.transactions = s.transactions
  changed : s.store.changed.Agrees f f' s'.store.changed

theorem Session.agrees_voice [Ord K] {f : Outcomes} {s : Session τ ν K V} (hs : s.voice f = s) (f' : Outcomes) :
    s.Agrees f f' (s.voice f') :=
  ⟨rfl, rfl, rfl, Signal.agrees_voice (congrArg (·.store.changed) hs) f'⟩

/-- Two runs of the same operations, whose handlers give up the same subscriptions at the same calls, answer alike and
agree after every operation, however their handlers fail and panic; their logs differ in one event for each call
that does. -/
theorem failures_are_only_logged [Ord K] [Std.TransOrd K] [BEq V] [DecidableEq τ] [DecidableEq ν] :
    (∀ (seen : ρ) (ops ops' : List (Signal.Op ν α)), List.Forall₂ Signal.Op.Alike ops ops' →
      let f := outcomesOf (ops.filterMap Signal.Op.handler?)
      let f' := outcomesOf (ops'.filterMap Signal.Op.handler?)
      List.Forall₂ (fun a a' => a'.1 = a.1 ∧ a.2.Agrees f f' a'.2)
        (trail (Signal.step seen) .empty ops) (trail (Signal.step seen) .empty ops')) ∧
    (∀ (entries : List (K × V)) (ops ops' : List (Session.Op τ ν K V)), List.Forall₂ Session.Op.Alike ops ops' →
      let f := outcomesOf (ops.filterMap Session.Op.handler?)
      let f' := outcomesOf (ops'.filterMap Session.Op.handler?)
      let first : Session τ ν K V := .ofStore (.ofList entries)
      List.Forall₂ (fun a a' => a'.1 = a.1 ∧ a.2.Agrees f f' a'.2)
        (trail Session.step first ops) (trail Session.step first ops')) ∧
    ∀ (keys : List K) (ops ops' : List (KeySet.Op τ ν K)), List.Forall₂ KeySet.Op.Alike ops ops' →
      let f := outcomesOf ((ops.map KeySet.Op.plain).filterMap Session.Op.handler?)
      let f' := outcomesOf ((ops'.map KeySet.Op.plain).filterMap Session.Op.handler?)
      let first : Session τ ν K Unit := .ofStore (KeySet.ofList keys)
      List.Forall₂ (fun a a' => a'.1 = a.1 ∧ a.2.Agrees f f' a'.2)
        (trail KeySet.step first ops) (trail KeySet.step first ops') := by
  refine ⟨?signals, ?dictionaries, ?sets⟩
  case signals =>
    intro seen ops ops' h f f'
    have hf : Signal.Foretells f (.empty : Signal ν α ρ) ops := fun _ => tells_outcomesOf _
    have hf' : Signal.Foretells f' (.empty : Signal ν α ρ) ops' := fun _ => tells_outcomesOf _
    have hruns := forall₂_trail Signal.voice Signal.Foretells
      (fun _ _ _ _ _ hf h => ⟨Signal.voice_step seen hf h, hf.step seen h⟩) Signal.Op.Alike.same hf hf' (fun _ => rfl) h
    exact hruns.imp fun a a' ⟨hreply, hself, hother⟩ => ⟨hreply, hother ▸ Signal.agrees_voice hself f'⟩
  case dictionaries =>
    intro entries ops ops' h f f' first
    have hf : Session.Foretells f first ops := tells_outcomesOf _
    have hf' : Session.Foretells f' first ops' := tells_outcomesOf _
    have hruns := forall₂_trail Session.voice Session.Foretells (fun _ _ _ _ _ => Session.Foretells.step)
      Session.Op.Alike.same hf hf' (fun _ => rfl) h
    exact hruns.imp fun a a' ⟨hreply, hself, hother⟩ => ⟨hreply, hother ▸ Session.agrees_voice hself f'⟩
  case sets =>
    intro keys ops ops' h f f' first
    have hf : Session.Foretells f first (ops.map KeySet.Op.plain) := tells_outcomesOf _
    have hf' : Session.Foretells f' first (ops'.map KeySet.Op.plain) := tells_outcomesOf _
    have hruns := forall₂_trail Session.voice (fun f s ops => Session.Foretells f s (ops.map KeySet.Op.plain))
      (fun _ _ _ _ _ hf h => KeySet.voice_step h hf) KeySet.Op.Alike.refl hf hf' (fun _ => rfl) h
    exact hruns.imp fun a a' ⟨hreply, hself, hother⟩ => ⟨hreply, hother ▸ Session.agrees_voice hself f'⟩

/-- The first handler gives up the second one's subscription at its second call; it fails where it returned before,
and the second one panics. -/
theorem failures_are_only_logged_panicking :
    let ops (first second : Outcome) : List (Session.Op Nat Nat Nat Nat) :=
      [.subscribe 0 ⟨fun call => ⟨if call = 1 then [1] else [], first⟩, []⟩,
        .subscribe 1 ⟨fun _ => ⟨[], second⟩, []⟩, .start 0, .set 0 1 10, .commit 0, .count]
    let quiet := ops .returned .returned
    let loud := ops (.failed "full") (.panicked none)
    let start : Session Nat Nat Nat Nat := .ofStore (.ofList [(2, 20)])
    List.Forall₂ Session.Op.Alike quiet loud ∧
      List.Forall₂ (fun a a' => a'.1 = a.1 ∧
          a.2.Agrees (outcomesOf (quiet.filterMap Session.Op.handler?)) (outcomesOf (loud.filterMap Session.Op.handler?))
            a'.2)
        (trail Session.step start quiet) (trail Session.step start loud) := by
  intro ops quiet loud start
  have halike : List.Forall₂ Session.Op.Alike quiet loud :=
    .cons (.subscribe 0 ⟨rfl, fun _ => rfl⟩) (.cons (.subscribe 1 ⟨rfl, fun _ => rfl⟩)
      (List.forall₂_same.mpr fun op _ => .same op))
  exact ⟨halike, (@failures_are_only_logged Nat Nat Nat Nat Nat Nat _ _ _ _ _).2.1 [(2, 20)] quiet loud halike⟩

end VersionedMap
