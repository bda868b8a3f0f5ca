import VersionedMap.SignalRun
import Mathlib.Data.List.Basic

namespace VersionedMap

structure Delivery (α ρ : Type) where
  id : Nat
  changes : Changes α
  seen : ρ

namespace Event

variable {ν α ρ β : Type}

def delivery? : Event ν α ρ → Option (Delivery α ρ)
  | received _ id _ changes seen => some ⟨id, changes, seen⟩
  | _ => none

/-- A reading of events that looks past what a signal logs around its deliveries. -/
structure Overlooks (f : Event ν α ρ → Option β) : Prop where
  connected : ∀ id, f (.connected id) = none
  disconnected : ∀ id, f (.disconnected id) = none
  delivering : ∀ subscribers changes, f (.delivering subscribers changes) = none
  failed : ∀ id reason, f (.failed id reason) = none
  panicked : ∀ id reason, f (.panicked id reason) = none

theorem overlooks_delivery? : Overlooks (delivery? : Event ν α ρ → Option (Delivery α ρ)) where
  connected _ := rfl
  disconnected _ := rfl
  delivering _ _ := rfl
  failed _ _ := rfl
  panicked _ _ := rfl

end Event

namespace Signal

open Event

variable {ν α ρ β : Type}

def reads (f : Event ν α ρ → Option β) (s : Signal ν α ρ) : List β :=
  s.trace.filterMap f

def deliveries (s : Signal ν α ρ) : List (Delivery α ρ) :=
  s.reads delivery?

theorem reads_record (f : Event ν α ρ → Option β) (s : Signal ν α ρ) (e : Event ν α ρ) :
    (s.record e).reads f = s.reads f ++ (f e).toList := by
  rw [reads, record, List.filterMap_append, ← reads, List.filterMap_cons, List.filterMap_nil]
  cases f e <;> rfl

theorem reads_record_none {f : Event ν α ρ → Option β} {e : Event ν α ρ} (h : f e = none)
    (s : Signal ν α ρ) : (s.record e).reads f = s.reads f := by
  rw [reads_record, h]
  exact List.append_nil _

theorem remove_shape (s : Signal ν α ρ) (id : Nat) : ∃ members retired trace,
    s.remove id = { s with members, retired, trace } := by
  rw [remove]
  split
  · exact ⟨s.members, s.retired, s.trace, rfl⟩
  · exact ⟨_, _, _, rfl⟩

theorem settle_shape (s : Signal ν α ρ) : ∃ members retired trace,
    s.settle = { s with members, retired, trace } := by
  fun_induction settle s with
  | case1 s hs => exact ⟨s.members, s.retired, s.trace, rfl⟩
  | case2 s id rest hs ih =>
      obtain ⟨_, _, _, hm⟩ := remove_shape { s with retired := rest } id
      obtain ⟨members, retired, trace, hi⟩ := ih
      rw [hm] at hi ⊢
      exact ⟨members, retired, trace, hi⟩

theorem nextId_settle (s : Signal ν α ρ) : s.settle.nextId = s.nextId := by
  obtain ⟨_, _, _, h⟩ := s.settle_shape
  rw [h]

theorem held_settle (s : Signal ν α ρ) : s.settle.held = s.held := by
  obtain ⟨_, _, _, h⟩ := s.settle_shape
  rw [h]

theorem alive_settle (s : Signal ν α ρ) : s.settle.alive = s.alive := by
  obtain ⟨_, _, _, h⟩ := s.settle_shape
  rw [h]

theorem reads_remove {f : Event ν α ρ → Option β} (hf : Overlooks f) (s : Signal ν α ρ) (id : Nat) :
    (s.remove id).reads f = s.reads f := by
  rw [remove]
  split
  · rfl
  · exact reads_record_none (hf.disconnected id) _

theorem reads_settle {f : Event ν α ρ → Option β} (hf : Overlooks f) (s : Signal ν α ρ) :
    s.settle.reads f = s.reads f := by
  fun_induction settle s with
  | case1 => rfl
  | case2 s id rest hs ih => rw [ih, reads_remove hf]; rfl

theorem reads_drop {f : Event ν α ρ → Option β} (hf : Overlooks f) (s : Signal ν α ρ) (id : Nat) :
    (s.drop id).reads f = s.reads f := by
  rw [drop]
  split
  · rw [reads_settle hf, reads_remove hf]
  · rfl

theorem alive_drop (s : Signal ν α ρ) (id : Nat) : (s.drop id).alive = s.alive := by
  rw [drop]
  split
  · rw [alive_settle]
    obtain ⟨_, _, _, h⟩ := s.remove_shape id
    rw [h]
  · rfl

theorem nextId_drop (s : Signal ν α ρ) (id : Nat) : (s.drop id).nextId = s.nextId := by
  rw [drop]
  split
  · rw [nextId_settle]
    obtain ⟨_, _, _, h⟩ := s.remove_shape id
    rw [h]
  · rfl

variable [DecidableEq ν]

theorem retire_shape (s : Signal ν α ρ) (name : ν) : ∃ held retired,
    s.retire name = { s with held, retired } := by
  rw [retire]
  split
  · exact ⟨s.held, s.retired, rfl⟩
  · exact ⟨_, _, rfl⟩

theorem retireAll_shape (s : Signal ν α ρ) (names : List ν) : ∃ held retired,
    names.foldl retire s = { s with held, retired } := by
  induction names generalizing s with
  | nil => exact ⟨s.held, s.retired, rfl⟩
  | cons name names ih =>
      obtain ⟨_, _, hn⟩ := s.retire_shape name
      obtain ⟨held, retired, hi⟩ := ih (s.retire name)
      rw [List.foldl_cons, hi, hn]
      exact ⟨held, retired, rfl⟩

theorem deliver_shape (s : Signal ν α ρ) (m : Member ν) (changes : Changes α) (seen : ρ) :
    ∃ held retired trace, s.deliver m changes seen = { s with held, retired, trace } := by
  obtain ⟨held, retired, h⟩ := retireAll_shape
    (s.record (.received m.name m.id m.calls changes seen)) (m.react m.calls).drops
  rw [deliver]
  simp only [h]
  split
  · exact ⟨_, _, _, rfl⟩
  · exact ⟨_, _, _, rfl⟩
  · exact ⟨_, _, _, rfl⟩

theorem deliverAll_shape (s : Signal ν α ρ) (ms : List (Member ν)) (changes : Changes α) (seen : ρ) :
    ∃ held retired trace,
      ms.foldl (fun s m => s.deliver m changes seen) s = { s with held, retired, trace } := by
  induction ms generalizing s with
  | nil => exact ⟨s.held, s.retired, s.trace, rfl⟩
  | cons m ms ih =>
      obtain ⟨_, _, _, hm⟩ := s.deliver_shape m changes seen
      obtain ⟨held, retired, trace, hi⟩ := ih (s.deliver m changes seen)
      rw [List.foldl_cons, hi, hm]
      exact ⟨held, retired, trace, rfl⟩

theorem reads_retireAll (f : Event ν α ρ → Option β) (s : Signal ν α ρ) (names : List ν) :
    (names.foldl retire s).reads f = s.reads f := by
  obtain ⟨_, _, h⟩ := s.retireAll_shape names
  rw [h]
  rfl

theorem reads_deliver {f : Event ν α ρ → Option β} (hf : Overlooks f) (s : Signal ν α ρ) (m : Member ν)
    (changes : Changes α) (seen : ρ) :
    (s.deliver m changes seen).reads f =
      s.reads f ++ (f (.received m.name m.id m.calls changes seen)).toList := by
  have hcalled := reads_retireAll f (s.record (.received m.name m.id m.calls changes seen))
    (m.react m.calls).drops
  rw [reads_record] at hcalled
  rw [deliver, ← hcalled]
  cases (m.react m.calls).outcome with
  | returned => rfl
  | failed reason => exact reads_record_none (hf.failed _ _) _
  | panicked payload => exact reads_record_none (hf.panicked _ _) _

theorem reads_deliverAll {f : Event ν α ρ → Option β} (hf : Overlooks f) (s : Signal ν α ρ)
    (ms : List (Member ν)) (changes : Changes α) (seen : ρ) :
    (ms.foldl (fun s m => s.deliver m changes seen) s).reads f =
      s.reads f ++ ms.filterMap fun m => f (.received m.name m.id m.calls changes seen) := by
  induction ms generalizing s with
  | nil => exact (List.append_nil _).symm
  | cons m ms ih =>
      rw [List.foldl_cons, ih, reads_deliver hf, List.append_assoc, List.filterMap_cons]
      cases f (.received m.name m.id m.calls changes seen) <;> rfl

/-- Every handler connected is called once, in connection order, unless there is nothing to report. -/
theorem reads_announce {f : Event ν α ρ → Option β} (hf : Overlooks f) (s : Signal ν α ρ)
    (changes : Changes α) (seen : ρ) :
    (s.announce changes seen).reads f = s.reads f ++ if changes.isEmpty then [] else
      s.members.filterMap fun m => f (.received m.name m.id m.calls changes seen) := by
  rw [announce]
  split
  · exact (List.append_nil _).symm
  · rw [reads_settle hf, ← reads_record_none (hf.delivering s.members.length changes.length) s]
    exact reads_deliverAll hf (s.record (.delivering s.members.length changes.length)) s.members changes seen

theorem deliveries_announce (s : Signal ν α ρ) (changes : Changes α) (seen : ρ) :
    (s.announce changes seen).deliveries = s.deliveries ++ if changes.isEmpty then [] else
      s.members.map fun m => ⟨m.id, changes, seen⟩ := by
  rw [deliveries, reads_announce overlooks_delivery?, ← deliveries]
  simp only [delivery?, List.filterMap_eq_map']

theorem broadcast_shape (s : Signal ν α ρ) (changes : Changes α) (seen : ρ) :
    ∃ members held retired trace,
      s.broadcast changes seen = { s with members, held, retired, trace } := by
  obtain ⟨_, _, _, h⟩ := s.deliverAll_shape s.members changes seen
  rw [broadcast, h]
  exact ⟨_, _, _, _, rfl⟩

theorem announce_shape (s : Signal ν α ρ) (changes : Changes α) (seen : ρ) :
    ∃ members held retired trace,
      s.announce changes seen = { s with members, held, retired, trace } := by
  rw [announce]
  split
  · exact ⟨s.members, s.held, s.retired, s.trace, rfl⟩
  · obtain ⟨_, _, _, hs⟩ := settle_shape
      ((s.record (.delivering s.members.length changes.length)).broadcast changes seen)
    obtain ⟨_, _, _, _, hb⟩ := broadcast_shape
      (s.record (.delivering s.members.length changes.length)) changes seen
    rw [hs, hb]
    exact ⟨_, _, _, _, rfl⟩

theorem emit_shape (s : Signal ν α ρ) (drops : List ν) (changes : Changes α) (seen : ρ) :
    ∃ members held retired trace,
      s.emit drops changes seen = { s with members, held, retired, trace } := by
  obtain ⟨_, _, _, hs⟩ := s.settle_shape
  obtain ⟨_, _, hr⟩ := s.settle.retireAll_shape drops
  obtain ⟨_, _, _, _, ha⟩ := announce_shape (drops.foldl retire s.settle) changes seen
  rw [emit, ha, hr, hs]
  exact ⟨_, _, _, _, rfl⟩

theorem gather_shape (s : Signal ν α ρ) (names : List ν) : ∃ held,
    (s.gather names).2 = { s with held } := by
  induction names generalizing s with
  | nil => exact ⟨s.held, rfl⟩
  | cons name names ih =>
      obtain ⟨held, h⟩ := ih (s.release name)
      exact ⟨held, h⟩

theorem reads_hold {f : Event ν α ρ → Option β} (hf : Overlooks f) (s : Signal ν α ρ) (name : ν) (id : Nat) :
    (s.hold name id).reads f = s.reads f := by
  rw [hold]
  split
  · rfl
  · rw [reads_drop hf]
    rfl

theorem alive_hold (s : Signal ν α ρ) (name : ν) (id : Nat) : (s.hold name id).alive = s.alive := by
  rw [hold]
  split
  · rfl
  · rw [alive_drop]
    rfl

theorem nextId_hold (s : Signal ν α ρ) (name : ν) (id : Nat) : (s.hold name id).nextId = s.nextId := by
  rw [hold]
  split
  · rfl
  · rw [nextId_drop]
    rfl

theorem nextId_gather (s : Signal ν α ρ) (names : List ν) : (s.gather names).2.nextId = s.nextId := by
  obtain ⟨_, h⟩ := s.gather_shape names
  rw [h]

def prepared (s : Signal ν α ρ) (handler : Handler ν) (drops : List ν) : Signal ν α ρ :=
  drops.foldl retire { (s.gather handler.owns).2.settle with nextId := s.nextId + 1 }

def newcomer (s : Signal ν α ρ) (name : ν) (handler : Handler ν) : Member ν :=
  ⟨s.nextId, name, handler.react, 0, (s.gather handler.owns).1⟩

/-- The list when a new handler has received its first change set and is not connected yet. -/
def offered (s : Signal ν α ρ) (name : ν) (handler : Handler ν) (drops : List ν) (changes : Changes α)
    (seen : ρ) : Signal ν α ρ :=
  (s.prepared handler drops).deliver (s.newcomer name handler) changes seen

def enroll (s : Signal ν α ρ) (m : Member ν) : Signal ν α ρ :=
  { s with members := s.members ++ [m] }

theorem connect_eq (s : Signal ν α ρ) (name : ν) (handler : Handler ν) (drops : List ν)
    (changes : Changes α) (seen : ρ) : s.connect name handler drops changes seen =
      (s.nextId, ((((s.offered name handler drops changes seen).enroll
        { s.newcomer name handler with calls := 1 }).record (.connected s.nextId)).settle.hold
          name s.nextId)) := by
  have hid : (s.gather handler.owns).2.settle.nextId = s.nextId := by rw [nextId_settle, nextId_gather]
  simp only [connect, hid]
  rfl

theorem offered_shape (s : Signal ν α ρ) (name : ν) (handler : Handler ν) (drops : List ν)
    (changes : Changes α) (seen : ρ) : ∃ members held retired trace,
      s.offered name handler drops changes seen =
        { s with nextId := s.nextId + 1, members, held, retired, trace } := by
  obtain ⟨_, hg⟩ := s.gather_shape handler.owns
  obtain ⟨_, _, _, hs⟩ := (s.gather handler.owns).2.settle_shape
  obtain ⟨_, _, hp⟩ := retireAll_shape { (s.gather handler.owns).2.settle with nextId := s.nextId + 1 } drops
  obtain ⟨_, _, _, hd⟩ := deliver_shape (s.prepared handler drops) (s.newcomer name handler) changes seen
  rw [offered, hd, prepared, hp, hs, hg]
  exact ⟨_, _, _, _, rfl⟩

theorem reads_offered {f : Event ν α ρ → Option β} (hf : Overlooks f) (s : Signal ν α ρ) (name : ν)
    (handler : Handler ν) (drops : List ν) (changes : Changes α) (seen : ρ) :
    (s.offered name handler drops changes seen).reads f =
      s.reads f ++ (f (.received name s.nextId 0 changes seen)).toList := by
  have hprepared : (s.prepared handler drops).reads f = (s.gather handler.owns).2.settle.reads f :=
    reads_retireAll f _ _
  obtain ⟨_, h⟩ := s.gather_shape handler.owns
  rw [offered, reads_deliver hf, hprepared, reads_settle hf, h]
  rfl

theorem reads_connect {f : Event ν α ρ → Option β} (hf : Overlooks f) (s : Signal ν α ρ) (name : ν)
    (handler : Handler ν) (drops : List ν) (changes : Changes α) (seen : ρ) :
    (s.connect name handler drops changes seen).2.reads f =
      s.reads f ++ (f (.received name s.nextId 0 changes seen)).toList := by
  rw [connect_eq, reads_hold hf, reads_settle hf, reads_record_none (hf.connected _),
    ← reads_offered hf s name handler drops]
  rfl

theorem nextId_connect (s : Signal ν α ρ) (name : ν) (handler : Handler ν) (drops : List ν)
    (changes : Changes α) (seen : ρ) :
    (s.connect name handler drops changes seen).2.nextId = s.nextId + 1 := by
  obtain ⟨_, _, _, _, h⟩ := s.offered_shape name handler drops changes seen
  rw [connect_eq, nextId_hold, nextId_settle, h]
  rfl

theorem alive_connect (s : Signal ν α ρ) (name : ν) (handler : Handler ν) (drops : List ν)
    (changes : Changes α) (seen : ρ) :
    (s.connect name handler drops changes seen).2.alive = s.alive := by
  obtain ⟨_, _, _, _, h⟩ := s.offered_shape name handler drops changes seen
  rw [connect_eq, alive_hold, alive_settle, h]
  rfl

theorem deliveries_connect (s : Signal ν α ρ) (name : ν) (handler : Handler ν) (drops : List ν)
    (changes : Changes α) (seen : ρ) :
    (s.connect name handler drops changes seen).2.deliveries =
      s.deliveries ++ [⟨s.nextId, changes, seen⟩] :=
  reads_connect overlooks_delivery? s name handler drops changes seen

theorem nextId_disconnect (s : Signal ν α ρ) (name : ν) : (s.disconnect name).nextId = s.nextId := by
  rw [disconnect]
  split
  · rfl
  · rw [nextId_drop]
    rfl

theorem reads_disconnect {f : Event ν α ρ → Option β} (hf : Overlooks f) (s : Signal ν α ρ) (name : ν) :
    (s.disconnect name).reads f = s.reads f := by
  rw [disconnect]
  split
  · rfl
  · rw [reads_drop hf]
    rfl

end Signal

end VersionedMap
