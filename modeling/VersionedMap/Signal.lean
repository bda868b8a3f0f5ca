import VersionedMap.Event
import VersionedMap.Handler
import VersionedMap.Inspect

namespace VersionedMap

structure Member (ν : Type) where
  id : Nat
  name : ν
  react : Nat → Reaction ν
  calls : Nat
  owned : List Nat

/-- A list of handlers, in connection order. While they are being called, and while a state change is
being prepared, the list is busy: a subscription dropped then is only queued as retired, and its handler
is removed when the list is settled. A subscription is held under its holder's name or owned by a
handler, and may outlive the signal. -/
structure Signal (ν α ρ : Type) where
  nextId : Nat
  members : List (Member ν)
  retired : List Nat
  held : List (ν × Nat)
  alive : Bool
  trace : List (Event ν α ρ)

namespace Signal

variable {ν α ρ : Type}

def empty : Signal ν α ρ :=
  ⟨0, [], [], [], true, []⟩

def record (s : Signal ν α ρ) (event : Event ν α ρ) : Signal ν α ρ :=
  { s with trace := s.trace ++ [event] }

def remove (s : Signal ν α ρ) (id : Nat) : Signal ν α ρ :=
  match s.members.find? (·.id == id) with
  | none => s
  | some member =>
    { s with
      members := s.members.eraseP (·.id == id)
      retired := s.retired ++ member.owned }.record (.disconnected id)

theorem remove_shrinks (s : Signal ν α ρ) (id : Nat) :
    (s.remove id).members.length < s.members.length ∨
      ((s.remove id).members = s.members ∧ (s.remove id).retired = s.retired) := by
  unfold remove
  split
  case h_1 => exact .inr ⟨rfl, rfl⟩
  case h_2 member found =>
    refine .inl ?_
    have mem := List.mem_of_find?_eq_some found
    have same := List.find?_some (p := fun m : Member ν => m.id == id) found
    have pos := List.length_pos_of_mem mem
    have fewer := List.length_eraseP_of_mem (p := fun m : Member ν => m.id == id) mem same
    simp only [record]
    omega

/-- Removes retired handlers, oldest first, until none is left. Removing one may retire more. -/
def settle (s : Signal ν α ρ) : Signal ν α ρ :=
  match _retired : s.retired with
  | [] => s
  | id :: rest => settle ({ s with retired := rest }.remove id)
termination_by (s.members.length, s.retired.length)
decreasing_by
  rcases remove_shrinks { s with retired := rest } id with fewer | ⟨same, left⟩
  · exact .left _ _ fewer
  · rw [same, left, _retired]
    exact .right _ (Nat.lt_succ_self _)

theorem retired_settle (s : Signal ν α ρ) : s.settle.retired = [] := by
  fun_induction settle s with
  | case1 s none => exact none
  | case2 s id rest _ ih => exact ih

theorem settle_of_retired_nil {s : Signal ν α ρ} (h : s.retired = []) : s.settle = s := by
  unfold settle
  split
  · rfl
  · simp_all

def count (s : Signal ν α ρ) : Nat × Signal ν α ρ :=
  (s.settle.members.length, s.settle)

def text (s : Signal ν α ρ) : String × Signal ν α ρ :=
  (Inspect.recordText "ChangeSignal" [("subscribers", toString s.count.1)], s.count.2)

def close (s : Signal ν α ρ) : Signal ν α ρ :=
  { s with alive := false, members := [], retired := [] }

def drop (s : Signal ν α ρ) (id : Nat) : Signal ν α ρ :=
  if s.alive then (s.remove id).settle else s

variable [DecidableEq ν]

def held? (s : Signal ν α ρ) (name : ν) : Option Nat :=
  s.held.lookup name

def release (s : Signal ν α ρ) (name : ν) : Signal ν α ρ :=
  { s with held := s.held.eraseP (·.1 == name) }

def retire (s : Signal ν α ρ) (name : ν) : Signal ν α ρ :=
  match s.held? name with
  | none => s
  | some id => { s.release name with retired := s.retired ++ [id] }

def disconnect (s : Signal ν α ρ) (name : ν) : Signal ν α ρ :=
  match s.held? name with
  | none => s
  | some id => (s.release name).drop id

/-- Gives up the subscription held under `name`; its handler stays connected. -/
def detach (s : Signal ν α ρ) (name : ν) : Signal ν α ρ :=
  s.release name

def gather (s : Signal ν α ρ) : List ν → List Nat × Signal ν α ρ
  | [] => ([], s)
  | name :: names =>
    let (ids, rest) := (s.release name).gather names
    ((s.held? name).toList ++ ids, rest)

def entrust (s : Signal ν α ρ) (name : ν) (owner : Nat) : Signal ν α ρ :=
  match s.held? name with
  | none => s
  | some id =>
    if s.members.any (·.id == owner) then
      { s.release name with
        members := s.members.map fun m =>
          if m.id == owner then { m with owned := m.owned ++ [id] } else m }
    else
      s

def hold (s : Signal ν α ρ) (name : ν) (id : Nat) : Signal ν α ρ :=
  let held := { s.release name with held := (name, id) :: (s.release name).held }
  match s.held? name with
  | none => held
  | some old => held.drop old

/-- Calls one handler. A failure is logged and has no other effect. -/
def deliver (s : Signal ν α ρ) (m : Member ν) (changes : Changes α) (seen : ρ) : Signal ν α ρ :=
  let reaction := m.react m.calls
  let s := reaction.drops.foldl retire (s.record (.received m.name m.id m.calls changes seen))
  match reaction.outcome with
  | .returned => s
  | .failed reason => s.record (.failed m.id reason)
  | .panicked payload => s.record (.panicked m.id (payload.getD "<non-string panic payload>"))

def broadcast (s : Signal ν α ρ) (changes : Changes α) (seen : ρ) : Signal ν α ρ :=
  { s.members.foldl (fun s m => s.deliver m changes seen) s with
    members := s.members.map fun m => { m with calls := m.calls + 1 } }

def announce (s : Signal ν α ρ) (changes : Changes α) (seen : ρ) : Signal ν α ρ :=
  if changes.isEmpty then s
  else
    ((s.record (.delivering s.members.length changes.length)).broadcast changes seen).settle

def emit (s : Signal ν α ρ) (drops : List ν) (changes : Changes α) (seen : ρ) : Signal ν α ρ :=
  (drops.foldl retire s.settle).announce changes seen

/-- Connects a handler after giving it a first change set, even an empty one, whose making drops
subscriptions. The subscription is held under `name`. -/
def connect (s : Signal ν α ρ) (name : ν) (handler : Handler ν) (drops : List ν) (changes : Changes α)
    (seen : ρ) : Nat × Signal ν α ρ :=
  let (owned, s) := s.gather handler.owns
  let s := s.settle
  let id := s.nextId
  let member : Member ν := ⟨id, name, handler.react, 0, owned⟩
  let s := (drops.foldl retire { s with nextId := id + 1 }).deliver member changes seen
  let s := { s with members := s.members ++ [{ member with calls := 1 }] }
  (id, (s.record (.connected id)).settle.hold name id)

def subscriptionText? (s : Signal ν α ρ) (name : ν) : Option String :=
  (s.held? name).map fun id =>
    Inspect.recordText "Subscription" [("id", toString id), ("attached", "true")]

end Signal

end VersionedMap
