import VersionedMap.Signal

namespace VersionedMap.Signal

/-- What the users of a signal can do. Making a first change set, or changes, may drop some
subscriptions. -/
inductive Op (ν α : Type) where
  | connect (name : ν) (handler : Handler ν) (drops : List ν) (populate : Changes α)
  | emit (drops : List ν) (changes : Changes α)
  | count
  | disconnect (name : ν)
  | detach (name : ν)
  | entrust (name : ν) (owner : Nat)
  | close

inductive Reply (α : Type) where
  | done
  | subscribed (id : Nat)
  | emitted (changes : Changes α)
  | counted (subscribers : Nat)
  | ended

variable {ν α ρ : Type} [DecidableEq ν]

def stepAlive (seen : ρ) (s : Signal ν α ρ) : Op ν α → Reply α × Signal ν α ρ
  | .connect name handler drops populate =>
    let (id, s) := s.connect name handler drops populate seen
    (.subscribed id, s)
  | .emit drops changes => (.emitted changes, s.emit drops changes seen)
  | .count =>
    let (subscribers, s) := s.count
    (.counted subscribers, s)
  | .disconnect name => (.done, s.disconnect name)
  | .detach name => (.done, s.detach name)
  | .entrust name owner => (.done, s.entrust name owner)
  | .close => (.done, s.close)

def step (seen : ρ) (s : Signal ν α ρ) (op : Op ν α) : Reply α × Signal ν α ρ :=
  if s.alive then s.stepAlive seen op
  else
    match op with
    | .disconnect name => (.done, s.disconnect name)
    | .detach name => (.done, s.detach name)
    | _ => (.ended, s)

def run (seen : ρ) (s : Signal ν α ρ) (ops : List (Op ν α)) : Signal ν α ρ :=
  ops.foldl (fun s op => (s.step seen op).2) s

end VersionedMap.Signal
