namespace VersionedMap

inductive Outcome where
  | returned
  | failed (reason : String)
  | panicked (payload : Option String)
deriving DecidableEq, Repr

structure Reaction (ν : Type) where
  drops : List ν
  outcome : Outcome

/-- A handler reacts to its first call, its second, and so on. In any one run this describes every
handler, whatever its reactions depend on. `owns` names the subscriptions that move into the handler
and are given up when it is removed. -/
structure Handler (ν : Type) where
  react : Nat → Reaction ν
  owns : List ν

structure Act (ν : Type) where
  call? : Option Nat
  drops : List ν
  outcome : Outcome

def Act.perform {ν : Type} (call : Nat) : List (Act ν) → Reaction ν
  | [] => ⟨[], .returned⟩
  | act :: acts =>
    if act.call?.all (· == call) then
      match act.outcome with
      | .returned =>
        let rest := perform call acts
        ⟨act.drops ++ rest.drops, rest.outcome⟩
      | outcome => ⟨act.drops, outcome⟩
    else
      perform call acts

end VersionedMap
