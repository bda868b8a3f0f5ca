import VersionedMap.Change
import VersionedMap.Json

namespace VersionedMap

/-- Events of a signal with handlers named by `ν`, items of type `α` and a state of type `ρ` that
handlers can read while they run: `seen` is what could be read at the `call`-th call, counted from zero.
-/
inductive Event (ν α ρ : Type) where
  | received (name : ν) (id call : Nat) (changes : Changes α) (seen : ρ)
  | connected (id : Nat)
  | disconnected (id : Nat)
  | delivering (subscribers changes : Nat)
  | failed (id : Nat) (reason : String)
  | panicked (id : Nat) (reason : String)
  | started (baseVersion : Nat)
  | committed (version changes : Nat)
  | stale (baseVersion currentVersion : Nat)
  | discarded (baseVersion pending : Nat)

structure LogLine where
  level : String
  message : String
  fields : List (String × Json)

namespace Event

variable {ν α ρ : Type}

def log? : Event ν α ρ → Option LogLine
  | received .. => none
  | connected id => some ⟨"TRACE", "connected change handler", [("subscription", .int id)]⟩
  | disconnected id => some ⟨"TRACE", "disconnected change handler", [("subscription", .int id)]⟩
  | delivering subscribers changes =>
    some ⟨"TRACE", "delivering changes", [("subscribers", .int subscribers), ("changes", .int changes)]⟩
  | failed id reason =>
    some ⟨"WARN", "change handler failed", [("subscription", .int id), ("error", .text reason)]⟩
  | panicked id reason =>
    some ⟨"WARN", "change handler panicked", [("subscription", .int id), ("panic", .text reason)]⟩
  | started version => some ⟨"TRACE", "starting transaction", [("base_version", .int version)]⟩
  | committed version changes =>
    some ⟨"DEBUG", "committed transaction", [("version", .int version), ("changes", .int changes)]⟩
  | stale base current =>
    some ⟨"WARN", "committing a stale transaction, later commits are replaced",
      [("base_version", .int base), ("current_version", .int current)]⟩
  | discarded base pending =>
    some ⟨"DEBUG", "discarding uncommitted transaction",
      [("base_version", .int base), ("pending", .int pending)]⟩

end Event

end VersionedMap
