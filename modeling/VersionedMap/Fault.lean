import VersionedMap.Codec

namespace VersionedMap

inductive Edit where
  | set
  | remove
  | revert
  | commit
deriving DecidableEq, Repr

def Edit.name : Edit → String
  | set => "set"
  | remove => "remove"
  | revert => "revert"
  | commit => "commit"

inductive Fault where
  | keyNotFound
  | committed (edit : Edit)
  | keyPresent
  | nullInput
  | disordered (index : Nat)
  | undecodable (cause : DecodeFault)

def Fault.message : Fault → String
  | keyNotFound => "key not found"
  | committed edit => s!"invalid operation: {edit.name} on a committed transaction"
  | keyPresent => "invalid operation: diff adds a key that is already present"
  | nullInput => "required argument `value` is null"
  | disordered index => DecodeFault.disorderText index
  | undecodable cause => "json error: " ++ cause.message

end VersionedMap
