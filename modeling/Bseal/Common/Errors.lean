import Bseal.Lib.ByteCodec

/-! The exception classes of `common/Errors.hpp` and the byte types of
`common/Types.hpp`. An exception is a value here; the message travels with it. -/
namespace Bseal

abbrev Byte := UInt8
abbrev Bytes := List UInt8
abbrev Bytes32 := List.Vector UInt8 32

inductive Failure where
  | error (message : String)
  | invalidArgument (message : String)
  | authenticationFailed
  | keyfileAccessError (description : String) (path : Bytes)
  | filesystemError (message : String)
  deriving DecidableEq, Repr

abbrev Result (α : Type) := Except Failure α

/-- The bytes of a C string literal; every literal of the source is ASCII. -/
def ascii (s : String) : Bytes := s.toList.map fun c => UInt8.ofNat c.toNat

def text (bytes : Bytes) : String := String.ofList (bytes.map fun b => Char.ofNat b.toNat)

def allZero (bytes : Bytes) : Bool := bytes.all (· == 0)

theorem Result.ok_bind {α β : Type} (a : α) (f : α → Result β) :
    ((.ok a : Result α) >>= f) = f a := rfl

theorem Result.bind_eq_ok {α β : Type} (x : Result α) (f : α → Result β) (b : β) :
    (x >>= f) = .ok b ↔ ∃ a, x = .ok a ∧ f a = .ok b := by
  cases x with
  | error e => simp [bind, Except.bind]
  | ok a => simp [bind, Except.bind]

theorem Result.guard_eq_ok {α : Type} (c : Prop) [Decidable c] (e : Failure) (x : Result α)
    (a : α) : (if c then .error e else x) = .ok a ↔ ¬c ∧ x = .ok a := by
  split <;> simp_all

end Bseal
