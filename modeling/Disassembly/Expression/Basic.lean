/-!
# Rejected expressions

Option values are small expressions: numbers, ranges, contents and symbols. A `Rejection` names the
option, the part of its value that was not understood, and why.
-/

namespace Disassembly.Expression

/-- Why an expression is rejected. -/
inductive Reason where
  | malformedNumber
  | numberOutOfRange
  | notARange
  | pastAddressSpace
  | endsBeforeStart
  | unknownContent
  | unknownWidth
  | missingWidth
  | notAnAssignment
  | blankInName
  | unknownFlag
deriving DecidableEq, Repr

/-- The wording of a reason. -/
def Reason.message : Reason → String
  | malformedNumber => "malformed number"
  | numberOutOfRange => "number out of range"
  | notARange => "expected start-end or start,length"
  | pastAddressSpace => "range runs past the end of the address space"
  | endsBeforeStart => "range ends before it starts"
  | unknownContent => "unknown memory type"
  | unknownWidth => "unknown data width"
  | missingWidth => "missing data width"
  | notAnAssignment => "expected left=right"
  | blankInName => "symbol names cannot contain spaces"
  | unknownFlag => "unknown output option"

/-- A rejected expression. -/
structure Rejection where
  option : Char
  token : String
  reason : Reason
deriving DecidableEq, Repr

/-- The report of a rejection. -/
def Rejection.message (rejection : Rejection) : String :=
  "-" ++ rejection.option.toString ++ ": " ++ rejection.reason.message ++ ": \"" ++ rejection.token
    ++ "\""

/-- Rejects a part of an option's value. -/
def reject {α : Type} (option : Char) (token : List Char) (reason : Reason) :
    Except Rejection α :=
  .error { option, token := String.ofList token, reason }

end Disassembly.Expression
