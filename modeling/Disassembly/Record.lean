/-!
# Records

The unit of a listing: one instruction or one datum, with its address, its words, its written form
and what it does to the flow of control.
-/

namespace Disassembly

/-- The ways control can leave the straight line. -/
inductive FlowKind where
  | branch
  | call
  | ret
deriving DecidableEq, Repr

/-- A transfer of control. -/
structure Flow where
  kind : FlowKind
  /-- The direct target, when the instruction holds one. -/
  target : Option UInt32
  /-- Control never goes on to the next instruction. -/
  unconditional : Bool
  /-- The next instruction is executed before the transfer. -/
  delayed : Bool
deriving DecidableEq, Repr

namespace Flow

/-- The target of a branch or of a call. -/
def labelTarget? (flow : Flow) : Option UInt32 :=
  match flow.kind with
  | .branch | .call => flow.target
  | .ret => none

/-- The target of a branch. -/
def branchTarget? (flow : Flow) : Option UInt32 :=
  match flow.kind with
  | .branch => flow.target
  | _ => none

/-- The target of a call. -/
def callTarget? (flow : Flow) : Option UInt32 :=
  match flow.kind with
  | .call => flow.target
  | _ => none

end Flow

/-- One instruction or datum. -/
structure Record where
  address : UInt32
  words : List UInt16
  /-- The length in bytes. -/
  size : Nat
  /-- The written form, without the address. -/
  text : String
  isCode : Bool
  flow : Option Flow
deriving DecidableEq, Repr

namespace Record

/-- The address after the record, wrapping around at the end of the address space. -/
def stop (record : Record) : UInt32 :=
  record.address + UInt32.ofNat record.size

/-- Whether the record is a return. -/
def isReturn (record : Record) : Bool :=
  match record.flow with
  | some flow => flow.kind = .ret
  | none => false

/-- Whether the record is followed by a delay slot. -/
def isDelayed (record : Record) : Bool :=
  match record.flow with
  | some flow => flow.delayed
  | none => false

end Record

end Disassembly
