import Disassembly.Record

/-!
# Where functions end

A function runs from its entry along the straight line of records, as long as each record starts
where the last one ended. It ends after a return or an unconditional branch, unless an earlier
branch of the function leads further; a delayed transfer takes its delay slot with it. The entry of
the next function is a limit that it never passes.
-/

namespace Disassembly.Outline

/-- How far the branches of a function are known to lead, after one more record. -/
def reachAfter (limit reach : UInt32) (record : Record) : UInt32 :=
  match record.flow.bind Flow.branchTarget? with
  | some t => if record.address < t ∧ t < limit then max reach t else reach
  | none => reach

/-- The end of a function that has come up to `stop` and whose branches lead up to `reach`. The
records are the remaining ones in ascending order; after a `lastSlot` the function ends. -/
def endFrom (limit : UInt32) (stop reach : UInt32) (lastSlot : Bool) : List Record → UInt32
  | [] => stop
  | record :: records =>
    if limit ≤ record.address ∨ record.address ≠ stop then stop
    else if lastSlot then record.stop
    else
      let reach := reachAfter limit reach record
      match record.flow with
      | none => endFrom limit record.stop reach false records
      | some flow =>
        if flow.unconditional ∧ reach ≤ record.address then
          if flow.delayed then endFrom limit record.stop reach true records else record.stop
        else endFrom limit record.stop reach false records

/-- The end of the function at `entry`, given the records from there on in ascending order. -/
def functionEnd (records : List Record) (entry limit : UInt32) : UInt32 :=
  endFrom limit entry entry false records

end Disassembly.Outline
