import Disassembly.Decoder.Code
import Disassembly.Decoder.Data

/-!
# Traces

The course of decoding over a region. The decoder goes over it in passes: a pass is one instruction,
or one datum of each kind of the content, and the next pass starts where the last one ended. The
walk ends at the end of the region or where decoding fails.
-/

namespace Disassembly

/-- What was decoded in one go. -/
structure Pass where
  start : UInt32
  records : List Record
deriving DecidableEq, Repr

/-- The length of a pass in bytes. -/
def Pass.size (pass : Pass) : Nat :=
  pass.records.foldr (fun record n => record.size + n) 0

/-- Where and why decoding stopped short. -/
structure Trace.Failure where
  address : UInt32
  error : DecodeError
deriving DecidableEq, Repr

/-- What was decoded over a region, and why no more was. -/
structure Trace where
  passes : List Pass
  failure : Option Trace.Failure
deriving DecidableEq, Repr

/-- The records of all passes in order. -/
def Trace.records (trace : Trace) : List Record :=
  trace.passes.flatMap Pass.records

/-- The pass at `pc` over a region with the given content; vectors are numbered from `origin`. -/
def Decoder.pass (decoder : Decoder) (memory : Memory) (content : Content) (origin pc : UInt32) :
    Except DecodeError Pass :=
  match content with
  | .code => do
    let record ← decoder.code memory pc
    return { start := pc, records := [record] }
  | .data _ => do
    let records ← decoder.data memory origin content.kinds pc
    return { start := pc, records }

/-- Passes from `pc` on, after those already `done`, as long as they start below `stop`. Each pass
starts where the last one ended; the walk also ends where that would not be a later address. -/
def Trace.walk (next : UInt32 → Except DecodeError Pass) (stop : UInt32) (done : Array Pass)
    (pc : UInt32) : Trace :=
  if pc < stop then
    match next pc with
    | .error error => { passes := done.toList, failure := some { address := pc, error } }
    | .ok pass =>
      let after := pc.toNat + pass.size % 0x100000000
      if _h : pc.toNat < after ∧ after < 0x100000000 then
        walk next stop (done.push pass) (UInt32.ofNat after)
      else { passes := (done.push pass).toList, failure := none }
  else { passes := done.toList, failure := none }
termination_by 0x100000000 - pc.toNat
decreasing_by
  rw [UInt32.toNat_ofNat_of_lt' _h.2]
  omega

end Disassembly
