import Disassembly.InstructionSet.Descriptor

/-!
# The instruction set

Every instruction of the FR family, as a list of descriptors. A first word belongs to the first
descriptor that claims it; words that none claims are shown as plain numbers.
-/

namespace Disassembly.InstructionSet

/-- The first byte is the operation: `op8 j4 i4` and `op8 u8`. -/
def opcode8 : UInt16 := 0xFF00

/-- The first four bits are the operation: `op4 u8 i4`. -/
def opcode4 : UInt16 := 0xF000

/-- The first five bits are the operation: `op5 s11`. -/
def opcode5 : UInt16 := 0xF800

/-- The first twelve bits are the operation: `op12 i4`. -/
def opcode12 : UInt16 := 0xFFF0

/-- The whole word is the operation. -/
def opcode16 : UInt16 := 0xFFFF

/-- A one-word instruction after which control goes on. -/
def plain (encoding mask : UInt16) (mnemonic : String) (shape : Shape) : Descriptor :=
  { encoding, mask, mnemonic, shape }

/-- Loads, stores, and stack frames. -/
def loadsAndStores : List Descriptor :=
  [plain 0x0000 opcode8 "LD" .loadIndexed,
    plain 0x0100 opcode8 "LDUH" .loadIndexed,
    plain 0x0200 opcode8 "LDUB" .loadIndexed,
    plain 0x0300 opcode8 "LD" .loadStack,
    plain 0x0400 opcode8 "LD" .load,
    plain 0x0500 opcode8 "LDUH" .load,
    plain 0x0600 opcode8 "LDUB" .load,
    plain 0x0700 opcode12 "LD" .pop,
    plain 0x0710 opcode12 "MOV" .toStatus,
    plain 0x0780 opcode12 "LD" .popSpecial,
    plain 0x0790 opcode16 "LD" .popStatus,
    plain 0x0800 opcode8 "DMOV" (.loadDirect 4),
    plain 0x0900 opcode8 "DMOVH" (.loadDirect 2),
    plain 0x0A00 opcode8 "DMOVB" (.loadDirect 1),
    plain 0x0F00 opcode8 "ENTER" .frameSize,
    plain 0x1000 opcode8 "ST" .storeIndexed,
    plain 0x1100 opcode8 "STH" .storeIndexed,
    plain 0x1200 opcode8 "STB" .storeIndexed,
    plain 0x1300 opcode8 "ST" .storeStack,
    plain 0x1400 opcode8 "ST" .store,
    plain 0x1500 opcode8 "STH" .store,
    plain 0x1600 opcode8 "STB" .store,
    plain 0x1700 opcode12 "ST" .push,
    plain 0x1710 opcode12 "MOV" .fromStatus,
    plain 0x1780 opcode12 "ST" .pushSpecial,
    plain 0x1790 opcode16 "ST" .pushStatus,
    plain 0x1800 opcode8 "DMOV" (.storeDirect 4),
    plain 0x1900 opcode8 "DMOVH" (.storeDirect 2),
    plain 0x1A00 opcode8 "DMOVB" (.storeDirect 1),
    plain 0x1F00 opcode8 "INT" .byte,
    plain 0x2000 opcode4 "LD" (.loadFrame 4),
    plain 0x3000 opcode4 "ST" (.storeFrame 4),
    plain 0x4000 opcode4 "LDUH" (.loadFrame 2),
    plain 0x5000 opcode4 "STH" (.storeFrame 2),
    plain 0x6000 opcode4 "LDUB" (.loadFrame 1),
    plain 0x7000 opcode4 "STB" (.storeFrame 1)]

/-- Logic, bit operations, and register lists. -/
def logic : List Descriptor :=
  [plain 0x8000 opcode8 "BANDL" .nibbleAt,
    plain 0x8100 opcode8 "BANDH" .nibbleAt,
    plain 0x8200 opcode8 "AND" .registers,
    plain 0x8300 opcode8 "ANDCCR" .conditionCodes,
    plain 0x8400 opcode8 "AND" .modify,
    plain 0x8500 opcode8 "ANDH" .modify,
    plain 0x8600 opcode8 "ANDB" .modify,
    plain 0x8700 opcode8 "STILM" .byte,
    plain 0x8800 opcode8 "BTSTL" .nibbleAt,
    plain 0x8900 opcode8 "BTSTH" .nibbleAt,
    plain 0x8A00 opcode8 "XCHB" .load,
    plain 0x8B00 opcode8 "MOV" .registers,
    plain 0x8C00 opcode8 "LDM0" (.registerList false false),
    plain 0x8D00 opcode8 "LDM1" (.registerList true false),
    plain 0x8E00 opcode8 "STM0" (.registerList false true),
    plain 0x8F00 opcode8 "STM1" (.registerList true true),
    plain 0x9000 opcode8 "BORL" .nibbleAt,
    plain 0x9100 opcode8 "BORH" .nibbleAt,
    plain 0x9200 opcode8 "OR" .registers,
    plain 0x9300 opcode8 "ORCCR" .conditionCodes,
    plain 0x9400 opcode8 "OR" .modify,
    plain 0x9500 opcode8 "ORH" .modify,
    plain 0x9600 opcode8 "ORB" .modify]

/-- Indirect transfers of control, division steps and extensions. -/
def transfers : List Descriptor :=
  [{ plain 0x9700 opcode12 "JMP" .atRegister with control := .jump },
    { plain 0x9710 opcode12 "CALL" .atRegister with control := .call },
    { plain 0x9720 opcode16 "RET" .implied with control := .ret },
    { plain 0x9730 opcode16 "RETI" .implied with control := .ret },
    plain 0x9740 opcode12 "DIV0S" .register,
    plain 0x9750 opcode12 "DIV0U" .register,
    plain 0x9760 opcode12 "DIV1" .register,
    plain 0x9770 opcode12 "DIV2" .register,
    plain 0x9780 opcode12 "EXTSB" .register,
    plain 0x9790 opcode12 "EXTUB" .register,
    plain 0x97A0 opcode12 "EXTSH" .register,
    plain 0x97B0 opcode12 "EXTUH" .register]

/-- Exclusive or, and the 20-bit immediate. -/
def exclusiveOr : List Descriptor :=
  [plain 0x9800 opcode8 "BEORL" .nibbleAt,
    plain 0x9900 opcode8 "BEORH" .nibbleAt,
    plain 0x9A00 opcode8 "EOR" .registers,
    { plain 0x9B00 opcode8 "LDI:20" .immediate20 with extensions := 1 },
    plain 0x9C00 opcode8 "EOR" .modify,
    plain 0x9D00 opcode8 "EORH" .modify,
    plain 0x9E00 opcode8 "EORB" .modify]

/-- Delayed transfers of control, and the 32-bit immediate. -/
def delayedTransfers : List Descriptor :=
  [{ plain 0x9F00 opcode12 "JMP:D" .atRegister with control := .jump, delayed := true },
    { plain 0x9F10 opcode12 "CALL:D" .atRegister with control := .call, delayed := true },
    { plain 0x9F20 opcode16 "RET:D" .implied with control := .ret, delayed := true },
    plain 0x9F30 opcode16 "INTE" .implied,
    plain 0x9F60 opcode16 "DIV3" .implied,
    plain 0x9F70 opcode16 "DIV4S" .implied,
    { plain 0x9F80 opcode12 "LDI:32" .immediate32 with extensions := 2 },
    plain 0x9F90 opcode16 "LEAVE" .implied,
    plain 0x9FA0 opcode16 "NOP" .implied]

/-- Addition, subtraction, comparison and multiplication. -/
def arithmetic : List Descriptor :=
  [plain 0xA000 opcode8 "ADDN" .nibble,
    plain 0xA100 opcode8 "ADDN2" .negativeNibble,
    plain 0xA200 opcode8 "ADDN" .registers,
    plain 0xA300 opcode8 "ADDSP" .stackAdjust,
    plain 0xA400 opcode8 "ADD" .nibble,
    plain 0xA500 opcode8 "ADD2" .negativeNibble,
    plain 0xA600 opcode8 "ADD" .registers,
    plain 0xA700 opcode8 "ADDC" .registers,
    plain 0xA800 opcode8 "CMP" .nibble,
    plain 0xA900 opcode8 "CMP2" .negativeNibble,
    plain 0xAA00 opcode8 "CMP" .registers,
    plain 0xAB00 opcode8 "MULU" .registers,
    plain 0xAC00 opcode8 "SUB" .registers,
    plain 0xAD00 opcode8 "SUBC" .registers,
    plain 0xAE00 opcode8 "SUBN" .registers,
    plain 0xAF00 opcode8 "MUL" .registers]

/-- Shifts, dedicated registers and short immediates. -/
def shifts : List Descriptor :=
  [plain 0xB000 opcode8 "LSR" .nibble,
    plain 0xB100 opcode8 "LSR2" .longShift,
    plain 0xB200 opcode8 "LSR" .registers,
    plain 0xB300 opcode8 "MOV" .toSpecial,
    plain 0xB400 opcode8 "LSL" .nibble,
    plain 0xB500 opcode8 "LSL2" .longShift,
    plain 0xB600 opcode8 "LSL" .registers,
    plain 0xB700 opcode8 "MOV" .fromSpecial,
    plain 0xB800 opcode8 "ASR" .nibble,
    plain 0xB900 opcode8 "ASR2" .longShift,
    plain 0xBA00 opcode8 "ASR" .registers,
    plain 0xBB00 opcode8 "MULUH" .registers,
    plain 0xBF00 opcode8 "MULH" .registers,
    plain 0xC000 opcode4 "LDI:8" .immediate8]

/-- Calls with a direct target. -/
def calls : List Descriptor :=
  [{ plain 0xD000 opcode5 "CALL" .farTarget with control := .call },
    { plain 0xD800 opcode5 "CALL:D" .farTarget with control := .call, delayed := true }]

/-- The conditions of the branches, in the order of their codes; the first one always holds. -/
def conditions : List String :=
  ["BRA", "BNO", "BEQ", "BNE", "BC", "BNC", "BN", "BP", "BV", "BNV", "BLT", "BGE", "BLE", "BGT",
    "BLS", "BHI"]

/-- The branches of one kind: the condition code is the second nibble of the operation. -/
def branches (base : UInt16) (suffix : String) (delayed : Bool) : List Descriptor :=
  conditions.zipIdx.map fun c =>
    { plain (base ||| UInt16.ofNat (c.2 * 0x100)) opcode8 (c.1 ++ suffix) .nearTarget with
      control := if c.2 = 0 then .jump else .branch
      delayed := delayed }

/-- All descriptors, in the order in which they are tried. -/
def descriptors : List Descriptor :=
  loadsAndStores ++ logic ++ transfers ++ exclusiveOr ++ delayedTransfers ++ arithmetic ++ shifts
    ++ calls ++ branches 0xE000 "" false ++ branches 0xF000 ":D" true

/-- The descriptor of a first word: the first one that claims it. -/
def find? (word : UInt16) : Option Descriptor :=
  descriptors.find? (·.claims word)

/-- The instruction set has 151 descriptors. -/
theorem length_descriptors : descriptors.length = 151 := by decide +kernel

end Disassembly.InstructionSet
