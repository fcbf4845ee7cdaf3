/-! The machine word shared by the guest and the host: 32 bits, arithmetic modulo 2^32. A guest
    instruction takes one word, so addresses of consecutive instructions are four apart. -/

namespace MipsOnArm

/-- A 32-bit value or address. -/
abbrev Word := BitVec 32

/-- The number of an exit of a lowered block; one byte. -/
abbrev ExitSlot := BitVec 8

/-- Bytes taken by one guest instruction. -/
def instrBytes : Word := 4

/-- Distance from a branch to the first instruction after its delay slot. -/
def delaySlotSkip : Word := 2 * instrBytes

end MipsOnArm
