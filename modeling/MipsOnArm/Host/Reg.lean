/-! The sixteen registers of the host, and the parts they play in lowered code. -/

namespace MipsOnArm.Host

/-- A host register, by number. -/
abbrev Reg := Fin 16

namespace Reg

theorem val_lt (r : Reg) : r.val < 16 := r.isLt

/-- Holds short-lived values such as link addresses; never holds a guest register. -/
def scratch : Reg := 0

/-- Holds the saved flags across a delay slot. It survives native calls. -/
def savedFlags : Reg := 8

/-- Holds the destination of a register jump across its delay slot. It is the register of the saved
    flags: a register jump saves no flags, and a delay slot holds no second jump. -/
def jumpDest : Reg := 8

/-- Points at the guest state. -/
def base : Reg := 10

/-- The registers that may hold guest registers, in the order in which they are handed out. -/
def allocatable : List Reg := [4, 5, 6, 7, 9, 11, 2, 3, 12]

/-- The registers that a native call may change. -/
def callerSaved : List Reg := [0, 1, 2, 3, 12]

/-- Assembler name of the register. -/
def name (r : Reg) : String := "r" ++ toString r.val

end Reg

end MipsOnArm.Host
