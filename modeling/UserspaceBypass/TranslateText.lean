import UserspaceBypass.LibStraightLine
import UserspaceBypass.X86Operand

/-! The text the translator emits and what executing it means. Emitted code runs inside the frame of
`wrapper.S`: the physical registers R12 to R15 hold whatever virtual registers `reg_map` puts there,
every other virtual register lives in its slot `Stack_R..` below the wrapper's RBP. User memory and
the frame are separate components of the machine, as they are disjoint in the kernel. -/

namespace UserspaceBypass

open StraightLine

/-- The virtual registers of `special_regs`. -/
inductive Virt where
  | ip | sp | bp | r15 | r14 | r13 | r12 | fs | gs | t1 | t2
  deriving DecidableEq, Repr

/-- The keys of `reg_map`, in the order of the dictionary. -/
inductive Phys where
  | p15 | p14 | p13 | p12
  deriving DecidableEq, Repr

namespace Virt

def key : Virt → String
  | .ip => "IP"
  | .sp => "SP"
  | .bp => "BP"
  | .r15 => "15"
  | .r14 => "14"
  | .r13 => "13"
  | .r12 => "12"
  | .fs => "FS"
  | .gs => "GS"
  | .t1 => "T1"
  | .t2 => "T2"

/-- The frame index `k` of `Stack_R<v>`, that is of `[RBP - 8*k]`; T1 and T2 have no slot. -/
def slot : Virt → Option Nat
  | .bp => some 8
  | .sp => some 9
  | .r15 => some 10
  | .r14 => some 11
  | .r13 => some 12
  | .r12 => some 13
  | .gs => some 14
  | .fs => some 15
  | .ip => some 16
  | .t1 | .t2 => none

end Virt

def Tmp.virt : Tmp → Virt
  | .t1 => .t1
  | .t2 => .t2

def specialRegs : List Virt := [.ip, .sp, .bp, .r15, .r14, .r13, .r12, .fs, .gs, .t1, .t2]

/-- `key in special_regs`, together with the entry found. -/
def specialReg (key : List Char) : Option Virt := specialRegs.find? fun v => v.key.toList = key

namespace Phys

def all : List Phys := [.p15, .p14, .p13, .p12]

def gpr : Phys → Gpr
  | .p15 => .r15
  | .p14 => .r14
  | .p13 => .r13
  | .p12 => .r12

/-- The virtual register that is spelled like the key. -/
def homonym : Phys → Virt
  | .p15 => .r15
  | .p14 => .r14
  | .p13 => .r13
  | .p12 => .r12

/-- `'R' + p` with the suffix of a width. -/
def reg (p : Phys) (width : Width) : ExprId := .gpr p.gpr width

end Phys

inductive Label where
  | loc (address : Nat)
  | ij (address : Nat)
  | compSyscall
  | ijFailed
  | segError
  | segError2
  | exit
  | illInst
  deriving DecidableEq, Repr

/-- An emitted line, one constructor for each shape of `make_inst` call. -/
inductive Asm where
  /-- `MOV Stack_R<v>, R<p>`; `none` is the empty name, which makes the symbol `Stack_R`. -/
  | store (v : Option Virt) (p : Phys)
  /-- `MOV R<p>, Stack_R<v>` -/
  | load (p : Phys) (v : Virt)
  /-- `MOVABS R<p>, n` -/
  | movabs (p : Phys) (n : Nat)
  | inst (name : String) (args : List Arg)
  /-- `SHL r, 1` -/
  | shl (r : ExprId)
  /-- `SHR r, 1` -/
  | shr (r : ExprId)
  | nop
  /-- `MOV R14, src` with the source register given by name. -/
  | moveTarget (src : String)
  | jump (name : String) (target : Label)
  /-- `MOV Stack_IJ, n` -/
  | setIj (n : Nat)
  /-- `MOV Stack_IJ, R<p>` -/
  | saveIj (p : Phys)
  deriving DecidableEq, Repr

/-- The lines that only move or mask registers. -/
def Asm.isMove : Asm → Bool
  | .store _ _ | .load _ _ | .movabs _ _ | .shl _ | .shr _ => true
  | _ => false

def Asm.isJump : Asm → Bool
  | .jump _ _ => true
  | _ => false

theorem isJump_of_isMove {a : Asm} (h : a.isMove = true) : a.isJump = false := by
  cases a <;> first | rfl | cases h

/-- The machine while emitted code runs; `frame k` is `QWORD PTR [RBP - 8*k]`. -/
structure Machine where
  regs : Regs
  env : Env
  frame : Nat → BitVec 64

namespace Machine

def state (c : Machine) : State := ⟨c.regs, c.env⟩

def setReg (c : Machine) (p : Phys) (value : BitVec 64) : Machine :=
  { c with regs := Function.update c.regs (.gpr p.gpr) value }

def setSlot (c : Machine) (k : Nat) (value : BitVec 64) : Machine :=
  { c with frame := Function.update c.frame k value }

/-- A shift of a register by one bit, with its effect on the flags. -/
def shift (isa : Isa) (op : String) (f : BitVec 64 → BitVec 64) (r : ExprId) (c : Machine) :
    Machine :=
  let value := readReg 0 c.regs r
  { c with
    regs := writeReg c.regs r (f value)
    env := { c.env with flags := isa.shiftFlags op value c.env.flags } }

end Machine

/-- The 64-bit register with the given name. -/
def gprOfName (name : String) : Option Gpr :=
  [Gpr.rax, .rcx, .rdx, .rbx, .rsp, .rbp, .rsi, .rdi, .r8, .r9, .r10, .r11, .r12, .r13, .r14,
    .r15].find? fun g => gprName g .q = name

/-- The frame index of `Stack_IJ`. -/
def ijSlot : Nat := 17

/-- One emitted line. A symbol that `asm_head.h` does not define, or a name that is no register,
makes the step undefined. A conditional jump goes on to the next line here, that is where it is not
taken; after an unconditional one there is no next line. -/
def Asm.exec (isa : Isa) : Asm → Machine → Option Machine
  | .store v p, c => (v.bind Virt.slot).map fun k => c.setSlot k (c.regs (.gpr p.gpr))
  | .load p v, c => v.slot.map fun k => c.setReg p (c.frame k)
  | .movabs p n, c => some (c.setReg p (BitVec.ofNat 64 n))
  | .inst name args, c =>
      (execInst isa 0 name args c.state).map fun s => { c with regs := s.regs, env := s.env }
  | .shl r, c => some (c.shift isa "SHL" (· <<< 1) r)
  | .shr r, c => some (c.shift isa "SHR" (· >>> 1) r)
  | .nop, c => some c
  | .moveTarget src, c => (gprOfName src).map fun g => c.setReg .p14 (c.regs (.gpr g))
  | .jump name _, c => if name = "JMP" ∨ name = "JMPF" then none else some c
  | .setIj n, c => some (c.setSlot ijSlot (BitVec.ofNat 64 n))
  | .saveIj p, c => some (c.setSlot ijSlot (c.regs (.gpr p.gpr)))

def execText (isa : Isa) (text : List Asm) (c : Machine) : Option Machine :=
  runAll (Asm.exec isa) text c

end UserspaceBypass
