import UserspaceBypass.X86Register
import Mathlib.Data.BitVec

/-! Operands and the meaning of an ordinary instruction. Operands are the purified arguments of
`normal.py`: a register, an integer constant, or the dictionary of a memory operand. The
instruction set is a parameter: an instruction receives the values of its operands together with
flags, user memory and vector registers, and answers with a value for each operand it writes. It
never learns which register an operand names. Besides its operands it may use registers it does not
name, as MUL uses RAX and RDX, but none of RSP, RBP and R12 to R15. So the instructions that use the
stack without naming it are outside the instruction set. The translator makes PUSH, POP, CALL, RET
and LEAVE out of others; PUSHFQ, POPFQ, ENTER and their like it emits as they are, and there they
work on the stack of the wrapper. -/

namespace UserspaceBypass

inductive Flag where
  | cf | pf | af | zf | sf | of
  deriving DecidableEq, Repr

/-- An `ExprInt`: the number stored in its `_arg`, and its width in bits. -/
structure ExprInt where
  arg : Nat
  size : Nat
  deriving DecidableEq, Repr

/-- The dictionary `{'sz', 'regs', 'im', 'mul'}` of a memory operand. -/
structure MemDict where
  sz : Nat
  regs : List ExprId
  im : Option ExprInt
  mul : Option (ExprInt × ExprId)
  deriving DecidableEq, Repr

/-- A purified argument. `empty` and `none` are the `''` and the `None` that `arg_purify` returns
for an operand it does not resolve. -/
inductive Arg where
  | mem (m : MemDict)
  | reg (r : ExprId)
  | int (n : ExprInt)
  | empty
  | none
  deriving DecidableEq, Repr

namespace Width

def mask : Width → BitVec 64
  | .q => 0xFFFFFFFFFFFFFFFF#64
  | .d => 0xFFFFFFFF#64
  | .w => 0xFFFF#64
  | .b => 0xFF#64

def get (width : Width) (value : BitVec 64) : BitVec 64 := value &&& width.mask

/-- A 32-bit write clears the upper half; a 16-bit or 8-bit write keeps the rest. -/
def put (width : Width) (old value : BitVec 64) : BitVec 64 :=
  match width with
  | .q => value
  | .d => value &&& mask .d
  | .w => (old &&& ~~~ mask .w) ||| (value &&& mask .w)
  | .b => (old &&& ~~~ mask .b) ||| (value &&& mask .b)

end Width

/-- Contents of the register families. -/
abbrev Regs := Family → BitVec 64

def readReg (ip : BitVec 64) (regs : Regs) : ExprId → BitVec 64
  | .gpr g width => width.get (regs (.gpr g))
  | .high h => (regs (.gpr h.gpr) >>> 8) &&& 0xFF#64
  | .rip => ip
  | .eip => Width.d.get ip
  | .seg s => regs (.seg s)
  | .tmp t => regs (.tmp t)
  | .xmm _ => 0

def writeReg (regs : Regs) (r : ExprId) (value : BitVec 64) : Regs :=
  match r with
  | .gpr g width => Function.update regs (.gpr g) (width.put (regs (.gpr g)) value)
  | .high h => Function.update regs (.gpr h.gpr)
      ((regs (.gpr h.gpr) &&& ~~~ 0xFF00#64) ||| ((value &&& 0xFF#64) <<< 8))
  | .seg s => Function.update regs (.seg s) value
  | .tmp t => Function.update regs (.tmp t) value
  | .rip | .eip | .xmm _ => regs

/-- Flags, user memory and vector registers. -/
structure Env where
  flags : Flag → Bool
  mem : BitVec 64 → BitVec 8
  vec : Nat → BitVec 128

/-- What an instruction sees of an operand. -/
inductive Operand where
  | reg (size : Nat) (value : BitVec 64)
  | vec (k : Nat)
  | int (n : ExprInt)
  | mem (size : Nat) (address : BitVec 64)
  | unresolved
  deriving DecidableEq

/-- The registers an instruction may use without naming them, if it is none of `stackUsers`. -/
def Gpr.hidden : Gpr → Bool
  | .rsp | .rbp | .r12 | .r13 | .r14 | .r15 => false
  | _ => true

/-- The instructions that use RSP or RBP without naming it. -/
def stackUsers : List String :=
  ["PUSH", "PUSHW", "PUSHA", "PUSHAD", "PUSHF", "PUSHFW", "PUSHFD", "PUSHFQ", "POP", "POPW", "POPA",
    "POPAD", "POPF", "POPFW", "POPFD", "POPFQ", "CALL", "RET", "RETF", "ENTER", "LEAVE", "INT", "INT1",
    "INT3", "INTO", "ICEBP", "IRET", "IRETD", "IRETQ", "SYSENTER", "SYSEXIT"]

/-- The name is that of one of them, by itself or behind prefixes. -/
def UsesStack (name : String) : Prop :=
  ∃ mnemonic ∈ stackUsers, name = mnemonic ∨ (' ' :: mnemonic.toList) <:+ name.toList

instance (name : String) : Decidable (UsesStack name) :=
  inferInstanceAs (Decidable (∃ _ ∈ _, _))

/-- One value for each operand position (`none` where the operand is not written), and one for each
register that is written without being named. -/
structure Effect where
  writes : List (Option (BitVec 64))
  hidden : Gpr → Option (BitVec 64)
  env : Env

/-- The instruction set, as far as ordinary instructions go. `shiftFlags` gives the flags after
the one-bit shifts of an address mask. -/
structure Isa where
  exec : String → List Operand → (Gpr → BitVec 64) → Env → Option Effect
  shiftFlags : String → BitVec 64 → (Flag → Bool) → (Flag → Bool)

/-- What an instruction may write: operand positions, and registers it does not name. -/
structure RegUse where
  operand : String → Nat → Bool
  hidden : String → Gpr → Bool

structure Isa.Respects (isa : Isa) (use : RegUse) : Prop where
  operand : ∀ name operands hidden env e, isa.exec name operands hidden env = some e →
    ∀ (k : Nat) value, e.writes[k]? = some (some value) → use.operand name k = true
  hidden : ∀ name operands hidden env e, isa.exec name operands hidden env = some e →
    ∀ g value, e.hidden g = some value → use.hidden name g = true

/-- The effective address: registers, displacement and scaled index, modulo `2^64`. A segment base
is one of the registers. -/
def MemDict.address (read : ExprId → BitVec 64) (m : MemDict) : BitVec 64 :=
  (m.regs.map read).sum + (m.im.elim 0 fun n => BitVec.ofNat 64 n.arg) +
    (m.mul.elim 0 fun t => BitVec.ofNat 64 t.1.arg * read t.2)

def Arg.eval (read : ExprId → BitVec 64) : Arg → Operand
  | .mem m => .mem m.sz (m.address read)
  | .reg (.xmm k) => .vec k
  | .reg r => .reg r.size (read r)
  | .int n => .int n
  | .empty | .none => .unresolved

def writeArgs : List Arg → List (Option (BitVec 64)) → Regs → Regs
  | .reg r :: args, some value :: writes, regs => writeArgs args writes (writeReg regs r value)
  | _ :: args, _ :: writes, regs => writeArgs args writes regs
  | _, _, regs => regs

def hiddenRegs (regs : Regs) (g : Gpr) : BitVec 64 := if g.hidden then regs (.gpr g) else 0

def writeHidden (writes : Gpr → Option (BitVec 64)) (regs : Regs) : Regs
  | .gpr g => if g.hidden then (writes g).getD (regs (.gpr g)) else regs (.gpr g)
  | f => regs f

theorem writeArgs_none {args : List Arg} {writes : List (Option (BitVec 64))}
    (h : ∀ w ∈ writes, w = none) (regs : Regs) : writeArgs args writes regs = regs := by
  induction args generalizing writes with
  | nil => rfl
  | cons arg args ih =>
      cases writes with
      | nil => cases arg <;> rfl
      | cons w writes =>
          obtain ⟨rfl, hrest⟩ := List.forall_mem_cons.mp h
          cases arg <;> exact ih hrest

theorem writeHidden_none {writes : Gpr → Option (BitVec 64)} (h : ∀ g, writes g = none)
    (regs : Regs) : writeHidden writes regs = regs := by
  funext f
  cases f <;> simp [writeHidden, h]

/-- A machine state as the original program sees it. -/
structure State where
  regs : Regs
  env : Env

/-- One ordinary instruction; `ip` is the address after it. -/
def execInst (isa : Isa) (ip : BitVec 64) (name : String) (args : List Arg) (s : State) :
    Option State :=
  let operands := args.map (Arg.eval (readReg ip s.regs))
  (isa.exec name operands (hiddenRegs s.regs) s.env).map fun e =>
    { regs := writeHidden e.hidden (writeArgs args e.writes s.regs), env := e.env }

end UserspaceBypass
