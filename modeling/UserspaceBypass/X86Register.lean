import Mathlib.Tactic

/-! Register identifiers of the translated program, under the names the disassembler prints. A
family is the storage an identifier lives in; the identifier adds the width it is accessed with. The
translator itself only ever looks at the printed name, so every name is spelled out here. -/

namespace UserspaceBypass

inductive Gpr where
  | rax | rcx | rdx | rbx | rsp | rbp | rsi | rdi
  | r8 | r9 | r10 | r11 | r12 | r13 | r14 | r15
  deriving DecidableEq, Repr

/-- Access widths of a general register: 64, 32, 16 and the low 8 bits. -/
inductive Width where
  | q | d | w | b
  deriving DecidableEq, Repr

inductive Seg where
  | es | cs | ss | ds | fs | gs
  deriving DecidableEq, Repr

/-- The two temporaries of the translator: `T1` for PUSH and POP, `T2` for jump targets. -/
inductive Tmp where
  | t1 | t2
  deriving DecidableEq, Repr

/-- The four registers that have a second byte of their own. -/
inductive HighByte where
  | ah | ch | dh | bh
  deriving DecidableEq, Repr

/-- An `ExprId`: what may stand for a register in an operand. `seg` is the 64-bit name `RFS`, `RGS`,
... that `arg_purify` makes of a segment override, `tmp` one of `RT1` and `RT2`. Lines with a selector
for an operand (`PUSH FS`, `MOV AX, GS`) are outside the model. -/
inductive ExprId where
  | gpr (g : Gpr) (width : Width)
  | high (h : HighByte)
  | rip
  | eip
  | seg (s : Seg)
  | tmp (t : Tmp)
  | xmm (k : Nat)
  deriving DecidableEq, Repr

/-- The storage behind an identifier. -/
inductive Family where
  | gpr (g : Gpr)
  | seg (s : Seg)
  | tmp (t : Tmp)
  deriving DecidableEq, Repr

def Width.bits : Width → Nat
  | .q => 64
  | .d => 32
  | .w => 16
  | .b => 8

def HighByte.gpr : HighByte → Gpr
  | .ah => .rax
  | .ch => .rcx
  | .dh => .rdx
  | .bh => .rbx

def gprName : Gpr → Width → String
  | .rax, .q => "RAX" | .rax, .d => "EAX" | .rax, .w => "AX" | .rax, .b => "AL"
  | .rcx, .q => "RCX" | .rcx, .d => "ECX" | .rcx, .w => "CX" | .rcx, .b => "CL"
  | .rdx, .q => "RDX" | .rdx, .d => "EDX" | .rdx, .w => "DX" | .rdx, .b => "DL"
  | .rbx, .q => "RBX" | .rbx, .d => "EBX" | .rbx, .w => "BX" | .rbx, .b => "BL"
  | .rsp, .q => "RSP" | .rsp, .d => "ESP" | .rsp, .w => "SP" | .rsp, .b => "SPL"
  | .rbp, .q => "RBP" | .rbp, .d => "EBP" | .rbp, .w => "BP" | .rbp, .b => "BPL"
  | .rsi, .q => "RSI" | .rsi, .d => "ESI" | .rsi, .w => "SI" | .rsi, .b => "SIL"
  | .rdi, .q => "RDI" | .rdi, .d => "EDI" | .rdi, .w => "DI" | .rdi, .b => "DIL"
  | .r8, .q => "R8" | .r8, .d => "R8D" | .r8, .w => "R8W" | .r8, .b => "R8B"
  | .r9, .q => "R9" | .r9, .d => "R9D" | .r9, .w => "R9W" | .r9, .b => "R9B"
  | .r10, .q => "R10" | .r10, .d => "R10D" | .r10, .w => "R10W" | .r10, .b => "R10B"
  | .r11, .q => "R11" | .r11, .d => "R11D" | .r11, .w => "R11W" | .r11, .b => "R11B"
  | .r12, .q => "R12" | .r12, .d => "R12D" | .r12, .w => "R12W" | .r12, .b => "R12B"
  | .r13, .q => "R13" | .r13, .d => "R13D" | .r13, .w => "R13W" | .r13, .b => "R13B"
  | .r14, .q => "R14" | .r14, .d => "R14D" | .r14, .w => "R14W" | .r14, .b => "R14B"
  | .r15, .q => "R15" | .r15, .d => "R15D" | .r15, .w => "R15W" | .r15, .b => "R15B"

def HighByte.name : HighByte → String
  | .ah => "AH"
  | .ch => "CH"
  | .dh => "DH"
  | .bh => "BH"

def Seg.name : Seg → String
  | .es => "ES"
  | .cs => "CS"
  | .ss => "SS"
  | .ds => "DS"
  | .fs => "FS"
  | .gs => "GS"

def Tmp.name : Tmp → String
  | .t1 => "T1"
  | .t2 => "T2"

namespace ExprId

/-- `str(reg)`. -/
def name : ExprId → String
  | .gpr g width => gprName g width
  | .high h => h.name
  | .rip => "RIP"
  | .eip => "EIP"
  | .seg s => "R" ++ s.name
  | .tmp t => "R" ++ t.name
  | .xmm k => "XMM" ++ toString k

/-- `reg.size`, in bits. -/
def size : ExprId → Nat
  | .gpr _ width => width.bits
  | .high _ => 8
  | .rip => 64
  | .eip => 32
  | .seg _ => 64
  | .tmp _ => 64
  | .xmm _ => 128

end ExprId

/-- The slice `key[i:j]` of a printed name. -/
def slice (key : String) (i j : Nat) : List Char := (key.toList.take j).drop i

end UserspaceBypass
