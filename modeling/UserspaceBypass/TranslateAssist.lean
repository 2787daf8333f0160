import UserspaceBypass.TranslateConflict

/-! `assist.py`: mnemonic lists, prefixed instruction names, the backward scan for flags, and the
constants and dictionaries the translator makes itself. Constants are nodes of the disassembler's
expression graph and two constants of one value and width are one node, so that the number a node
prints as is kept in a heap. -/

namespace UserspaceBypass

def conditionalBranch : List String :=
  ["JO", "JNO", "JB", "JAE", "JZ", "JNZ", "JBE", "JA", "JS", "JNS", "JPE", "JNP",
    "JL", "JGE", "JLE", "JG", "JCXZ", "JECXZ", "JRCXZ"]

def unconditionalBranch : List String := ["JMP", "JMPF"]

def opsDefFlags : List String :=
  ["CMP", "TEST", "ADD", "SUB", "NEG", "INC", "MUL", "DIV", "AND", "OR", "XOR", "NOT", "SHL", "SAL",
    "SHR", "SAR", "ROL", "ROR", "RCL", "RCR", "CLC", "CLD", "STC", "STD"]

def opsUseFlags : List String := conditionalBranch ++ ["LAHF", "SET", "CMOV"]

/-- The operand sizes of `sz2pfx`. -/
def sz2pfx : List Nat := [128, 64, 32, 16, 8]

/-- `name.find(i) != -1` for some `i` of the list. -/
def checkInList (name : String) (l : List String) : Bool := l.any fun i => i.toList <:+: name.toList

/-- An address expression. -/
inductive Addr where
  | id (r : ExprId)
  | int (n : ExprInt)
  | add (args : List Addr)
  | times (left right : Addr)
  | op
  deriving Repr

/-- An argument as `process_normal` receives it: an expression of the disassembler, or a dictionary
made by the translator. A constant is named by the value and width it was decoded with. -/
inductive Expr where
  | id (r : ExprId)
  | int (n : ExprInt)
  | loc (address : Nat)
  | mem (size : Nat) (segm : Option Seg) (ptr : Addr)
  | op (size : Nat)
  | dict (d : MemDict)
  deriving Repr

/-- `arg.size`; a dictionary has none. -/
def Expr.size : Expr → Option Nat
  | .id r => some r.size
  | .int n => some n.size
  | .loc _ => some 64
  | .mem size _ _ => some size
  | .op size => some size
  | .dict _ => none

def Expr.isMem : Expr → Bool
  | .mem _ _ _ => true
  | _ => false

/-- A decoded line: mnemonic, prefix group, the mandatory prefix of its encoding, arguments, length
and bytes. -/
structure Line where
  name : String
  g1 : Nat := 0
  prefixed : Option Nat := none
  args : List Expr
  l : Nat
  b : List Nat := []
  deriving Repr

def getInstName (line : Line) : String :=
  let o := line.name
  let o := if line.g1 &&& 1 ≠ 0 then "LOCK " ++ o else o
  let o := if line.g1 &&& 2 ≠ 0 ∧ line.prefixed ≠ some 0xF2 then "REPNE " ++ o else o
  if line.g1 &&& 8 ≠ 0 then
    if line.prefixed ≠ some 0xF3 then "REP " ++ o else o
  else if line.g1 &&& 4 ≠ 0 then
    if line.prefixed ≠ some 0xF3 then "REPE " ++ o else o
  else o

/-- The loop of `check_flag_def_use`; it appends, so the answer for the first line comes last. -/
def checkFlagLoop : List Line → Bool → List Bool → List Bool
  | [], _, ret => ret
  | line :: lines, canCheck, ret =>
      let name := getInstName line
      let canCheck :=
        if checkInList name opsDefFlags then true
        else if checkInList name opsUseFlags then false
        else canCheck
      checkFlagLoop lines canCheck (ret ++ [canCheck])

def checkFlagDefUse (lines : List Line) : List Bool := checkFlagLoop lines.reverse false []

/-- The number each constant node prints as. -/
abbrev Heap := ExprInt → Nat

/-- The heap after disassembly. -/
def Heap.fresh : Heap := fun n => n.arg

/-- `make_mem_dict` with one register; a zero displacement is left out. -/
def makeMemDict (size : Nat) (r : ExprId) (im : Int) : MemDict :=
  { sz := size, regs := [r], im := if im = 0 then none else some ⟨(im % 2 ^ 64).toNat, 64⟩,
    mul := none }

def im64Abs : Expr → String
  | .int n => if n.size = 64 then "ABS" else ""
  | _ => ""

end UserspaceBypass
