import UserspaceBypass.LibChunk
import Mathlib.Data.Fin.Basic
import Mathlib.Logic.Function.Basic

/-! The kernel module: the table of `exe_info` slots (`exe.c`) and the two sysfs functions through
which the daemon reads and fills it (`sys.c`). A slot belongs to one call site of one process; its
place is the hash of the two. `vmalloc` clears nothing, so that only `status_code` has a value that
is known at the start. -/

namespace UserspaceBypass

open Chunk

inductive StatusCode where
  | unUsed | unInit | normal | callMiss | ijMiss | errorInst
  deriving DecidableEq, Repr

def maxExe : Nat := 511

def numPg : Nat := 160

/-- `struct exe_info`, with the memory that `code_block` points to. -/
structure ExeInfo where
  statusCode : StatusCode
  pid : BitVec 32
  rip : BitVec 64
  codeBlock : BitVec 64
  code : Nat → UInt8
  jumpFrom : BitVec 64
  tgtAddr : BitVec 64
  successCnt : BitVec 64
  failCnt : BitVec 64

/-- `exes` and the counter `added`. -/
structure Kernel where
  exes : Fin maxExe → ExeInfo
  added : Nat

def zzHash (pid : BitVec 32) (ip : BitVec 64) : BitVec 32 :=
  (ip.setWidth 32 ^^^ 1674567091) + (pid ^^^ 569809)

/-- The index `get_exe` looks at. -/
def getExe (pid : BitVec 32) (ip : BitVec 64) : Fin maxExe :=
  ⟨(zzHash pid ip).toNat % maxExe, Nat.mod_lt _ (by decide)⟩

def Kernel.update (k : Kernel) (i : Fin maxExe) (p : ExeInfo) : Kernel :=
  { k with exes := Function.update k.exes i p }

/-- The table that `exe_init` leaves where the memory was all zero. -/
def emptyKernel : Kernel := ⟨fun _ => ⟨.unUsed, 0, 0, 0, fun _ => 0, 0, 0, 0, 0⟩, 0⟩

/-- What `vmalloc` returns, and what is there. -/
structure Vmalloc where
  start : BitVec 64
  bytes : Nat → UInt8

/-- Cleared memory. -/
def zeroed : Vmalloc := ⟨0xffffc90000000000, fun _ => 0⟩

def exeAdd (pid : BitVec 32) (rip : BitVec 64) (mem : Vmalloc) (k : Kernel) : Kernel :=
  let i := getExe pid rip
  let p := k.exes i
  if p.statusCode ≠ .unUsed then k
  else if k.added > 62 then k
  else
    { k.update i { p with
        pid := pid, rip := rip, codeBlock := mem.start, code := mem.bytes, statusCode := .unInit } with
      added := k.added + 1 }

/-- `struct pt_regs`, without the selectors, which nothing here reads. -/
structure PtRegs where
  r15 : BitVec 64
  r14 : BitVec 64
  r13 : BitVec 64
  r12 : BitVec 64
  bp : BitVec 64
  bx : BitVec 64
  r11 : BitVec 64
  r10 : BitVec 64
  r9 : BitVec 64
  r8 : BitVec 64
  ax : BitVec 64
  cx : BitVec 64
  dx : BitVec 64
  si : BitVec 64
  di : BitVec 64
  origAx : BitVec 64
  ip : BitVec 64
  flags : BitVec 64
  sp : BitVec 64
  deriving DecidableEq, Repr, Inhabited

/-- `normal`, as translated code returns it in `args[0]`. -/
def argNormal : BitVec 64 := 0

/-- `call_miss` there. -/
def argCallMiss : BitVec 64 := 1

/-- The test at the head of the loop of `exe_on_call`. -/
def Enters (k : Kernel) (pid : BitVec 32) (ip : BitVec 64) : Prop :=
  let exe := k.exes (getExe pid ip)
  exe.statusCode = .normal ∧ exe.rip = ip ∧ exe.pid = pid

instance (k : Kernel) (pid : BitVec 32) (ip : BitVec 64) : Decidable (Enters k pid ip) :=
  inferInstanceAs (Decidable (_ ∧ _))

/-- A legal system call, as the loop tests it. -/
def legalCall (nr : BitVec 64) : Bool := nr ≤ 436

/-- What the loop writes to the slot once the code block has returned; `regs` and `args0` are what
the code left. -/
def ExeInfo.afterCall (exe : ExeInfo) (regs : PtRegs) (args0 : BitVec 64) : ExeInfo :=
  if args0 = argNormal then
    if legalCall regs.ax then { exe with successCnt := exe.successCnt + 1 } else exe
  else if exe.successCnt < exe.failCnt ∧ args0 = argCallMiss then
    { exe with tgtAddr := regs.ip, statusCode := .callMiss, failCnt := exe.failCnt + 1 }
  else if exe.successCnt < exe.failCnt then
    { exe with
      tgtAddr := regs.ip, jumpFrom := args0, statusCode := .ijMiss, failCnt := exe.failCnt + 1 }
  else { exe with failCnt := exe.failCnt + 1 }

/-- `sysfs_show`: copies of the slots in use. -/
def sysfsShow (k : Kernel) : List ExeInfo :=
  ((List.finRange maxExe).map k.exes).filter fun p => p.statusCode ≠ .unUsed

/-- `struct recv_pkt` -/
structure RecvPkt where
  statusCode : StatusCode
  pid : BitVec 32
  rip : BitVec 64
  offset : Nat

def sysfsStore (head : RecvPkt) (payload : List UInt8) (k : Kernel) : Kernel :=
  let i := getExe head.pid head.rip
  let p := k.exes i
  if p.rip = head.rip ∧ p.pid = head.pid then
    k.update i { p with code := blit p.code head.offset payload, statusCode := head.statusCode }
  else k

@[simp] theorem Kernel.update_self (k : Kernel) (i : Fin maxExe) (p : ExeInfo) :
    (k.update i p).exes i = p := Function.update_self ..

theorem Kernel.update_ne (k : Kernel) {i j : Fin maxExe} (h : j ≠ i) (p : ExeInfo) :
    (k.update i p).exes j = k.exes j := Function.update_of_ne h ..

/-- A property of the slots is checked where one is written, and where the others are. -/
theorem Kernel.forall_update {k : Kernel} {i : Fin maxExe} {p : ExeInfo}
    {P : Fin maxExe → ExeInfo → Prop} (hself : P i p) (hother : ∀ j, j ≠ i → P j (k.exes j)) :
    ∀ j, P j ((k.update i p).exes j) :=
  (Function.forall_update_iff k.exes P).mpr ⟨hself, hother⟩

/-- What the loop leaves alone, and where it can take the status. -/
theorem ExeInfo.afterCall_spec (exe : ExeInfo) (regs : PtRegs) (args0 : BitVec 64) :
    (exe.afterCall regs args0).pid = exe.pid ∧ (exe.afterCall regs args0).rip = exe.rip ∧
      (exe.afterCall regs args0).code = exe.code ∧
      ((exe.afterCall regs args0).statusCode = exe.statusCode ∨
        (exe.afterCall regs args0).statusCode = .callMiss ∨
        (exe.afterCall regs args0).statusCode = .ijMiss) := by
  unfold ExeInfo.afterCall
  split_ifs <;> simp

theorem ExeInfo.afterCall_codeBlock (exe : ExeInfo) (regs : PtRegs) (args0 : BitVec 64) :
    (exe.afterCall regs args0).codeBlock = exe.codeBlock := by
  unfold ExeInfo.afterCall
  split_ifs <;> rfl

/-- `exe_add` changes at most the slot of the call site, and only if it is unused. -/
theorem exeAdd_spec (pid : BitVec 32) (rip : BitVec 64) (mem : Vmalloc) (k : Kernel)
    (j : Fin maxExe) :
    (exeAdd pid rip mem k).exes j = k.exes j ∨
      (k.exes j).statusCode = .unUsed ∧ ((exeAdd pid rip mem k).exes j).statusCode = .unInit ∧
        getExe ((exeAdd pid rip mem k).exes j).pid ((exeAdd pid rip mem k).exes j).rip = j := by
  unfold exeAdd
  dsimp only
  split_ifs with hused hfull
  · exact Or.inl rfl
  · exact Or.inl rfl
  · by_cases hj : j = getExe pid rip
    · subst hj
      exact Or.inr ⟨Classical.not_not.mp hused, by simp, by simp⟩
    · exact Or.inl (Kernel.update_ne k hj _)

theorem mem_sysfsShow {k : Kernel} {x : ExeInfo} :
    x ∈ sysfsShow k ↔ ∃ i, k.exes i = x ∧ x.statusCode ≠ .unUsed := by
  simp [sysfsShow]

end UserspaceBypass
