import UserspaceBypass.KernelExe

/-! Two ways into a system call. A SYSCALL instruction enters the kernel through `do_syscall_64`
(`common.c`), with the entry work the task asks for in front of the tables. When translated code
returns `normal`, `exe_on_call` (`exe.c`) fills in the same frame and goes to the table itself: it
knows neither the entry work nor the x32 table, and its bound is one too large. -/

namespace UserspaceBypass

/-- `NR_syscalls`: the entries 0 to 435. -/
def nrSyscalls : BitVec 64 := 436

/-- `__X32_SYSCALL_BIT` -/
def x32SyscallBit : BitVec 64 := 0x40000000

/-- `-ENOSYS` -/
def enosys : BitVec 64 := -38

/-- An entry of `sys_call_table` or of `x32_sys_call_table`. -/
inductive TableEntry where
  | native (nr : Nat)
  | x32 (nr : Nat)
  deriving DecidableEq, Repr

/-- The bits of `ti->flags` that are in `_TIF_WORK_SYSCALL_ENTRY`. -/
structure TaskWork where
  syscallTrace : Bool
  syscallEmu : Bool
  syscallAudit : Bool
  seccomp : Bool
  tracepoint : Bool
  nohz : Bool
  deriving DecidableEq, Repr

def TaskWork.any (work : TaskWork) : Bool :=
  work.syscallTrace || work.syscallEmu || work.syscallAudit || work.seccomp || work.tracepoint ||
    work.nohz

/-- `struct seccomp_data` of a 64-bit call. -/
structure SeccompData where
  nr : BitVec 64
  instructionPointer : BitVec 64
  args : List (BitVec 64)

/-- The kernel around the two paths: what the handlers do with the frame and return, the length of
the x32 table, and the tracer and the seccomp filter, which may change the frame. The tracepoint and
the audit record only look at it. -/
structure Syscalls where
  handler : TableEntry → PtRegs → PtRegs × BitVec 64
  x32Nr : BitVec 64
  tracehook : PtRegs → PtRegs × BitVec 64
  secureComputing : SeccompData → PtRegs → PtRegs × BitVec 64

/-- What became of a call: the entry that was called, if any, the frame it was called with, and the
frame it left. -/
structure Served where
  entry : Option TableEntry
  frame : PtRegs
  after : PtRegs

namespace Syscalls

/-- `regs->ax = table[nr](regs)` -/
def invoke (k : Syscalls) (entry : TableEntry) (regs : PtRegs) : Served :=
  let r := k.handler entry regs
  ⟨some entry, regs, { r.1 with ax := r.2 }⟩

/-- The iteration of `exe_on_call` from the return of the code block with `args[0] == normal`. -/
def chained (k : Syscalls) (regs : PtRegs) : Served :=
  let ip := regs.ip + 2
  let frame := { regs with ip := ip, cx := ip, r11 := regs.flags, origAx := regs.ax, ax := enosys }
  if legalCall frame.origAx then k.invoke (.native frame.origAx.toNat) frame
  else ⟨none, frame, frame⟩

/-- The frame that the SYSCALL instruction at `regs.ip` and the entry code in front of
`do_syscall_64` leave on the stack. -/
def enter (regs : PtRegs) : PtRegs :=
  let next := regs.ip + 2
  { regs with cx := next, r11 := regs.flags, ip := next, origAx := regs.ax, ax := enosys }

def seccompData (regs : PtRegs) : SeccompData where
  nr := regs.origAx
  instructionPointer := regs.ip
  args := [regs.di, regs.si, regs.dx, regs.r10, regs.r8, regs.r9]

/-- `syscall_trace_enter`: the frame as the hooks leave it, and the number to run. -/
def syscallTraceEnter (k : Syscalls) (work : TaskWork) (regs : PtRegs) : PtRegs × BitVec 64 :=
  let traced := if work.syscallTrace || work.syscallEmu then k.tracehook regs else (regs, 0)
  if (work.syscallTrace || work.syscallEmu) && (traced.2 ≠ 0 || work.syscallEmu) then
    (traced.1, -1)
  else
    let filtered :=
      if work.seccomp then k.secureComputing (seccompData traced.1) traced.1 else traced
    if work.seccomp && filtered.2 = -1 then (filtered.1, -1)
    else (filtered.1, if filtered.2 ≠ 0 then filtered.2 else filtered.1.origAx)

/-- `array_index_nospec` -/
def arrayIndexNospec (index size : BitVec 64) : BitVec 64 := if index < size then index else 0

/-- The entry that `do_syscall_64` goes to for a number. -/
def entryOf (k : Syscalls) (nr : BitVec 64) : Option TableEntry :=
  if nr < nrSyscalls then some (.native (arrayIndexNospec nr nrSyscalls).toNat)
  else if nr &&& x32SyscallBit ≠ 0 ∧ nr &&& ~~~x32SyscallBit < k.x32Nr then
    some (.x32 (arrayIndexNospec (nr &&& ~~~x32SyscallBit) k.x32Nr).toNat)
  else none

/-- The frame and the number after the entry work, if the task has any. -/
def entryWork (k : Syscalls) (work : TaskWork) (nr : BitVec 64) (regs : PtRegs) :
    PtRegs × BitVec 64 :=
  if work.any then k.syscallTraceEnter work regs else (regs, nr)

/-- `do_syscall_64` up to the return of the handler. -/
def doSyscall64 (k : Syscalls) (work : TaskWork) (nr : BitVec 64) (regs : PtRegs) : Served :=
  let r := k.entryWork work nr regs
  match k.entryOf r.2 with
  | some entry => k.invoke entry r.1
  | none => ⟨none, r.1, r.1⟩

/-- A SYSCALL instruction at `regs.ip`. -/
def native (k : Syscalls) (work : TaskWork) (regs : PtRegs) : Served :=
  k.doSyscall64 work regs.ax (enter regs)

/-- `ip`, `cx`, `orig_ax` and `ax` are the same. -/
def SameResult (a b : PtRegs) : Prop :=
  a.ip = b.ip ∧ a.cx = b.cx ∧ a.origAx = b.origAx ∧ a.ax = b.ax

/-- The chained path does what the native one does: the same entry with the same frame, the same
result, and no entry beyond the table. -/
structure Agrees (k : Syscalls) (work : TaskWork) (regs : PtRegs) : Prop where
  entry : (k.chained regs).entry = (k.native work regs).entry
  frame : (k.chained regs).entry ≠ none → (k.chained regs).frame = (k.native work regs).frame
  result : SameResult (k.chained regs).after (k.native work regs).after
  inside : ∀ nr, (k.chained regs).entry = some (.native nr) → nr < nrSyscalls.toNat

/-- Where the two paths meet, in terms of what the entry work makes of the frame: a number of the
table comes back as it is, with the frame as it was; a number beyond it is not one that
`do_syscall_64` knows, and the four registers are left alone. -/
def Untouched (k : Syscalls) (work : TaskWork) (regs : PtRegs) : Prop :=
  let r := k.entryWork work regs.ax (enter regs)
  if regs.ax < nrSyscalls then r = (enter regs, regs.ax)
  else k.entryOf r.2 = none ∧ SameResult (enter regs) r.1

theorem arrayIndexNospec_of_lt {index size : BitVec 64} (h : index < size) :
    arrayIndexNospec index size = index := if_pos h

theorem chained_inside (k : Syscalls) {regs : PtRegs} (h : regs.ax < nrSyscalls) :
    k.chained regs = k.invoke (.native regs.ax.toNat) (enter regs) := by
  have hlegal : legalCall regs.ax = true := by
    simp only [legalCall, decide_eq_true_eq, nrSyscalls] at h ⊢
    bv_omega
  simp only [chained, hlegal, if_true, enter]

theorem chained_boundary (k : Syscalls) {regs : PtRegs} (h : regs.ax = nrSyscalls) :
    (k.chained regs).entry = some (.native 436) := by
  simp only [chained, invoke, h]
  rfl

theorem chained_beyond (k : Syscalls) {regs : PtRegs} (h : nrSyscalls < regs.ax) :
    k.chained regs = ⟨none, enter regs, enter regs⟩ := by
  have hlegal : legalCall regs.ax = false := by
    simp only [legalCall, decide_eq_false_iff_not, nrSyscalls] at h ⊢
    bv_omega
  simp only [chained, hlegal, enter, Bool.false_eq_true, if_false]

/-- Only a number of the table goes to its own entry. -/
theorem entryOf_native {k : Syscalls} {nr : BitVec 64} {n : Nat}
    (h : k.entryOf nr = some (.native n)) : nr.toNat = n := by
  unfold entryOf at h
  split_ifs at h with hlt
  · rw [arrayIndexNospec_of_lt hlt] at h
    exact TableEntry.native.inj (Option.some.inj h)
  · cases h

theorem entryOf_of_lt (k : Syscalls) {nr : BitVec 64} (h : nr < nrSyscalls) :
    k.entryOf nr = some (.native nr.toNat) := by
  rw [entryOf, if_pos h, arrayIndexNospec_of_lt h]

theorem native_of_entryOf {k : Syscalls} {work : TaskWork} {regs : PtRegs} {entry : TableEntry}
    (h : k.entryOf (k.entryWork work regs.ax (enter regs)).2 = some entry) :
    k.native work regs = k.invoke entry (k.entryWork work regs.ax (enter regs)).1 := by
  simp only [native, doSyscall64, h]

theorem native_of_entryOf_none {k : Syscalls} {work : TaskWork} {regs : PtRegs}
    (h : k.entryOf (k.entryWork work regs.ax (enter regs)).2 = none) :
    k.native work regs = ⟨none, (k.entryWork work regs.ax (enter regs)).1,
      (k.entryWork work regs.ax (enter regs)).1⟩ := by
  simp only [native, doSyscall64, h]

/-- Numbers of the table. -/
theorem agrees_inside_iff (k : Syscalls) (work : TaskWork) {regs : PtRegs}
    (h : regs.ax < nrSyscalls) :
    k.Agrees work regs ↔ k.entryWork work regs.ax (enter regs) = (enter regs, regs.ax) := by
  have hchained := k.chained_inside h
  constructor
  · intro hagrees
    have hentry := hagrees.entry
    have hframe := hagrees.frame
    rw [hchained] at hentry hframe
    cases hnr : k.entryOf (k.entryWork work regs.ax (enter regs)).2 with
    | none =>
        rw [native_of_entryOf_none hnr] at hentry
        cases hentry
    | some entry =>
        rw [native_of_entryOf hnr] at hentry hframe
        cases hentry
        have hsame : enter regs = (k.entryWork work regs.ax (enter regs)).1 :=
          hframe (Option.some_ne_none _)
        exact Prod.ext hsame.symm (BitVec.eq_of_toNat_eq (entryOf_native hnr))
  · intro hwork
    have hentry : k.entryOf (k.entryWork work regs.ax (enter regs)).2 =
        some (.native regs.ax.toNat) := by
      rw [hwork]
      exact k.entryOf_of_lt h
    have hsame : k.native work regs = k.chained regs := by
      rw [native_of_entryOf hentry, hwork, hchained]
    refine ⟨by rw [hsame], fun _ => by rw [hsame], by rw [hsame]; exact ⟨rfl, rfl, rfl, rfl⟩, ?_⟩
    intro nr hnr
    rw [hchained] at hnr
    cases hnr
    exact h

/-- Numbers behind it. -/
theorem agrees_beyond_iff (k : Syscalls) (work : TaskWork) {regs : PtRegs}
    (h : nrSyscalls < regs.ax) :
    k.Agrees work regs ↔ k.entryOf (k.entryWork work regs.ax (enter regs)).2 = none ∧
      SameResult (enter regs) (k.entryWork work regs.ax (enter regs)).1 := by
  have hchained := k.chained_beyond h
  constructor
  · intro hagrees
    have hentry := hagrees.entry
    have hresult := hagrees.result
    rw [hchained] at hentry hresult
    cases hnr : k.entryOf (k.entryWork work regs.ax (enter regs)).2 with
    | none =>
        rw [native_of_entryOf_none hnr] at hresult
        exact ⟨rfl, hresult⟩
    | some entry =>
        rw [native_of_entryOf hnr] at hentry
        cases hentry
  · rintro ⟨hnr, hresult⟩
    refine ⟨?_, ?_, ?_, ?_⟩ <;> rw [hchained]
    · rw [native_of_entryOf_none hnr]
    · exact fun hne => absurd rfl hne
    · rw [native_of_entryOf_none hnr]
      exact hresult
    · exact fun _ hnone => nomatch hnone

end Syscalls

/-- **The chained path against the native one.** They agree exactly if RAX is not 436, where the
chained path reads past the table, and the entry work, if the task has any, is one that the chained
path can leave out. -/
theorem chained_agrees_iff (k : Syscalls) (work : TaskWork) (regs : PtRegs) :
    k.Agrees work regs ↔ regs.ax ≠ nrSyscalls ∧ k.Untouched work regs := by
  unfold Syscalls.Untouched
  dsimp only
  by_cases heq : regs.ax = nrSyscalls
  · refine iff_of_false (fun hagrees => ?_) fun h => h.1 heq
    exact absurd (hagrees.inside 436 (k.chained_boundary heq)) (by decide)
  · split_ifs with hlt
    · rw [k.agrees_inside_iff work hlt]
      exact (and_iff_right heq).symm
    · have hgt : nrSyscalls < regs.ax := by bv_omega
      rw [k.agrees_beyond_iff work hgt]
      exact (and_iff_right heq).symm

/-- A kernel whose handlers return 0, without an x32 table, a tracer or a filter. -/
def idleSyscalls : Syscalls where
  handler _ regs := (regs, 0)
  x32Nr := 0
  tracehook regs := (regs, 0)
  secureComputing _ regs := (regs, 0)

/-- A task without entry work. -/
def noWork : TaskWork := ⟨false, false, false, false, false, false⟩

/-- All registers 0, except RAX. -/
def raxRegs (ax : BitVec 64) : PtRegs := ⟨0, 0, 0, 0, 0, 0, 0, 0, 0, 0, ax, 0, 0, 0, 0, 0, 0, 0, 0⟩

/-- With 436 in RAX and no entry work, the chained path calls what stands behind the table. -/
theorem chained_call_past_table :
    ¬∀ (k : Syscalls) work regs, k.Agrees work regs := by
  intro h
  have hinside := (h idleSyscalls noWork (raxRegs 436)).inside 436 (by decide)
  exact absurd hinside (by decide)

end UserspaceBypass
