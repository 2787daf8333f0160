import UserspaceBypass.Install
import UserspaceBypass.SyscallPath
import UserspaceBypass.VirtPtr

/-! The loop of `exe_on_call` as a whole. A thread runs its program instruction by instruction and
enters the kernel at SYSCALL. The loop does neither: it calls the code block of the slot, serves the
system call itself and goes on at the next slot, while the daemon and the other processors change
the table. Whatever it does, the thread would have come to the same point, with the same registers,
memory and kernel state. What the loop does not follow are the flags: `pt_regs` keeps those of the
call that came in, and R11, where SYSCALL puts the flags of the moment, gets the old ones as well. So
the flags are left out of the comparison, and R11 is what the convention for system calls makes of it:
a register that SYSCALL does not preserve. -/

namespace UserspaceBypass

open Liveness Simulation StateTransition

variable {κ : Type*}

/-- What a system call can change besides its frame: memory, vector registers, the FS base, and the
rest of the kernel. -/
structure Outside (κ : Type*) where
  mem : BitVec 64 → BitVec 8
  vec : Nat → BitVec 128
  fs : BitVec 64
  rest : κ

/-- The kernel behind the tables of system calls. -/
structure Os (κ : Type*) where
  calls : Outside κ → Syscalls
  effect : TableEntry → PtRegs → Outside κ → Outside κ

def Os.after (os : Os κ) (served : Served) (outside : Outside κ) : Outside κ :=
  match served.entry with
  | some entry => os.effect entry served.frame outside
  | none => outside

/-- The same but for the flags, and for R11, where SYSCALL saves them. -/
def PtRegs.SameButFlags (a b : PtRegs) : Prop := b = { a with r11 := b.r11, flags := b.flags }

/-- No system call looks at the flags that its frame holds, or at R11. -/
structure Os.IgnoresFlags (os : Os κ) : Prop where
  frame : ∀ outside entry a b, PtRegs.SameButFlags a b →
    PtRegs.SameButFlags ((os.calls outside).handler entry a).1 ((os.calls outside).handler entry b).1
  result : ∀ outside entry a b, PtRegs.SameButFlags a b →
    ((os.calls outside).handler entry a).2 = ((os.calls outside).handler entry b).2
  effect : ∀ entry a b outside, PtRegs.SameButFlags a b →
    os.effect entry a outside = os.effect entry b outside

/-- The status flags in a flags word. -/
def flagsOf (word : BitVec 64) : Flag → Bool
  | .cf => word.getLsbD 0
  | .pf => word.getLsbD 2
  | .af => word.getLsbD 4
  | .zf => word.getLsbD 6
  | .sf => word.getLsbD 7
  | .of => word.getLsbD 11

/-- A thread without the bypass. -/
structure Thread (κ : Type*) where
  pc : Nat
  state : State
  rest : κ

namespace Thread

def outside (u : Thread κ) : Outside κ :=
  ⟨u.state.env.mem, u.state.env.vec, u.state.regs (.seg .fs), u.rest⟩

/-- `pt_regs` at the SYSCALL the thread is at, with the flags the thread has there. -/
def frame (u : Thread κ) : PtRegs :=
  PtRegs.resume { (default : PtRegs) with flags := Special.flagsWord u.state.env.flags } u.state
    (BitVec.ofNat 64 u.pc)

/-- The thread behind the system call, which the kernel enters through `do_syscall_64`. -/
def syscall (os : Os κ) (work : TaskWork) (u : Thread κ) : Thread κ :=
  let served := (os.calls u.outside).native work u.frame
  let outside := os.after served u.outside
  { pc := served.after.ip.toNat
    state := served.after.state outside.fs 0
      ⟨flagsOf served.after.flags, outside.mem, outside.vec⟩
    rest := outside.rest }

def setR11 (u : Thread κ) (value : BitVec 64) : Thread κ :=
  { u with state := u.state.set (.gpr .r11) value }

/-- One instruction, or one system call, behind which R11 may be anything. The processor leaves the
flags there. -/
inductive Step (isa : Isa) (os : Os κ) (work : TaskWork) (code : Nat → Option Line) :
    Thread κ → Thread κ → Prop
  | inst {u : Thread κ} {p : Nat × State} (step : native isa code (u.pc, u.state) = some p) :
      Step isa os work code u { u with pc := p.1, state := p.2 }
  | syscall {u : Thread κ} {line : Line} (line_eq : code u.pc = some line)
      (name : line.name = "SYSCALL") (r11 : BitVec 64) :
      Step isa os work code u ((u.syscall os work).setR11 r11)

/-- A run of the thread. -/
abbrev Run (isa : Isa) (os : Os κ) (work : TaskWork) (code : Nat → Option Line) :
    Thread κ → Thread κ → Prop :=
  Relation.ReflTransGen (Step isa os work code)

/-- What the processor itself does at a SYSCALL is one of these steps. -/
theorem step_syscall {isa : Isa} {os : Os κ} {work : TaskWork} {code : Nat → Option Line}
    {u : Thread κ} {line : Line} (hline : code u.pc = some line) (hname : line.name = "SYSCALL") :
    Step isa os work code u (u.syscall os work) := by
  have hsame : (u.syscall os work).setR11 ((u.syscall os work).state.regs (.gpr .r11)) =
      u.syscall os work := by
    simp only [setR11, State.set, Function.update_eq_self]
  exact hsame ▸ Step.syscall hline hname _

end Thread

/-- The task as the loop knows it. -/
structure Task (κ : Type*) where
  regs : PtRegs
  outside : Outside κ

namespace Task

/-- The program's state, as far as the loop has it. -/
def state (t : Task κ) (flags : Flag → Bool) : State :=
  t.regs.state t.outside.fs 0 ⟨flags, t.outside.mem, t.outside.vec⟩

/-- The rest of an iteration: the code block has left `regs` and `args[0]`, and the memory and vector
registers of the program. -/
def next (os : Os κ) (t : Task κ) (regs : PtRegs) (args0 : BitVec 64) (mem : BitVec 64 → BitVec 8)
    (vec : Nat → BitVec 128) : Task κ :=
  let outside := { t.outside with mem := mem, vec := vec }
  if args0 = argNormal then
    let served := (os.calls outside).chained regs
    ⟨served.after, os.after served outside⟩
  else ⟨regs, outside⟩

end Task

/-- What the code in a slot has to be: the translation of the program from the slot's address on,
with no flag live there, and without a source that `args[0]` could show as a status. -/
structure Jit.Serves (jit : Jit) (regUse : RegUse) (use : Access Line Flag)
    (code : Nat → Option Line) (rip : BitVec 64) : Prop where
  entry : jit.entry = rip.toNat
  key : jit.entry ∈ jit.dict.keys
  certified : ∃ live, jit.Certified regUse use live code ∧ ∀ f, live jit.entry f = false
  source : ∀ e ∈ jit.sites.jumpTable, 1 < e.1 ∧ e.1 < 2 ^ 64

/-- Every slot of the process that is in use holds such code; `image` is what the bytes of a code
block are assembled from. -/
def Kernel.Serves (k : Kernel) (image : (Nat → UInt8) → Option Jit) (regUse : RegUse)
    (use : Access Line Flag) (code : Nat → Option Line) (pid : BitVec 32) : Prop :=
  ∀ i, (k.exes i).statusCode = .normal → (k.exes i).pid = pid →
    ∀ jit, image (k.exes i).code = some jit → jit.Serves regUse use code (k.exes i).rip

/-- A step of the loop, in a kernel whose table `serves` at all times. Between two iterations, and
while the code block or the system call is running, others may change the table: `k'` is the table
when the loop writes to its slot. In a call the memory of the program is the memory outside `place`,
and no instruction of the program goes there. -/
inductive ChainStep (isa : Isa) (cpu : Processor) (os : Os κ) (image : (Nat → UInt8) → Option Jit)
    (serves : Kernel → Prop) (pid : BitVec 32) : Kernel × Task κ → Kernel × Task κ → Prop
  | others {k k' : Kernel} {t : Task κ} (others : serves k') :
      ChainStep isa cpu os image serves pid (k, t) (k', t)
  | call {k k' : Kernel} {t : Task κ} {jit : Jit} {place : Place} {s s' : Core}
      {flags : Flag → Bool} {vec' : Nat → BitVec 128}
      (enters : Enters k pid t.regs.ip)
      (image_eq : image (k.exes (getExe pid t.regs.ip)).code = some jit)
      (regs : place.ptRegs s = t.regs) (fs : place.word s (.arg 0) = t.outside.fs)
      (gs : place.word s (.arg 1) = 0) (mem : Set.EqOn s.mem t.outside.mem place.bytesᶜ)
      (apart : jit.StaysApart isa cpu place s flags t.outside.vec)
      (run : VirtPtr isa cpu jit place s flags t.outside.vec s' vec') (others : serves k') :
      ChainStep isa cpu os image serves pid (k, t)
        (k'.update (getExe pid t.regs.ip) ((k'.exes (getExe pid t.regs.ip)).afterCall
            (place.ptRegs s') (place.word s' (.arg 0))),
          t.next os (place.ptRegs s') (place.word s' (.arg 0))
            (place.bytes.piecewise t.outside.mem s'.mem) vec')

/-- The task is at the point of the thread, apart from the flags. -/
structure Represents (t : Task κ) (u : Thread κ) : Prop where
  ip : t.regs.ip.toNat = u.pc
  state : State.Agrees noFlags (t.state fun _ => false) u.state
  rest : t.outside.rest = u.rest

/-- What is assumed of the program: it stays in the address space, and does not load a segment
register. -/
structure Tame (isa : Isa) (code : Nat → Option Line) : Prop where
  pc : ∀ p q, native isa code p = some q → q.1 < 2 ^ 64
  segs : ∀ p q, native isa code p = some q → ∀ sg, q.2.regs (.seg sg) = p.2.regs (.seg sg)

/-- What is assumed where the thread is: no register is masked that has bit 63 set, and a system
call has a number of the table, or one that no table has. -/
structure Thread.Fits (os : Os κ) (image : (Nat → UInt8) → Option Jit) (code : Nat → Option Line)
    (u : Thread κ) : Prop where
  clear : ∀ bytes jit, image bytes = some jit → ∀ b ∈ jit.emitted, ∀ e ∈ b.2, e.address = u.pc →
    e.line.IsOrdinary → ∀ r ∈ e.masks, Clear u.state.regs r
  number : ∀ line, code u.pc = some line → line.name = "SYSCALL" →
    u.state.regs (.gpr .rax) < nrSyscalls ∨ nrSyscalls < u.state.regs (.gpr .rax) ∧
      (os.calls u.outside).entryOf (u.state.regs (.gpr .rax)) = none

section Served

variable {a b : PtRegs}

theorem PtRegs.SameButFlags.gpr (h : a.SameButFlags b) {g : Gpr} (hg : g ≠ .r11) :
    a.gpr g = b.gpr g := by
  rw [h]
  cases g with
  | r11 => exact absurd rfl hg
  | _ => rfl

theorem PtRegs.SameButFlags.ip (h : a.SameButFlags b) : a.ip = b.ip := by rw [h]

theorem PtRegs.SameButFlags.setAx (h : a.SameButFlags b) (value : BitVec 64) :
    PtRegs.SameButFlags { a with ax := value } { b with ax := value } := by
  unfold PtRegs.SameButFlags at h ⊢
  rw [h]

/-- Without entry work the two ways into a system call are the same, if the number is one on which
the tables agree. The frames may differ in the flags and in what the entry code fills in. -/
theorem Os.IgnoresFlags.chained_native {os : Os κ} (hos : os.IgnoresFlags) {work : TaskWork}
    (hwork : work.any = false) (outside : Outside κ) {regs regs' : PtRegs}
    (henter : (Syscalls.enter regs).SameButFlags (Syscalls.enter regs')) (hax : regs.ax = regs'.ax)
    (hnumber : regs.ax < nrSyscalls ∨
      nrSyscalls < regs.ax ∧ (os.calls outside).entryOf regs.ax = none) :
    ((os.calls outside).chained regs).after.SameButFlags
        ((os.calls outside).native work regs').after ∧
      os.after ((os.calls outside).chained regs) outside =
        os.after ((os.calls outside).native work regs') outside := by
  generalize hk : os.calls outside = k at hnumber ⊢
  have hentry : k.entryWork work regs'.ax (Syscalls.enter regs') =
      (Syscalls.enter regs', regs'.ax) := by
    rw [Syscalls.entryWork, hwork]
    rfl
  rcases hnumber with hlt | ⟨hgt, hnone⟩
  · have hsome : k.entryOf (k.entryWork work regs'.ax (Syscalls.enter regs')).2 =
        some (.native regs.ax.toNat) := by
      rw [hentry, ← hax]
      exact k.entryOf_of_lt hlt
    rw [k.chained_inside hlt, Syscalls.native_of_entryOf hsome, hentry]
    refine ⟨?_, hos.effect _ _ _ outside henter⟩
    have hframe := hos.frame outside (.native regs.ax.toNat) _ _ henter
    have hresult := hos.result outside (.native regs.ax.toNat) _ _ henter
    rw [hk] at hframe hresult
    rw [Syscalls.invoke, Syscalls.invoke, hresult]
    exact hframe.setAx _
  · have hnone' : k.entryOf (k.entryWork work regs'.ax (Syscalls.enter regs')).2 = none := by
      rw [hentry, ← hax]
      exact hnone
    rw [k.chained_beyond hgt, Syscalls.native_of_entryOf_none hnone', hentry]
    exact ⟨henter, rfl⟩

end Served

section Native

variable {isa : Isa} {os : Os κ} {work : TaskWork} {code : Nat → Option Line} {u : Thread κ}
  {p q : Nat × State}

/-- The program's steps are steps of the thread. -/
theorem Thread.run_native (h : Reaches (native isa code) (u.pc, u.state) p) :
    Thread.Run isa os work code u { u with pc := p.1, state := p.2 } := by
  induction h with
  | refl => exact .refl
  | tail _ hstep ih => exact ih.tail (.inst hstep)

theorem Tame.reaches (htame : Tame isa code) (h : Reaches (native isa code) p q)
    (hp : p.1 < 2 ^ 64) :
    q.1 < 2 ^ 64 ∧ ∀ sg, q.2.regs (.seg sg) = p.2.regs (.seg sg) := by
  induction h with
  | refl => exact ⟨hp, fun _ => rfl⟩
  | tail _ hstep ih =>
      exact ⟨htame.pc _ _ hstep, fun sg => (htame.segs _ _ hstep sg).trans (ih.2 sg)⟩

end Native

section Iteration

variable {isa : Isa} {cpu : Processor} {os : Os κ} {work : TaskWork} {code : Nat → Option Line}
  {regUse : RegUse} {use : Access Line Flag} {image : (Nat → UInt8) → Option Jit} {pid : BitVec 32}
  {t : Task κ} {u : Thread κ}

theorem Represents.outside (h : Represents t u) : t.outside = u.outside := by
  have hmem : t.outside.mem = u.state.env.mem := h.state.mem.symm
  have hvec : t.outside.vec = u.state.env.vec := h.state.vec.symm
  have hfs : t.outside.fs = u.state.regs (.seg .fs) :=
    (h.state.regs (.seg .fs) fun t => by simp).symm
  rw [Thread.outside, ← hmem, ← hvec, ← hfs, ← h.rest]

/-- A slot stays as it should be when the loop has written to it. -/
theorem Kernel.Serves.afterCall {k : Kernel} (h : k.Serves image regUse use code pid)
    (i : Fin maxExe) (regs : PtRegs) (args0 : BitVec 64) :
    (k.update i ((k.exes i).afterCall regs args0)).Serves image regUse use code pid := by
  refine Kernel.forall_update (P := fun _ p => p.statusCode = .normal → p.pid = pid →
    ∀ jit, image p.code = some jit → jit.Serves regUse use code p.rip) ?_ fun j _ => h j
  intro hstatus hpid jit hjit
  obtain ⟨hpid', hrip, hcode, hnormal⟩ := (k.exes i).afterCall_spec regs args0
  have hwas : (k.exes i).statusCode = .normal := by
    rcases hnormal with hsame | hmiss | hmiss
    · exact hsame.symm.trans hstatus
    · rw [hmiss] at hstatus
      cases hstatus
    · rw [hmiss] at hstatus
      cases hstatus
  rw [hrip]
  exact h i hwas (hpid'.symm.trans hpid) jit (hcode ▸ hjit)

/-- The code block brings the task to a later point of the thread. -/
theorem Represents.block (hrep : Represents t u) (hisa : isa.Respects regUse) (hwords : isa.Words)
    (hobeys : isa.Obeys use) (hcompares : isa.Compares) (htame : Tame isa code) {jit : Jit}
    (hjit : jit.Serves regUse use code t.regs.ip)
    (hclear : jit.StaysClear isa code (u.pc, u.state)) {c c' : Machine} {env : Env}
    (hstart : abs blockInit c = t.regs.state t.outside.fs 0 env) (hmem : env.mem = t.outside.mem)
    (hvec : env.vec = t.outside.vec)
    (hexit : Reaches (flow isa jit.file) (.loc jit.entry, c) (.exit, c')) :
    ∃ pc s, Reaches (native isa code) (u.pc, u.state) (pc, s) ∧
      Represents ⟨t.regs.resume (abs blockInit c') (c'.regs (.gpr .r14)),
        { t.outside with mem := c'.env.mem, vec := c'.env.vec }⟩ { u with pc := pc, state := s } ∧
      jit.Exit code pc (c'.frame ijSlot) := by
  obtain ⟨live, hcert, hlive⟩ := hjit.certified
  have hentry : jit.entry = u.pc := hjit.entry.trans hrep.ip
  have hagrees : State.Agrees (live jit.entry) (abs blockInit c) u.state := by
    rw [hstart]
    refine ⟨hrep.state.regs, hrep.state.mem.trans hmem.symm, hrep.state.vec.trans hvec.symm, ?_⟩
    intro f hf
    rw [hlive] at hf
    cases hf
  rw [← hentry] at hclear ⊢
  obtain ⟨⟨pc, s⟩, hrun, hshows⟩ :=
    hcert.exits hisa hwords hobeys hcompares hjit.key hclear hagrees hexit
  have hlt : jit.entry < 2 ^ 64 := by
    rw [hjit.entry]
    exact BitVec.isLt _
  obtain ⟨hpc, hsegs⟩ := htame.reaches hrun hlt
  cases hshows with
  | exit hr14 hreason hagree =>
      refine ⟨pc, s, hrun, ⟨?_, ⟨fun f hf => ?_, hagree.mem, hagree.vec, ?_⟩, hrep.rest⟩, hreason⟩
      · change (c'.regs (.gpr .r14)).toNat = pc
        rw [hr14, BitVec.toNat_ofNat, Nat.mod_eq_of_lt hpc]
      · cases f with
        | gpr g => exact (hagree.regs _ hf).trans (PtRegs.resume_gpr _ _ _ g).symm
        | seg sg =>
            refine (hsegs sg).trans ((hrep.state.regs (.seg sg) hf).trans ?_)
            cases sg <;> rfl
        | tmp tmp => exact absurd rfl (hf tmp)
      · intro f hf
        cases hf

/-- The system call, chained and native: with the R11 that the loop leaves. -/
theorem Represents.syscall (hrep : Represents t u) (hos : os.IgnoresFlags) (hwork : work.any = false)
    (hnumber : u.state.regs (.gpr .rax) < nrSyscalls ∨ nrSyscalls < u.state.regs (.gpr .rax) ∧
      (os.calls u.outside).entryOf (u.state.regs (.gpr .rax)) = none) :
    Represents ⟨((os.calls t.outside).chained t.regs).after,
      os.after ((os.calls t.outside).chained t.regs) t.outside⟩
      ((u.syscall os work).setR11 ((os.calls t.outside).chained t.regs).after.r11) := by
  have hgpr : ∀ g, t.regs.gpr g = u.state.regs (.gpr g) := fun g =>
    (hrep.state.regs (.gpr g) fun t => by simp).symm
  have hip : t.regs.ip = BitVec.ofNat 64 u.pc := by
    rw [← hrep.ip, BitVec.ofNat_toNat, BitVec.setWidth_eq]
  have hax : t.regs.ax = u.state.regs (.gpr .rax) := hgpr .rax
  have henter : (Syscalls.enter t.regs).SameButFlags (Syscalls.enter u.frame) := by
    simp only [PtRegs.SameButFlags, Syscalls.enter, Thread.frame, PtRegs.resume, PtRegs.mk.injEq, hip,
      true_and]
    exact ⟨(hgpr .r15).symm, (hgpr .r14).symm, (hgpr .r13).symm, (hgpr .r12).symm, (hgpr .rbp).symm,
      (hgpr .rbx).symm, (hgpr .r10).symm, (hgpr .r9).symm, (hgpr .r8).symm, (hgpr .rdx).symm,
      (hgpr .rsi).symm, (hgpr .rdi).symm, hax.symm, (hgpr .rsp).symm⟩
  obtain ⟨hafter, heffect⟩ := hos.chained_native hwork u.outside henter hax (by rwa [hax])
  rw [hrep.outside, heffect]
  refine ⟨congrArg BitVec.toNat hafter.ip, ⟨fun f hf => ?_, rfl, rfl, fun f hf => ?_⟩, rfl⟩
  · by_cases hr11 : f = .gpr .r11
    · subst hr11
      exact Function.update_self (Family.gpr .r11) _ (u.syscall os work).state.regs
    · refine (Function.update_of_ne hr11 _ _).trans ?_
      cases f with
      | gpr g => exact (hafter.gpr fun hg => hr11 (congrArg Family.gpr hg)).symm
      | seg sg => cases sg <;> rfl
      | tmp tmp => rfl
  · cases hf

/-- A status of zero is that of a system call. -/
theorem Jit.Serves.syscall_of_normal {jit : Jit} {rip : BitVec 64} {pc : Nat}
    (h : jit.Serves regUse use code rip) (hreason : jit.Exit code pc argNormal) :
    ∃ line, code pc = some line ∧ line.name = "SYSCALL" := by
  generalize hword : argNormal = word at hreason
  cases hreason with
  | syscall line hline hname => exact ⟨line, hline, hname⟩
  | callee => exact absurd hword (by decide)
  | indirect x targets hentry =>
      obtain ⟨hlow, hhigh⟩ := h.source _ hentry
      have hzero := congrArg BitVec.toNat hword
      rw [BitVec.toNat_ofNat, Nat.mod_eq_of_lt hhigh] at hzero
      exact absurd (hzero ▸ hlow) (by decide)

/-- One step of the loop. -/
theorem ChainStep.follows {x y : Kernel × Task κ} (hisa : isa.Respects regUse) (hwords : isa.Words)
    (hobeys : isa.Obeys use) (hcompares : isa.Compares) (hcpu : isa.RunsOn cpu)
    (htame : Tame isa code) (hos : os.IgnoresFlags) (hwork : work.any = false)
    (hfits : ∀ u', Thread.Run isa os work code u u' → u'.Fits os image code)
    (hserves : x.1.Serves image regUse use code pid) (hrep : Represents x.2 u)
    (hstep : ChainStep isa cpu os image (fun k => k.Serves image regUse use code pid) pid x y) :
    y.1.Serves image regUse use code pid ∧
      ∃ u', Thread.Run isa os work code u u' ∧ Represents y.2 u' := by
  cases hstep with
  | others hothers => exact ⟨hothers, u, .refl, hrep⟩
  | @call k k' t jit place s s' flags vec' enters image_eq regs fs gs mem apart run hothers =>
      refine ⟨hothers.afterCall _ _ _, ?_⟩
      obtain ⟨hnormal, hrip, hpid⟩ := enters
      have hjit : jit.Serves regUse use code t.regs.ip := by
        have hslot := hserves _ hnormal hpid jit image_eq
        rwa [hrip] at hslot
      have hclear : jit.StaysClear isa code (u.pc, u.state) := fun p hp =>
        (hfits _ (Thread.run_native hp)).clear _ jit image_eq
      have hown : place.bytes.piecewise t.outside.mem s.mem = t.outside.mem :=
        (Place.piecewise_congr _ mem).trans (Set.piecewise_same _ _)
      have hstart := fun called => @abs_machine place s flags t.outside.vec t.outside.mem called
      rw [regs, fs, gs, hown] at hstart
      obtain ⟨live, hcert, -⟩ := hjit.certified
      obtain ⟨c, hexit, hmem, rfl, hregs, harg⟩ := run.context hcpu hcert.stack apart t.outside.mem
      obtain ⟨pc, s₁, hrun, hrep₁, hreason⟩ := hrep.block hisa hwords hobeys hcompares htame hjit
        hclear (hstart run.called) rfl rfl hexit
      rw [hregs, harg, regs, ← hmem]
      have hreach : Thread.Run isa os work code u { u with pc := pc, state := s₁ } :=
        Thread.run_native hrun
      by_cases hargs : c.frame ijSlot = argNormal
      · -- a SYSCALL: the thread makes one step more
        rw [hargs] at hreason
        obtain ⟨line, hline, hname⟩ := hjit.syscall_of_normal hreason
        rw [Task.next, if_pos hargs]
        exact ⟨_, hreach.tail (.syscall hline hname _),
          hrep₁.syscall hos hwork ((hfits _ hreach).number line hline hname)⟩
      · refine ⟨_, hreach, ?_⟩
        rw [Task.next, if_neg hargs]
        exact hrep₁

end Iteration

namespace Poll

/-- One slot, for the start of the program. -/
def kernel : Kernel :=
  emptyKernel.update (getExe 1 0x401000) ⟨.normal, 1, 0x401000, 0, fun _ => 0, 0, 0, 0, 0⟩

theorem Translation.serves {jit : Jit} (h : Translation jit) :
    jit.Serves firstOperand x86Flags code 0x401000 where
  entry := h.entry
  key := h.key
  certified := ⟨live, h.certified, fun f => by rw [h.entry]; rfl⟩
  source := by
    rw [h.jumpTable]
    decide

end Poll

end UserspaceBypass
