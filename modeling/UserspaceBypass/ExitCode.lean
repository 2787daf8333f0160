import UserspaceBypass.ControlFlow
import UserspaceBypass.FileRun
import UserspaceBypass.KernelExe

/-! From the end of translated code to the record of the kernel. The exit code of `wrapper.S` saves
R12 to R14 into the frame and pops the frame into `args` and `pt_regs`; `exe_on_call` reads `args[0]`
as a status or as the source of an indirect jump. A ladder that finds no target, the stub of a
missing callee and a SYSCALL line arrive there with different codes. -/

namespace UserspaceBypass

open Layout

/-- The fields of `pt_regs` that the exit code writes. -/
inductive PtField where
  | r15 | r14 | r13 | r12 | bp | bx | r11 | r10 | r9 | r8 | ax | cx | dx | si | di | ip | sp
  deriving DecidableEq, Repr

def PtRegs.set (regs : PtRegs) (value : BitVec 64) : PtField → PtRegs
  | .r15 => { regs with r15 := value }
  | .r14 => { regs with r14 := value }
  | .r13 => { regs with r13 := value }
  | .r12 => { regs with r12 := value }
  | .bp => { regs with bp := value }
  | .bx => { regs with bx := value }
  | .r11 => { regs with r11 := value }
  | .r10 => { regs with r10 := value }
  | .r9 => { regs with r9 := value }
  | .r8 => { regs with r8 := value }
  | .ax => { regs with ax := value }
  | .cx => { regs with cx := value }
  | .dx => { regs with dx := value }
  | .si => { regs with si := value }
  | .di => { regs with di := value }
  | .ip => { regs with ip := value }
  | .sp => { regs with sp := value }

/-- The exit code runs on the machine, with RSP at the frame index `top`. -/
structure ExitState where
  machine : Machine
  top : Nat
  regs : PtRegs
  arg : BitVec 64
  arg2 : BitVec 64

/-- The instructions of the exit code. -/
inductive ExitInst where
  /-- `mov Stack_.., g` -/
  | save (slot : Nat) (g : Gpr)
  /-- `mov PT_REG, Stack_PT_REG` and `mov ARG_REG, Stack_ARG_REG` -/
  | load (p : Phys) (slot : Nat)
  | popArg2
  | popArg
  | pop (field : PtField)
  /-- `Add RSP, n*8` -/
  | add (n : Nat)
  | put (field : PtField) (g : Gpr)
  deriving DecidableEq, Repr

def ExitState.popped (s : ExitState) : BitVec 64 := s.machine.frame s.top

def ExitInst.exec (s : ExitState) : ExitInst → ExitState
  | .save slot g => { s with machine := s.machine.setSlot slot (s.machine.regs (.gpr g)) }
  | .load p slot => { s with machine := s.machine.setReg p (s.machine.frame slot) }
  | .popArg2 => { s with arg2 := s.popped, top := s.top - 1 }
  | .popArg => { s with arg := s.popped, top := s.top - 1 }
  | .pop field => { s with regs := s.regs.set s.popped field, top := s.top - 1 }
  | .add n => { s with top := s.top - n }
  | .put field g => { s with regs := s.regs.set (s.machine.regs (.gpr g)) field }

/-- The code under `exit`, up to the registers it restores for its caller. -/
def exitText : List ExitInst :=
  [.save 16 .r14, .save 9 .r13, .save 8 .r12, .load .p14 6, .load .p15 7, .popArg2, .popArg,
    .pop .ip, .add 2, .pop .r12, .pop .r13, .pop .r14, .pop .r15, .pop .sp, .pop .bp,
    .put .bx .rbx, .put .r11 .r11, .put .r10 .r10, .put .r9 .r9, .put .r8 .r8, .put .ax .rax,
    .put .cx .rcx, .put .dx .rdx, .put .si .rsi, .put .di .rdi]

/-- RSP stands at `Stack_INST_CNT` while translated code runs; `args` comes in with the two segment
bases. -/
def runExit (c : Machine) (regs : PtRegs) (fs gs : BitVec 64) : ExitState :=
  exitText.foldl ExitInst.exec ⟨c, 18, regs, fs, gs⟩

/-- What the pops bring where. -/
theorem runExit_spec (c : Machine) (regs : PtRegs) (fs gs : BitVec 64) :
    (runExit c regs fs gs).arg = c.frame ijSlot ∧ (runExit c regs fs gs).regs =
      { r15 := c.frame 10, r14 := c.frame 11, r13 := c.frame 12, r12 := c.frame 13,
        bp := c.regs (.gpr .r12), bx := c.regs (.gpr .rbx), r11 := c.regs (.gpr .r11),
        r10 := c.regs (.gpr .r10), r9 := c.regs (.gpr .r9), r8 := c.regs (.gpr .r8),
        ax := c.regs (.gpr .rax), cx := c.regs (.gpr .rcx), dx := c.regs (.gpr .rdx),
        si := c.regs (.gpr .rsi), di := c.regs (.gpr .rdi), origAx := regs.origAx,
        ip := c.regs (.gpr .r14), flags := regs.flags, sp := c.regs (.gpr .r13) } := by
  simp [runExit, exitText, ExitInst.exec, ExitState.popped, Machine.setSlot, Machine.setReg,
    PtRegs.set, ijSlot, Phys.gpr]

/-- Why translated code returns. -/
inductive Exit where
  | syscall
  | call
  | ij (source : BitVec 64)

def Exit.arg : Exit → BitVec 64
  | .syscall => argNormal
  | .call => argCallMiss
  | .ij source => source

/-- What the kernel keeps of an exit at `ip`: nothing of a system call, kind and target of a missing
callee, kind, source and target of an indirect jump. -/
def Exit.Recorded (exit : Exit) (ip : BitVec 64) (exe exe' : ExeInfo) : Prop :=
  match exit with
  | .syscall => ∃ n, exe' = { exe with successCnt := n }
  | .call => exe' =
      { exe with statusCode := .callMiss, tgtAddr := ip, failCnt := exe.failCnt + 1 }
  | .ij source => exe' =
      { exe with statusCode := .ijMiss, jumpFrom := source, tgtAddr := ip,
                 failCnt := exe.failCnt + 1 }

/-- The code comes to the exit code, which returns the code of `exit` with `regs->ip` set to `ip`;
and `exe_on_call`, its counters permitting, records that. -/
def ReturnsAs (isa : Isa) (file : List (Item Label Asm)) (code : List Asm) (c : Machine)
    (exit : Exit) (ip : BitVec 64) : Prop :=
  ∃ c', Exits isa file code c c' ∧ ∀ regs fs gs,
    (runExit c' regs fs gs).arg = exit.arg ∧ (runExit c' regs fs gs).regs.ip = ip ∧
      ∀ exe : ExeInfo, exe.successCnt < exe.failCnt →
        exit.Recorded ip exe (exe.afterCall (runExit c' regs fs gs).regs (runExit c' regs fs gs).arg)

/-- The exits of a file: the ladders for every content of R14, the missing callees, and the lines of
SYSCALL with the address of their instruction. -/
structure Unambiguous (isa : Isa) (file : List (Item Label Asm)) (table : JumpTable)
    (callees : List Nat) (emitted : List (Nat × List Emitted)) : Prop where
  hit : ∀ x targets, (x, targets) ∈ table.entries → ∀ t ∈ targets, ∀ c : Machine,
    c.regs (.gpr .r14) = BitVec.ofNat 64 t →
      ∃ c', Goes isa file (.ij x, c) (.loc t, c') ∧ OnlyR15 c c'
  miss : ∀ x targets, (x, targets) ∈ table.entries → ∀ c : Machine,
    (∀ t ∈ targets, c.regs (.gpr .r14) ≠ BitVec.ofNat 64 t) →
      ReturnsAs isa file (codeAt file (.ij x)) c (.ij (BitVec.ofNat 64 x)) (c.regs (.gpr .r14))
  callee : ∀ callee ∈ callees, ∀ c,
    ReturnsAs isa file (codeAt file (.loc callee)) c .call (BitVec.ofNat 64 callee)
  syscall : ∀ b ∈ emitted, ∀ e ∈ b.2, e.line.name = "SYSCALL" → ∀ c,
    ReturnsAs isa file e.text c .syscall (BitVec.ofNat 64 (e.offset - e.line.l))

/-- No source is a status, so that each code is recorded as what it is. -/
theorem Exit.recorded (exit : Exit)
    (hsource : ∀ x, exit = .ij x → x ≠ argNormal ∧ x ≠ argCallMiss) (exe : ExeInfo)
    (hcnt : exe.successCnt < exe.failCnt) (regs : PtRegs) :
    exit.Recorded regs.ip exe (exe.afterCall regs exit.arg) := by
  cases exit with
  | syscall =>
      simp only [Exit.Recorded, Exit.arg, ExeInfo.afterCall, if_true]
      split_ifs
      · exact ⟨_, rfl⟩
      · exact ⟨exe.successCnt, rfl⟩
  | call => simp [Exit.Recorded, Exit.arg, ExeInfo.afterCall, hcnt, argNormal, argCallMiss]
  | ij x =>
      obtain ⟨hnormal, hcall⟩ := hsource x rfl
      simp [Exit.Recorded, Exit.arg, ExeInfo.afterCall, hcnt, hnormal, hcall]

section File

variable {isa : Isa} {file : List (Item Label Asm)} {code : List Asm} {c c' : Machine} {exit : Exit}

/-- A return is known from `Stack_IJ` and R14 at the exit. -/
theorem returnsAs_of_exits (hexits : Exits isa file code c c') (harg : c'.frame ijSlot = exit.arg)
    (hsource : ∀ x, exit = .ij x → x ≠ argNormal ∧ x ≠ argCallMiss) :
    ReturnsAs isa file code c exit (c'.regs (.gpr .r14)) := by
  refine ⟨c', hexits, fun regs fs gs => ?_⟩
  obtain ⟨hij, hregs⟩ := runExit_spec c' regs fs gs
  have hip : (runExit c' regs fs gs).regs.ip = c'.regs (.gpr .r14) := by rw [hregs]
  refine ⟨hij.trans harg, hip, fun exe hcnt => ?_⟩
  rw [hij, harg, ← hip]
  exact exit.recorded hsource exe hcnt _

theorem goes_compSyscall (hstub : codeAt file .compSyscall = [.setIj 0, .jump "JMP" .exit])
    (c : Machine) : Goes isa file (.compSyscall, c) (.exit, c.setSlot ijSlot 0) := by
  rw [Goes, hstub]
  rfl

/-- A text that jumps to `comp_syscall` returns `normal`, at the address in R14. -/
theorem returnsAs_syscall_iff (hleaves : leaves isa code c = some (.compSyscall, c'))
    (hstub : codeAt file .compSyscall = [.setIj 0, .jump "JMP" .exit])
    (hexit : codeAt file .exit = []) {ip : BitVec 64} :
    ReturnsAs isa file code c .syscall ip ↔ c'.regs (.gpr .r14) = ip := by
  have hgoes : Goes isa file (.compSyscall, c') (.exit, c'.setSlot ijSlot 0) :=
    goes_compSyscall hstub c'
  constructor
  · rintro ⟨c₂, hexits, hreturn⟩
    obtain rfl := exits_unique hleaves nofun hgoes hexit hexits
    obtain ⟨-, hip, -⟩ := hreturn default 0 0
    rw [(runExit_spec _ _ _ _).2] at hip
    exact hip
  · rintro rfl
    have hexits : Exits isa file code c (c'.setSlot ijSlot 0) := ⟨_, hleaves, .single hgoes⟩
    have harg : (c'.setSlot ijSlot 0).frame ijSlot = Exit.syscall.arg := setSlot_frame_self ..
    have hreturn := returnsAs_of_exits hexits harg nofun
    exact hreturn

theorem syscall_steps {line : Line} (hname : line.name = "SYSCALL") (blockEnd canCheck : Bool) :
    translate line blockEnd canCheck =
      if getInstName line = "SYSCALL" then [.stub .compSyscall] else [] := by
  have hspecial : line.name ∈ specialInstruction := by
    rw [hname]
    decide
  -- another name than SYSCALL is a prefixed one, and no branch of the dispatch has a prefix
  have hother : ∀ name ∈ specialInstruction, name ≠ "SYSCALL" → getInstName line ≠ name := by
    rintro name hmem hne rfl
    exact hne ((name_of_getInstName rfl hmem).symm.trans hname)
  rw [translate, if_pos hspecial, specialInstDispatch]
  simp only [hname, hother "ENDBR64" (by decide) (by decide), hother "CALL" (by decide) (by decide),
    hother "PUSH" (by decide) (by decide), hother "POP" (by decide) (by decide),
    hother "RET" (by decide) (by decide), hother "LEAVE" (by decide) (by decide),
    hother "INVLPG" (by decide) (by decide), if_false, false_or, String.reduceEq]

/-- The address two bytes back is the address of the instruction if it has two bytes. -/
theorem ofNat_sub_two_eq {offset l : Nat} (hlen : 2 ≤ l ∧ l ≤ 15) (hoffset : l ≤ offset) :
    BitVec.ofNat 64 (offset - 2) = BitVec.ofNat 64 (offset - l) ↔ l = 2 := by
  constructor
  · intro h
    have hmod := congrArg BitVec.toNat h
    rw [BitVec.toNat_ofNat, BitVec.toNat_ofNat] at hmod
    omega
  · rintro rfl
    rfl

/-- A SYSCALL line returns with its own address, unless it has a prefix, with which it emits nothing,
or is longer than the two bytes its address is computed with. -/
theorem syscall_returns_iff {world : World} {line : Line} {offset : Nat} {blockEnd canCheck : Bool}
    {t t' : TransState} {text : List Asm}
    (hstub : codeAt file .compSyscall = [.setIj 0, .jump "JMP" .exit])
    (hexit : codeAt file .exit = [])
    (hrun : runSteps world offset (translate line blockEnd canCheck) t = some (text, t'))
    (hname : line.name = "SYSCALL") (hlen : 2 ≤ line.l ∧ line.l ≤ 15) (hoffset : line.l ≤ offset) :
    ReturnsAs isa file text c .syscall (BitVec.ofNat 64 (offset - line.l)) ↔
      getInstName line = "SYSCALL" ∧ line.l = 2 := by
  rw [syscall_steps hname] at hrun
  by_cases hplain : getInstName line = "SYSCALL"
  · rw [if_pos hplain] at hrun
    cases hrun
    have hleaves : leaves isa [.movabs .p14 (offset - 2), .jump "JMP" .compSyscall] c =
        some (.compSyscall, c.setReg .p14 (BitVec.ofNat 64 (offset - 2))) := rfl
    have hr14 : (c.setReg .p14 (BitVec.ofNat 64 (offset - 2))).regs (.gpr .r14) =
        BitVec.ofNat 64 (offset - 2) := setReg_regs_self c .p14 _
    change ReturnsAs isa file [.movabs .p14 (offset - 2), .jump "JMP" .compSyscall] c _ _ ↔ _
    rw [returnsAs_syscall_iff hleaves hstub hexit, hr14, ofNat_sub_two_eq hlen hoffset]
    exact (and_iff_right hplain).symm
  · rw [if_neg hplain] at hrun
    cases hrun
    refine iff_of_false ?_ fun h => hplain h.1
    rintro ⟨c', ⟨p, hleaves, -⟩, -⟩
    cases hleaves

end File

section Codes

variable {isa : Isa} {world : World} {entry : Nat} {emitted : List (Nat × List Emitted)}

theorem ladder_returns (hisa : isa.Compares) (table : JumpTable) (callees : List Nat) {x : Nat}
    {targets : List Nat} (hmem : (x, targets) ∈ table.entries) {c : Machine}
    (hr14 : ∀ t ∈ targets, c.regs (.gpr .r14) ≠ BitVec.ofNat 64 t) :
    ReturnsAs isa (jitFile entry emitted table.entries callees)
      (codeAt (jitFile entry emitted table.entries callees) (.ij x)) c (.ij (BitVec.ofNat 64 x))
      (c.regs (.gpr .r14)) := by
  obtain ⟨c₁, hleaves, honly, hr15⟩ := ladder_miss hisa hr14
  obtain ⟨hlow, hhigh⟩ := table.source _ hmem
  have hgoes : Goes isa (jitFile entry emitted table.entries callees) (.ijFailed, c₁)
      (.exit, c₁.setSlot ijSlot (c₁.regs (.gpr .r15))) := by
    rw [Goes, codeAt_ijFailed]
    rfl
  have harg : (c₁.setSlot ijSlot (c₁.regs (.gpr .r15))).frame ijSlot =
      (Exit.ij (BitVec.ofNat 64 x)).arg := (setSlot_frame_self ..).trans hr15
  have hsource : ∀ y, Exit.ij (BitVec.ofNat 64 x) = .ij y → y ≠ argNormal ∧ y ≠ argCallMiss := by
    rintro y ⟨⟩
    constructor <;> intro h <;>
    · have hnat := congrArg BitVec.toNat h
      rw [BitVec.toNat_ofNat, Nat.mod_eq_of_lt hhigh] at hnat
      simp [argNormal, argCallMiss] at hnat
      omega
  rw [codeAt_ij table.nodup hmem, ← honly.regs (.gpr .r14) (by decide)]
  have hreturn := returnsAs_of_exits ⟨_, hleaves, .single hgoes⟩ harg hsource
  exact hreturn

theorem callee_returns (table : JumpTable) {callees : List Nat} {callee : Nat}
    (hmem : callee ∈ callees) (hmissing : callee ∉ emitted.map Prod.fst) (c : Machine) :
    ReturnsAs isa (jitFile entry emitted table.entries callees)
      (codeAt (jitFile entry emitted table.entries callees) (.loc callee)) c .call
      (BitVec.ofNat 64 callee) := by
  have hleaves : leaves isa (calleeStub callee) c =
      some (.exit, (c.setReg .p14 (BitVec.ofNat 64 callee)).setSlot ijSlot 1) := rfl
  have harg : ((c.setReg .p14 (BitVec.ofNat 64 callee)).setSlot ijSlot 1).frame ijSlot =
      Exit.call.arg := setSlot_frame_self ..
  have hr14 : ((c.setReg .p14 (BitVec.ofNat 64 callee)).setSlot ijSlot 1).regs (.gpr .r14) =
      BitVec.ofNat 64 callee := setReg_regs_self c .p14 _
  rw [codeAt_callee hmem hmissing, ← hr14]
  exact returnsAs_of_exits ⟨_, hleaves, .refl⟩ harg nofun

/-- **Exit codes.** For every table and every list of missing callees each ladder, each callee and
each system call returns with its own code and is recorded as what it is, if and only if the SYSCALL
lines are plain ones: without a prefix, and of two bytes. -/
theorem exit_codes_iff (hisa : isa.Compares) {blocks : List (Nat × Block)} {t last : TransState}
    (hrun : translateBlocks world blocks t = some (emitted, last))
    (hlen : ∀ b ∈ emitted, ∀ e ∈ b.2, e.line.name = "SYSCALL" → 2 ≤ e.line.l ∧ e.line.l ≤ 15)
    (table : JumpTable) (callees : List Nat) (hmissing : ∀ a ∈ callees, a ∉ emitted.map Prod.fst)
    (entry : Nat) :
    Unambiguous isa (jitFile entry emitted table.entries callees) table callees emitted ↔
      ∀ b ∈ emitted, ∀ e ∈ b.2, e.line.name = "SYSCALL" →
        getInstName e.line = "SYSCALL" ∧ e.line.l = 2 := by
  have hsyscall : ∀ b ∈ emitted, ∀ e ∈ b.2, e.line.name = "SYSCALL" → ∀ c,
      (ReturnsAs isa (jitFile entry emitted table.entries callees) e.text c .syscall
        (BitVec.ofNat 64 (e.offset - e.line.l)) ↔
          getInstName e.line = "SYSCALL" ∧ e.line.l = 2) := by
    intro b hb e he hname c
    obtain ⟨block, t₁, t₂, -, hblock⟩ := translateBlocks_mem hrun hb
    obtain ⟨before, after, -, hoffset⟩ := translateLines_mem hblock he
    exact syscall_returns_iff codeAt_compSyscall codeAt_exit ((translateLines_run hblock).1 e he)
      hname (hlen b hb e he hname) (by omega)
  constructor
  · intro h b hb e he hname
    exact (hsyscall b hb e he hname _).mp (h.syscall b hb e he hname raxMachine)
  · intro h
    refine ⟨?_, ?_, ?_, ?_⟩
    · intro x targets hmem t ht c hr14
      obtain ⟨c', hleaves, honly⟩ := ladder_hit hisa (table.target _ hmem) ht hr14
      refine ⟨c', ?_, honly⟩
      rw [Goes, codeAt_ij table.nodup hmem]
      exact hleaves
    · intro x targets hmem c hr14
      exact ladder_returns hisa table callees hmem hr14
    · intro callee hmem c
      exact callee_returns table hmem (hmissing callee hmem) c
    · intro b hb e he hname c
      exact (hsyscall b hb e he hname c).mpr (h b hb e he hname)

end Codes

/-- SYSCALL behind a REP prefix, which the processor ignores. -/
def repSyscall : Line := { name := "SYSCALL", g1 := 12, args := [], l := 3 }

/-- The prefixed SYSCALL emits nothing, and so does not return to the kernel. -/
theorem prefixed_syscall_does_not_return :
    ∃ emitted last, translateBlocks .standard [(0x401000, ⟨[repSyscall], []⟩)]
        .start = some (emitted, last) ∧
      ∀ isa table callees,
        ¬Unambiguous isa (jitFile 0x401000 emitted table.entries callees) table callees emitted := by
  have hflags : checkFlagDefUse [repSyscall] = [false] := by decide
  have hblock : translateBlock .standard 0x401000 ⟨[repSyscall], []⟩ .start =
      some ([⟨repSyscall, 0x401003, true, false, .start, [], .start⟩], .start) := by
    rw [translateBlock, hflags]
    exact translateLines_step rfl rfl rfl rfl
  refine ⟨_, _, by rw [translateBlocks, hblock]; rfl, fun isa table callees h => ?_⟩
  obtain ⟨c', ⟨p, hleaves, -⟩, -⟩ :=
    h.syscall _ List.mem_cons_self _ List.mem_cons_self rfl raxMachine
  cases hleaves

/-- An instruction set with CMP alone. -/
def compareIsa : Isa where
  exec name operands _ env :=
    match operands with
    | [.reg 64 a, .reg 64 b] =>
        if name = "CMP" then
          some ⟨[], fun _ => none, { env with flags := Function.update env.flags .zf (a = b) }⟩
        else none
    | _ => none
  shiftFlags _ _ flags := flags

theorem compareIsa_compares : compareIsa.Compares := by
  intro a b hidden env
  exact ⟨_, rfl, by simp, rfl, rfl, nofun, fun _ => rfl⟩

/-- One indirect jump with one target. -/
def oneJump : JumpTable where
  entries := [(0x401100, [0x401200])]
  nodup := by decide
  source := by decide
  target := by decide

theorem exit_codes_oneJump :
    ∃ emitted last, translateBlocks .standard [(0x401000, ⟨[syscallLine], []⟩)]
        .start = some (emitted, last) ∧
      Unambiguous compareIsa (jitFile 0x401000 emitted oneJump.entries [0x401300]) oneJump
        [0x401300] emitted := by
  have hflags : checkFlagDefUse [syscallLine] = [false] := by decide
  have hblock : translateBlock .standard 0x401000 ⟨[syscallLine], []⟩ .start =
      some ([⟨syscallLine, 0x401002, true, false, .start,
        [.movabs .p14 0x401000, .jump "JMP" .compSyscall], .start⟩], .start) := by
    rw [translateBlock, hflags]
    exact translateLines_step rfl rfl rfl rfl
  have hrun : translateBlocks .standard [(0x401000, ⟨[syscallLine], []⟩)] .start =
      some ([(0x401000, [⟨syscallLine, 0x401002, true, false, .start,
        [.movabs .p14 0x401000, .jump "JMP" .compSyscall], .start⟩])], .start) := by
    rw [translateBlocks, hblock]
    rfl
  refine ⟨_, _, hrun, ?_⟩
  refine (exit_codes_iff compareIsa_compares hrun ?_ oneJump [0x401300] ?_ 0x401000).mpr ?_
  · simp [syscallLine]
  · simp
  · have hplain : getInstName syscallLine = "SYSCALL" ∧ syscallLine.l = 2 := ⟨rfl, rfl⟩
    simp [hplain]

end UserspaceBypass
