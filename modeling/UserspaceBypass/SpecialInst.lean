import UserspaceBypass.IndirectJump
import UserspaceBypass.IndirectTransfer
import UserspaceBypass.StackWords
import UserspaceBypass.TranslateFile

/-! The special instructions as a whole: what each does to RSP, memory and control, and what the
dispatcher makes of it. The dispatcher compares the name with its prefixes where `translate` and
`find` compare the mnemonic, so that a prefixed CALL or RET is registered and emits nothing. -/

namespace UserspaceBypass

open StraightLine Memory

variable {isa : Isa} {world : World} {offset : Nat} {stale : Finset ExprInt}

def StackOp.mnemonic : StackOp → String
  | .push => "PUSH"
  | .pop => "POP"

/-- Where control goes: on to the next line, to the block of an address, to an address that is only
known at run time, or out of the code at an address. -/
inductive Control where
  | next
  | block (address : Nat)
  | through (target : BitVec 64)
  | out (address : BitVec 64)

/-- The instructions `special_instruction` lists. -/
inductive Special where
  | nop
  | endbr64
  | call (target : Expr)
  | ret (release : Nat)
  | stack (op : StackOp) (arg : Expr)
  | leave
  | pushf
  | popf
  | syscall
  | invlpg

namespace Special

/-- The status flags in EFLAGS, with interrupts on. -/
def flagsWord (flags : Flag → Bool) : BitVec 64 :=
  [(Flag.cf, 0x1), (.pf, 0x4), (.af, 0x10), (.zf, 0x40), (.sf, 0x80), (.of, 0x800)].foldl
    (fun word f => if flags f.1 then word ||| f.2 else word) 0x202#64

def mnemonic : Special → String
  | .nop => "NOP"
  | .endbr64 => "ENDBR64"
  | .call _ => "CALL"
  | .ret _ => "RET"
  | .stack op _ => op.mnemonic
  | .leave => "LEAVE"
  | .pushf => "PUSHF"
  | .popf => "POPF"
  | .syscall => "SYSCALL"
  | .invlpg => "INVLPG"

/-- The forms x86-64 has: operands, and the length of SYSCALL with any prefixes. PUSH and POP of FS and
GS are not among them; no `ExprId` here stands for a selector. -/
def Form (line : Line) : Special → Prop
  | .call target => line.args = [target] ∧ (target.Legal64 ∨ ∃ a, target = .loc a)
  | .ret release => line.args = [] ∧ release = 0 ∨ line.args = [.int ⟨release, 16⟩] ∧ release < 2 ^ 16
  | .stack op arg => line.args = [arg] ∧ (op.Legal arg ∨ op.Legal16 arg)
  | .syscall => 2 ≤ line.l ∧ line.l ≤ 15
  | _ => True

/-- The lines that are the instruction. -/
structure Decodes (sp : Special) (line : Line) : Prop where
  name : line.name = sp.mnemonic
  form : sp.Form line

/-- The instruction at `address`, with the next one at `next`: RSP, memory and control. -/
def exec (address next : BitVec 64) : Special → State → State × Control
  | .nop, s | .endbr64, s => (s, .next)
  | .call (.loc a), s => (s.push next, .block a)
  | .call target, s => (s.push next, .through (s.value next target))
  | .ret release, s => (s.moveSp (8 + BitVec.ofNat 64 release), .through (load64 s.env.mem s.sp))
  | .stack op arg, s =>
      (if arg.size = some 16 then op.exec16 next arg s else op.exec next arg s, .next)
  | .leave, s => ((s.set (.gpr .rsp) (s.regs (.gpr .rbp))).pop next (.id rbp), .next)
  | .pushf, s => (s.push (flagsWord s.env.flags), .next)
  | .popf, s => (s.moveSp 8, .next)
  | .syscall, s | .invlpg, s => (s, .out address)

end Special

namespace Control

/-- How the text of the transfer is made up: the body, and behind it the jump. -/
def Ends (offset : Nat) (text body : List Asm) : Control → Prop
  | .next => text = body
  | .block a => text = body ++ [.jump "JMP" (.loc a)]
  | .through _ => text = body ++ [.jump "JMP" (.ij offset)]
  | .out _ => ∃ l ∈ wrapperLabels.map Prod.fst, text = body ++ [.jump "JMP" l]

/-- The address that is handed over in R14. -/
def passes : Control → Option (BitVec 64)
  | .through target => some target
  | .out address => some address
  | _ => none

end Control

/-- RSP, which is in R13, memory and the address that is handed over are right. -/
structure Left (s : State) (transfer : Control) (c : Machine) : Prop where
  stack : c.regs (.gpr .r13) = s.sp
  mem : c.env.mem = s.env.mem
  target : ∀ a ∈ transfer.passes, c.regs (.gpr .r14) = a

/-- What the dispatcher handles: NOP and ENDBR64, and of the others, without a prefix, LEAVE, RET
without an operand, SYSCALL of two bytes, PUSH and POP as above, and CALL where its return address
prints as it is, to a label or through a register that is safe. -/
def Special.Handled (resave : Bool) (offset : Nat) (line : Line) (t : TransState) : Special → Prop
  | .nop | .endbr64 => True
  | .pushf | .popf | .invlpg => False
  | .leave => getInstName line = line.name
  | .ret release => getInstName line = line.name ∧ release = 0
  | .syscall => getInstName line = line.name ∧ line.l = 2
  | .stack op arg => getInstName line = line.name ∧ op.Handles t.heap arg
  | .call (.loc _) => getInstName line = line.name ∧ IndirectBranch.SavesNext resave offset t.heap
  | .call arg => getInstName line = line.name ∧ IndirectBranch.call.Safe resave offset t arg ∧
      arg.isMem = false

section Falls

variable {m : RegMap} {s : State} {c : Machine}

/-- The flush at the end of a line touches neither registers nor memory. -/
theorem exec_release (isa : Isa) (hm : m.Injective) (blockEnd : Bool) (c : Machine) :
    ∃ c', execText isa (releaseConflict m blockEnd) c = some c' ∧ c'.regs = c.regs ∧ c'.env = c.env := by
  cases blockEnd with
  | false => exact ⟨c, rfl, rfl, rfl⟩
  | true =>
      obtain ⟨c', hexec, hregs, henv, -⟩ := exec_releaseConflict isa hm c
      exact ⟨c', hexec, hregs, henv⟩

theorem Left.congr {transfer : Control} {c' : Machine} (hregs : c'.regs = c.regs)
    (henv : c'.env = c.env) : Left s transfer c' ↔ Left s transfer c := by
  constructor <;> rintro ⟨hstack, hmem, htarget⟩
  · exact ⟨by rw [← hregs]; exact hstack, by rw [← henv]; exact hmem, by rw [← hregs]; exact htarget⟩
  · exact ⟨by rw [hregs]; exact hstack, by rw [henv]; exact hmem, by rw [hregs]; exact htarget⟩

end Falls

section Lines

variable {t : TransState} {line : Line} {sp : Special} {resave blockEnd canCheck : Bool} {address : Nat}

end Lines

section Handlers

variable {t : TransState} {resave : Bool}

/-- The calls by which RET loads its target. -/
def retFront : List Step :=
  [.resolve .t2, .normal "MOV" [.id (.tmp .t2), .dict (makeMemDict 64 rsp 0)] false, .moveStack 8]

theorem ran_retFront (hisa : isa.Moves) (h : Start t stale) (world : World) (offset : Nat) :
    ∃ text t', runSteps world offset retFront t = some (text, t') ∧ Held t'.regMap (some .t2) ∧
      Executes isa text ∧ Sim isa text t.regMap t'.regMap fun s s' =>
        (s.moveSp 8).Same s' ∧ s'.regs (.tmp .t2) = load64 s.env.mem s.sp := by
  obtain ⟨text₁, t₁, hresolve⟩ := Step.run_resolve h.held.map world .t2
  have held₁ := h.held.resolve hresolve
  obtain ⟨exec₁, sim₁⟩ := @Held.sim_resolve isa _ _ _ _ _ _ h.held hresolve
  obtain ⟨text₂, t₂, hload⟩ := (topMove_load (.tmp .t2)).run_tmp held₁ world offset
  obtain ⟨held₂, heap₂, exec₂, sim₂⟩ := ran_loadTop hisa rfl (onlyHeld_tmp .t2) held₁ hload
  have hheap : t₂.heap.Matches stale := by
    rw [heap₂, Step.run_heap hresolve]
    exact h.heap
  obtain ⟨text₃, t₃, hmove⟩ := run_moveStack .pop held₂.map hheap world offset
  obtain ⟨held₃, -, exec₃, sim₃⟩ := ran_moveStack hisa .pop held₂ hheap hmove
  refine ⟨_, t₃, runSteps_some hresolve (runSteps_some hload (runSteps_some hmove rfl)), held₃, ?_, ?_⟩
  · rw [List.append_nil]
    exact total_append exec₁ (total_append exec₂ exec₃)
  · rw [List.append_nil]
    refine (sim₁.append (sim₂.append sim₃)).mono ?_
    rintro s s₃ ⟨s₁, hs₁, s₂, rfl, rfl⟩
    refine ⟨(hs₁.trans (s₁.same_setTmp .t2 _)).moveSp 8, ?_⟩
    rw [State.moveSp_regs, moveSp, Function.update_of_ne (by rintro ⟨⟩), State.set_regs, load64_same hs₁]

/-- The calls of LEAVE. -/
def leaveFront : List Step := .normal "MOV" [.id rsp, .id rbp] false :: processPop (.id rbp)

theorem implements_leaveFront (hisa : isa.Moves) (h : Start t stale) (world : World) (offset : Nat)
    (next : BitVec 64) :
    ∃ text t', runSteps world offset leaveFront t = some (text, t') ∧
      Implements isa text t.regMap t'.regMap fun s =>
        (s.set (.gpr .rsp) (s.regs (.gpr .rbp))).pop next (.id rbp) := by
  have hcall : (Step.normal "MOV" [.id rsp, .id rbp] false).call world offset t.heap =
      some ⟨"MOV", [.reg rsp, .reg rbp], false⟩ := rfl
  have hconflict : ∀ v ∈ conflictRegs [.reg rsp, .reg rbp], v = .sp ∨ v = .bp := by decide
  have hres : ∀ v ∈ conflictRegs [.reg rsp, .reg rbp], t.regMap.Resident v := by
    intro v hv
    rcases hconflict v hv with rfl | rfl
    · exact ⟨.p13, h.held.map.sp⟩
    · exact ⟨.p12, h.held.map.bp⟩
  obtain ⟨text₁, t₁, hmove⟩ := Step.run_of_room hcall h.held.map (room_of_resident hres) (by simp)
  obtain ⟨held₁, sim₁, exec₁⟩ := h.held.ran_call hcall (fun v hv ht => by
    rcases hconflict v hv with rfl | rfl <;> cases ht) (fun s => exec_move hisa rfl rfl) hmove
  have heap₁ : t₁.heap = t.heap := Step.run_heap hmove
  have h₁ : Start t₁ stale := ⟨held₁, heap₁ ▸ h.heap⟩
  obtain ⟨text₂, t₂, hpop⟩ := @run_popReg _ _ .rbp h₁ world offset
  obtain ⟨sim₂, exec₂⟩ := sim_popReg hisa h₁ hpop
  have hexec := total_append (exec₁ fun hip => absurd (hconflict _ hip) (by decide)) exec₂
  refine ⟨_, t₂, runSteps_some hmove hpop, hexec, (sim₁.append sim₂).mono ?_⟩
  rintro s s₂ ⟨s₁, rfl, hs⟩
  rw [State.moveSp_set (by decide)] at hs
  exact hs

end Handlers

section Dispatch

variable {t : TransState} {line : Line} {resave blockEnd canCheck : Bool} {address : Nat}

theorem translate_call (hname : line.name = "CALL") (hplain : getInstName line = line.name)
    {target : Expr} (hargs : line.args = [target]) :
    translate line blockEnd canCheck = callFront ++ processJump "JMP" target := by
  rw [← process_call]
  simp [translate, specialInstDispatch, specialInstruction, hplain, hname, hargs, firstArg,
    IndirectBranch.process]

theorem translate_stack {op : StackOp} (hname : line.name = op.mnemonic)
    (hplain : getInstName line = line.name) {arg : Expr} (hargs : line.args = [arg]) :
    translate line blockEnd canCheck = op.process arg ++ [.release blockEnd] := by
  cases op <;>
    simp [translate, specialInstDispatch, specialInstruction, hplain, hname, hargs, firstArg,
      StackOp.process, StackOp.mnemonic]

theorem translate_ret (hname : line.name = "RET") (hplain : getInstName line = line.name) :
    translate line blockEnd canCheck = retFront ++ [.jumpReg "JMP" (.tmp .t2)] := by
  simp [translate, specialInstDispatch, specialInstruction, hplain, hname, retFront, processPop,
    processJump, Expr.size, ExprId.size]

theorem translate_leave (hname : line.name = "LEAVE") (hplain : getInstName line = line.name) :
    translate line blockEnd canCheck = leaveFront ++ [.release blockEnd] := by
  simp [translate, specialInstDispatch, specialInstruction, hplain, hname, leaveFront]

theorem translate_nop (hname : line.name = "NOP") :
    translate line blockEnd canCheck = [.nop, .release blockEnd] := by
  simp [translate, specialInstDispatch, specialInstruction, hname]

theorem translate_endbr64 (hname : line.name = "ENDBR64") (hplain : getInstName line = line.name) :
    translate line blockEnd canCheck = [.nop, .release blockEnd] := by
  simp [translate, specialInstDispatch, specialInstruction, hname, hplain]

theorem translate_stub (hplain : getInstName line = line.name) {target : Label}
    (hname : line.name = "SYSCALL" ∧ target = .compSyscall ∨
      line.name = "INVLPG" ∧ target = .illInst) :
    translate line blockEnd canCheck = [.stub target] := by
  rcases hname with ⟨hname, rfl⟩ | ⟨hname, rfl⟩ <;>
    simp [translate, specialInstDispatch, specialInstruction, hplain, hname]

end Dispatch

section Visible

variable {line : Line} {sp : Special} {s : State} {address next : BitVec 64}

/-- A state in which every instruction but NOP and ENDBR64 shows in RSP or in control: the registers
are zero, and the word at the top of the stack is not. -/
structure State.Blank (s : State) : Prop where
  regs : ∀ g, s.regs (.gpr g) = 0
  mem : s.env.mem = point 0

theorem State.Blank.sp_eq (h : s.Blank) : s.sp = 0 := h.regs .rsp

theorem State.Blank.top (h : s.Blank) : load64 s.env.mem s.sp = 1 := by
  rw [h.mem, h.sp_eq]
  exact load64_point (by decide) 0

end Visible

section Whole

variable {t : TransState} {line : Line} {sp : Special} {resave blockEnd canCheck : Bool}
  {address : Nat}

theorem Special.Decodes.special (h : sp.Decodes line) : line.name ∈ specialInstruction := by
  rw [h.name]
  cases sp with
  | stack op arg => cases op <;> simp [Special.mnemonic, StackOp.mnemonic, specialInstruction]
  | _ => simp [Special.mnemonic, specialInstruction]

/-- Whatever is handled, NOP and ENDBR64 apart, has no prefix. -/
theorem Special.Handled.plain {offset : Nat} (h : sp.Handled resave offset line t) (hnop : sp ≠ .nop)
    (hendbr : sp ≠ .endbr64) : getInstName line = line.name := by
  cases sp with
  | nop => exact absurd rfl hnop
  | endbr64 => exact absurd rfl hendbr
  | call target => cases target <;> exact h.1
  | leave => exact h
  | pushf => cases h
  | popf => cases h
  | invlpg => cases h
  | _ => exact h.1

/-- The operands of an indirect jump or CALL, and the jumps there are. -/
structure Line.Branches (line : Line) : Prop where
  jump : line.isJ = true → line.name ∈ conditionalBranch ∨ line.name ∈ unconditionalBranch
  operand : line.name = "CALL" ∨ line.isJ = true → (∃ a, line.args = [.loc a]) ∨
    (∃ r, line.args = [.id r]) ∨ ∃ size segm ptr, line.args = [.mem size segm ptr]

/-- What `IndirectBranch.Safe` asks for the translation to succeed: a special register is resident,
and stays so when CALL brings in its temporary; a memory operand fits beside the temporary. -/
def IndirectBranch.Finds (t : TransState) : IndirectBranch → Expr → Prop
  | .jmp, .id r => ∀ v, r.virt = some v → t.regMap.Resident v
  | .call, .id r => ∀ v, r.virt = some v →
      t.regMap.Resident v ∧ (v ∈ stableRegs ∨ idleRegs t.regMap ≠ [])
  | _, .mem _ segm ptr => Fits .t2 segm ptr
  | _, _ => False

theorem Line.IsIndirect.operand (h : line.IsIndirect) (hbranch : line.Branches)
    (hret : line.name ≠ "RET") : ∃ arg, line.args = [arg] ∧
      ((∃ r, arg = .id r) ∨ ∃ size segm ptr, arg = .mem size segm ptr) := by
  rcases h with hname | ⟨hjump, hloc⟩
  · exact absurd hname hret
  · rcases hbranch.operand hjump with ⟨a, hargs⟩ | ⟨r, hargs⟩ | ⟨size, segm, ptr, hargs⟩
    · exact absurd hargs (hloc a [])
    · exact ⟨_, hargs, Or.inl ⟨r, rfl⟩⟩
    · exact ⟨_, hargs, Or.inr ⟨size, segm, ptr, rfl⟩⟩

/-- A registered line that is neither a jump nor plain emits nothing. -/
theorem Line.IsIndirect.dropped (h : line.IsIndirect)
    (hnot : ¬(line.isJ = true ∨ getInstName line = line.name)) :
    translate line blockEnd canCheck = [] := by
  push Not at hnot
  obtain ⟨hjump, hchanged⟩ := hnot
  have hname : line.name = "RET" ∨ line.name = "CALL" := by
    rcases h with hret | ⟨hcall | hj, -⟩
    · exact Or.inl hret
    · exact Or.inr hcall
    · exact absurd hj hjump
  rcases hname with hname | hname <;>
    exact translate_prefixed (by rw [hname]; decide) (by rw [hname]; decide) hchanged _ _

end Whole

end UserspaceBypass
