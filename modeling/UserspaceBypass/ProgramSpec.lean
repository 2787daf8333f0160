import UserspaceBypass.FileRun
import UserspaceBypass.FlagSafety
import UserspaceBypass.SpecialInst
import Mathlib.Computability.StateTransition

/-! The program as the processor runs it, from the decoded lines. An ordinary instruction gets its
operands from the constants it was decoded with; a special instruction does what `Special.exec` says;
a branch compares the flags. The machine goes from line to line, by address, and stops at SYSCALL,
where the kernel takes over. Two states agree if they differ in temporaries, which no program has,
and in flags that are not live. -/

namespace UserspaceBypass

open Liveness Memory

/-- An operand as the processor sees it. -/
def Expr.operand (read : ExprId → BitVec 64) : Expr → Operand
  | .mem size segm ptr => .mem size (operandAddress segm ptr read)
  | .id (.xmm k) => .vec k
  | .id r => .reg r.size (read r)
  | .int n => .int n
  | .dict _ | .op _ | .loc _ => .unresolved

/-- Where a value written to the operand goes, if that is a register. -/
def Expr.dest : Expr → Arg
  | .id r => .reg r
  | _ => .empty

/-- An ordinary instruction; `ip` is the address after it. -/
def Line.execOrdinary (isa : Isa) (ip : BitVec 64) (line : Line) (s : State) : Option State :=
  (isa.exec (getInstName line) (line.args.map (Expr.operand (readReg ip s.regs)))
    (hiddenRegs s.regs) s.env).map fun e =>
      { regs := writeHidden e.hidden (writeArgs (line.args.map Expr.dest) e.writes s.regs)
        env := e.env }

/-- Is the branch taken? -/
def State.takes (name : String) (s : State) : Bool := taken name ⟨s.regs, s.env, fun _ => 0⟩

/-- The special instruction that the line is. -/
def Line.special (line : Line) : Option Special :=
  match line.name, line.args with
  | "NOP", _ => some .nop
  | "ENDBR64", _ => some .endbr64
  | "CALL", [target] => some (.call target)
  | "RET", [] => some (.ret 0)
  | "RET", [.int n] => some (.ret n.arg)
  | "PUSH", [arg] => some (.stack .push arg)
  | "POP", [arg] => some (.stack .pop arg)
  | "LEAVE", _ => some .leave
  | "PUSHF", _ => some .pushf
  | "POPF", _ => some .popf
  | "SYSCALL", _ => some .syscall
  | "INVLPG", _ => some .invlpg
  | _, _ => none

/-- The line at `address`: the state it leaves, and where control goes. -/
def Line.exec (isa : Isa) (address : Nat) (line : Line) (s : State) : Option (State × Control) :=
  let next := BitVec.ofNat 64 (address + line.l)
  if line.name ∈ specialInstruction then
    line.special.map fun sp => sp.exec (BitVec.ofNat 64 address) next s
  else if line.name ∈ conditionalBranch ∨ line.name ∈ unconditionalBranch then
    match line.args with
    | [.loc a] => some (s, if s.takes line.name then .block a else .next)
    | [target] => some (s, .through (s.value next target))
    | _ => none
  else (line.execOrdinary isa next s).map fun s' => (s', .next)

/-- The address that control goes on at. -/
def Control.pc (next : Nat) : Control → Option Nat
  | .next => some next
  | .block a => some a
  | .through target => some target.toNat
  | .out _ => none

/-- The addresses that control can go on at directly. -/
def Line.targets (address : Nat) (line : Line) : List Nat :=
  let next := address + line.l
  if line.name ∈ specialInstruction then
    match line.special with
    | some (.call (.loc a)) => [a]
    | some (.call _) | some (.ret _) | some .syscall | some .invlpg => []
    | _ => [next]
  else if line.name ∈ conditionalBranch ∨ line.name ∈ unconditionalBranch then
    match line.args with
    | [.loc a] => if line.name ∈ conditionalBranch then [a, next] else [a]
    | _ => []
  else [next]

/-- Neither a special instruction nor a branch. -/
def Line.IsOrdinary (line : Line) : Prop :=
  line.name ∉ specialInstruction ∧
    ¬(line.name ∈ conditionalBranch ∨ line.name ∈ unconditionalBranch)

instance (line : Line) : Decidable line.IsOrdinary :=
  inferInstanceAs (Decidable (_ ∧ _))

/-- One step of the program; `code` gives the line at an address. -/
def native (isa : Isa) (code : Nat → Option Line) (p : Nat × State) : Option (Nat × State) :=
  (code p.1).bind fun line => (line.exec isa p.1 p.2).bind fun r =>
    (r.2.pc (p.1 + line.l)).map fun pc => (pc, r.1)

/-- The line at the address faults. -/
def Faults (isa : Isa) (code : Nat → Option Line) (p : Nat × State) : Prop :=
  ∃ line, code p.1 = some line ∧ line.exec isa p.1 p.2 = none

theorem native_eq {isa : Isa} {code : Nat → Option Line} {pc pc' : Nat} {line : Line} {s s' : State}
    {control : Control} (hline : code pc = some line)
    (hexec : line.exec isa pc s = some (s', control)) (hpc : control.pc (pc + line.l) = some pc') :
    native isa code (pc, s) = some (pc', s') := by
  rw [native, hline, Option.bind_some, hexec, Option.bind_some, hpc, Option.map_some]

/-- At SYSCALL the program comes to its end. -/
theorem native_of_out {isa : Isa} {code : Nat → Option Line} {pc : Nat} {line : Line} {s s' : State}
    {address : BitVec 64} (hline : code pc = some line)
    (hexec : line.exec isa pc s = some (s', .out address)) : native isa code (pc, s) = none := by
  rw [native, hline, Option.bind_some, hexec, Option.bind_some]
  rfl

theorem Special.Decodes.line_special {sp : Special} {line : Line} (h : sp.Decodes line) :
    line.special = some sp := by
  have hname := h.name
  have hform := h.form
  unfold Line.special
  cases sp with
  | call target =>
      rw [hname, hform.1]
      rfl
  | ret release =>
      rcases hform with ⟨hargs, rfl⟩ | ⟨hargs, -⟩ <;> rw [hname, hargs] <;> rfl
  | stack op arg =>
      rw [hname, hform.1]
      cases op <;> rfl
  | _ =>
      rw [hname]
      rfl

/-- Except for temporaries and for flags that are not live, the states are the same. -/
structure State.Agrees (live : Flag → Bool) (s s' : State) : Prop where
  regs : ∀ f, (∀ t, f ≠ .tmp t) → s'.regs f = s.regs f
  mem : s'.env.mem = s.env.mem
  vec : s'.env.vec = s.env.vec
  flags : ∀ f, live f = true → s'.env.flags f = s.env.flags f

/-- No flag is live. -/
def noFlags : Flag → Bool := fun _ => false

def State.setFlags (s : State) (flags : Flag → Bool) : State :=
  { s with env := { s.env with flags := flags } }

namespace State.Agrees

variable {live live' : Flag → Bool} {s s' s'' : State}

theorem mono (h : State.Agrees live s s') (hlive : ∀ f, live' f = true → live f = true) :
    State.Agrees live' s s' :=
  ⟨h.regs, h.mem, h.vec, fun f hf => h.flags f (hlive f hf)⟩

theorem noFlags (h : State.Agrees live s s') : State.Agrees UserspaceBypass.noFlags s s' :=
  h.mono fun f hf => by cases hf

theorem trans (h : State.Agrees live s s') (h' : State.Agrees live s' s'') : State.Agrees live s s'' where
  regs f hf := (h'.regs f hf).trans (h.regs f hf)
  mem := h'.mem.trans h.mem
  vec := h'.vec.trans h.vec
  flags f hf := (h'.flags f hf).trans (h.flags f hf)

theorem symm (h : State.Agrees live s s') : State.Agrees live s' s where
  regs f hf := (h.regs f hf).symm
  mem := h.mem.symm
  vec := h.vec.symm
  flags f hf := (h.flags f hf).symm

/-- With the flags of one state the other differs in temporaries only. -/
theorem same (h : State.Agrees live s s') : (s.setFlags s'.env.flags).Same s' := by
  refine ⟨?_, h.regs⟩
  have henv : s'.env = ⟨s'.env.flags, s'.env.mem, s'.env.vec⟩ := rfl
  rw [henv, h.mem, h.vec]
  rfl

end State.Agrees

theorem State.Same.agrees {s s' : State} (h : s.Same s') (live : Flag → Bool) : State.Agrees live s s' where
  regs := h.regs
  mem := congrArg Env.mem h.env
  vec := congrArg Env.vec h.env
  flags _ _ := congrFun (congrArg Env.flags h.env) _

/-- What does not look at flags, and not at temporaries, keeps agreement. -/
theorem State.Agrees.map {live : Flag → Bool} {s s' : State} (h : State.Agrees live s s') {f : State → State}
    (hf : Respects f) (hflags : ∀ s flags, f (s.setFlags flags) = (f s).setFlags flags)
    (hkeeps : ∀ s, (f s).env.flags = s.env.flags) : State.Agrees live (f s) (f s') := by
  have hsame := hf _ _ h.same
  rw [hflags] at hsame
  have hagree := hsame.agrees live
  refine ⟨hagree.regs, hagree.mem, hagree.vec, fun g hg => ?_⟩
  rw [hkeeps, hkeeps]
  exact h.flags g hg

section Specials

variable {live : Flag → Bool} {s s' : State} {address next : BitVec 64}

theorem State.setFlags_setMem (s : State) (flags : Flag → Bool) (mem : BitVec 64 → BitVec 8) :
    (s.setFlags flags).setMem mem = (s.setMem mem).setFlags flags := rfl

theorem State.setFlags_moveSp (s : State) (flags : Flag → Bool) (bytes : BitVec 64) :
    (s.setFlags flags).moveSp bytes = (s.moveSp bytes).setFlags flags := rfl

theorem State.setFlags_push (s : State) (flags : Flag → Bool) (value : BitVec 64) :
    (s.setFlags flags).push value = (s.push value).setFlags flags := rfl

theorem State.setFlags_value (s : State) (flags : Flag → Bool) (ip : BitVec 64) (arg : Expr) :
    (s.setFlags flags).value ip arg = s.value ip arg := by
  cases arg <;> rfl

theorem State.setFlags_write (s : State) (flags : Flag → Bool) (ip value : BitVec 64) (arg : Expr) :
    (s.setFlags flags).write ip value arg = (s.write ip value arg).setFlags flags := by
  cases arg <;> rfl

theorem State.setFlags_pop (s : State) (flags : Flag → Bool) (ip : BitVec 64) (arg : Expr) :
    (s.setFlags flags).pop ip arg = (s.pop ip arg).setFlags flags := by
  rw [State.pop, State.pop, State.setFlags_moveSp, State.setFlags_write]
  rfl

theorem State.setMem_flags (s : State) (mem : BitVec 64 → BitVec 8) :
    (s.setMem mem).env.flags = s.env.flags := rfl

theorem State.push_flags (s : State) (value : BitVec 64) : (s.push value).env.flags = s.env.flags := by
  rw [State.push, State.setTop, State.setMem_flags]
  rfl

theorem State.pop_flags (s : State) (ip : BitVec 64) (arg : Expr) :
    (s.pop ip arg).env.flags = s.env.flags := by
  rw [State.pop]
  cases arg <;> rfl

theorem State.Agrees.gpr (h : State.Agrees live s s') (g : Gpr) : s'.regs (.gpr g) = s.regs (.gpr g) :=
  h.regs _ (by rintro t ⟨⟩)

theorem State.Agrees.push (h : State.Agrees live s s') (value : BitVec 64) :
    State.Agrees live (s.push value) (s'.push value) :=
  h.map (fun _ _ hs => hs.push value) (fun s flags => s.setFlags_push flags value) fun s => s.push_flags value

theorem State.Agrees.moveSp (h : State.Agrees live s s') (bytes : BitVec 64) :
    State.Agrees live (s.moveSp bytes) (s'.moveSp bytes) :=
  h.map (fun _ _ hs => hs.moveSp bytes) (fun s flags => s.setFlags_moveSp flags bytes) fun _ => rfl

/-- A 64-bit operand has the same value. -/
theorem State.Agrees.value (h : State.Agrees live s s') {arg : Expr} (hlegal : arg.Legal64)
    (ip : BitVec 64) : s'.value ip arg = s.value ip arg := by
  rcases hlegal.cases with ⟨g, rfl⟩ | ⟨segm, ptr, rfl, hptr⟩
  · rw [State.value_gpr, State.value_gpr, h.gpr]
  · rw [State.value, State.value, h.mem, operandAddress_same hptr h.same]
    rfl

theorem State.Agrees.stack (h : State.Agrees live s s') {op : StackOp} {arg : Expr}
    (hlegal : op.Legal arg) : State.Agrees live (op.exec next arg s) (op.exec next arg s') := by
  refine h.map (StackOp.respects hlegal next) (fun s flags => ?_) fun s => ?_
  · cases op with
    | push => rw [StackOp.exec, StackOp.exec, State.setFlags_value, State.setFlags_push]
    | pop => exact s.setFlags_pop flags next arg
  · cases op with
    | push => exact s.push_flags _
    | pop => exact s.pop_flags next arg

theorem State.Agrees.pushWord (h : State.Agrees live s s') (g : Gpr) :
    State.Agrees live (StackOp.push.exec16 next (.id (.gpr g .w)) s)
      (StackOp.push.exec16 next (.id (.gpr g .w)) s') := by
  refine h.map (fun s s' hs => ?_) (fun s flags => ?_) fun s => State.setMem_flags _ _
  · have hvalue : s'.value next (.id (.gpr g .w)) = s.value next (.id (.gpr g .w)) :=
      congrArg Width.w.get (hs.gpr g)
    rw [StackOp.exec16_push, StackOp.exec16_push, hvalue, hs.env, State.sp, State.sp, hs.gpr]
    exact (hs.moveSp (-2)).setMem _
  · rw [StackOp.exec16_push, StackOp.exec16_push, State.setFlags_value, State.setFlags_moveSp,
      State.setFlags_setMem]
    rfl

theorem State.Agrees.leave (h : State.Agrees live s s') :
    State.Agrees live ((s.set (.gpr .rsp) (s.regs (.gpr .rbp))).pop next (.id rbp))
      ((s'.set (.gpr .rsp) (s'.regs (.gpr .rbp))).pop next (.id rbp)) := by
  have hlegal : StackOp.pop.Legal (.id rbp) := trivial
  have hpop : Respects fun s => s.pop next (.id rbp) := StackOp.respects hlegal next
  have hframe : Respects fun s => (s.set (.gpr .rsp) (s.regs (.gpr .rbp))).pop next (.id rbp) := by
    intro s s' hs
    dsimp only
    rw [hs.gpr]
    exact hpop _ _ (hs.set _ _)
  exact h.map hframe (fun s flags => (s.set (.gpr .rsp) (s.regs (.gpr .rbp))).setFlags_pop flags next _)
    fun s => State.pop_flags _ _ _

end Specials

/-- What two runs of an instruction have in common that start with different flags. -/
structure Effect.Agrees (same : Flag → Prop) (e e' : Effect) : Prop where
  writes : e'.writes = e.writes
  hidden : e'.hidden = e.hidden
  mem : e'.env.mem = e.env.mem
  vec : e'.env.vec = e.env.vec
  flags : ∀ f, same f → e'.env.flags f = e.env.flags f

/-- The flags in the instruction set: an instruction depends on those it reads, and it leaves the same
in those it writes and in those that were the same before. -/
structure Isa.Obeys (isa : Isa) (use : Access Line Flag) : Prop where
  exec : ∀ (line : Line) read hidden env flags,
    (∀ f, use.reads line f = true → flags f = env.flags f) →
      Option.Rel (Effect.Agrees fun f => use.writes line f = true ∨ flags f = env.flags f)
        (isa.exec (getInstName line) (line.args.map (Expr.operand read)) hidden env)
        (isa.exec (getInstName line) (line.args.map (Expr.operand read)) hidden
          { env with flags := flags })
  taken : ∀ (line : Line) s s', line.name ∈ conditionalBranch →
    s'.regs (.gpr .rcx) = s.regs (.gpr .rcx) →
      (∀ f, use.reads line f = true → s'.env.flags f = s.env.flags f) →
        State.takes line.name s' = State.takes line.name s

section Ordinary

variable {regs regs' : Regs}

/-- Except for temporaries the registers are the same. -/
def SameRegs (regs regs' : Regs) : Prop := ∀ f, (∀ t, f ≠ .tmp t) → regs' f = regs f

theorem SameRegs.update (h : SameRegs regs regs') (f : Family) {value value' : BitVec 64}
    (hvalue : value' = value) :
    SameRegs (Function.update regs f value) (Function.update regs' f value') := by
  subst hvalue
  intro g hg
  by_cases hgf : g = f
  · subst hgf
    rw [Function.update_self, Function.update_self]
  · rw [Function.update_of_ne hgf, Function.update_of_ne hgf, h g hg]

theorem SameRegs.gpr (h : SameRegs regs regs') (g : Gpr) : regs' (.gpr g) = regs (.gpr g) :=
  h _ (by rintro t ⟨⟩)

theorem SameRegs.writeReg (h : SameRegs regs regs') (r : ExprId) (value : BitVec 64) :
    SameRegs (writeReg regs r value) (writeReg regs' r value) := by
  cases r with
  | gpr g width => exact h.update _ (by rw [h.gpr])
  | high hb => exact h.update _ (by rw [h.gpr])
  | seg s => exact h.update _ rfl
  | tmp t => exact h.update _ rfl
  | _ => exact h

theorem SameRegs.writeArgs (h : SameRegs regs regs') (args : List Arg)
    (writes : List (Option (BitVec 64))) :
    SameRegs (writeArgs args writes regs) (writeArgs args writes regs') := by
  induction args generalizing writes regs regs' with
  | nil => exact h
  | cons arg args ih =>
      cases writes with
      | nil => cases arg <;> exact h
      | cons w writes =>
          cases arg with
          | reg r =>
              cases w with
              | none => exact ih h writes
              | some value => exact ih (h.writeReg r value) writes
          | _ => exact ih h writes

theorem SameRegs.writeHidden (h : SameRegs regs regs') (writes : Gpr → Option (BitVec 64)) :
    SameRegs (writeHidden writes regs) (writeHidden writes regs') := by
  intro f hf
  cases f with
  | gpr g => simp only [UserspaceBypass.writeHidden, h.gpr]
  | seg s => exact h _ hf
  | tmp t => exact absurd rfl (hf t)

theorem SameRegs.readReg (h : SameRegs regs regs') (ip : BitVec 64) {r : ExprId}
    (hr : ∀ tmp, r ≠ .tmp tmp) : readReg ip regs' r = readReg ip regs r := by
  cases r with
  | gpr g width => exact congrArg width.get (h.gpr g)
  | high hb => rw [UserspaceBypass.readReg, UserspaceBypass.readReg, h.gpr]
  | seg s => exact h _ (by rintro t ⟨⟩)
  | tmp t => exact absurd rfl (hr t)
  | _ => rfl

theorem SameRegs.hiddenRegs (h : SameRegs regs regs') : hiddenRegs regs' = hiddenRegs regs := by
  funext g
  rw [UserspaceBypass.hiddenRegs, UserspaceBypass.hiddenRegs, h.gpr]

/-- Operands of a line that names no temporary. -/
theorem SameRegs.operand (h : SameRegs regs regs') (ip : BitVec 64) {e : Expr} (hdec : e.Decoded)
    (hno : e.NoTmp) : e.operand (UserspaceBypass.readReg ip regs') =
      e.operand (UserspaceBypass.readReg ip regs) := by
  cases e with
  | id r =>
      have hread := h.readReg ip (hno r (by simp [Expr.regs]))
      cases r with
      | xmm k => rfl
      | _ => exact congrArg (Operand.reg _) hread
  | mem size segm ptr =>
      exact congrArg (Operand.mem size)
        (operandAddress_congr hdec fun r hr => h.readReg ip (hno r hr))
  | _ => rfl

end Ordinary

/-- An ordinary instruction on two states that agree on the flags it reads. -/
theorem Line.execOrdinary_agrees {isa : Isa} {use : Access Line Flag} (hisa : isa.Obeys use)
    {line : Line} (hline : line.Proper) {live : Flag → Bool} {s s' : State} (h : State.Agrees live s s')
    (hreads : ∀ f, use.reads line f = true → live f = true) (ip : BitVec 64) :
    Option.Rel (State.Agrees fun f => live f || use.writes line f) (line.execOrdinary isa ip s)
      (line.execOrdinary isa ip s') := by
  have hregs : SameRegs s.regs s'.regs := h.regs
  have hoperands : line.args.map (Expr.operand (readReg ip s'.regs)) =
      line.args.map (Expr.operand (readReg ip s.regs)) :=
    List.map_congr_left fun e he => hregs.operand ip (hline.operands e he) (hline.noTmp e he)
  have henv : s'.env = { s.env with flags := s'.env.flags } := h.same.env
  have hrel := hisa.exec line (readReg ip s.regs) (hiddenRegs s.regs) s.env s'.env.flags
    fun f hf => h.flags f (hreads f hf)
  rw [← henv, ← hoperands, ← hregs.hiddenRegs] at hrel
  rw [execOrdinary, execOrdinary, ← hoperands, ← hregs.hiddenRegs]
  generalize isa.exec _ _ _ s.env = r at hrel
  generalize isa.exec _ _ _ s'.env = r' at hrel
  cases hrel with
  | none => exact .none
  | some heff =>
      refine .some ⟨?_, heff.mem, heff.vec, fun f hf => heff.flags f ?_⟩
      · dsimp only
        rw [heff.writes, heff.hidden]
        exact (hregs.writeArgs _ _).writeHidden _
      · rcases Bool.or_eq_true_iff.mp hf with hf | hf
        · exact Or.inr (h.flags f hf)
        · exact Or.inl hf

/-- The status flags of a comparison. -/
def compareFlags (a b : BitVec 64) : Flag → Bool
  | .cf => a < b
  | .zf => a = b
  | .sf => (a - b).msb
  | .of => a.msb != b.msb && (a - b).msb != a.msb
  | .af => (a &&& 15) < (b &&& 15)
  | .pf => ((List.range 8).countP fun i => (a - b).getLsbD i) % 2 = 0

/-- What an instruction writes to its first operand, the memory it leaves, and its flags if it writes
them: the moves that the translator emits, and CMP. -/
def coreEffect (mem : BitVec 64 → BitVec 8) : String → List Operand →
    Option (Option (BitVec 64) × (BitVec 64 → BitVec 8) × Option (Flag → Bool))
  | "MOV", [.reg 64 _, .reg 64 y] => some (some y, mem, none)
  | "MOV", [.reg 64 _, .mem 64 a] => some (some (load64 mem a), mem, none)
  | "MOV", [.mem 64 a, .reg 64 x] => some (none, store 8 mem a x, none)
  | "MOV", [.mem 32 a, .int ⟨n, 32⟩] => some (none, store 4 mem a (BitVec.ofNat 64 n), none)
  | "MOV", [.mem 16 a, .reg 16 x] => some (none, store 2 mem a x, none)
  | "LEA", [.reg 64 _, .mem 64 a] => some (some a, mem, none)
  | "MOVABS", [.reg 64 _, .int ⟨n, 64⟩] => some (some (BitVec.ofNat 64 n), mem, none)
  | "CMP", [.reg 64 a, .reg 64 b] => some (none, mem, some (compareFlags a b))
  | _, _ => none

/-- An instruction set with nothing else, in which a mask clears all flags. -/
def coreIsa : Isa where
  exec name operands _ env := (coreEffect env.mem name operands).map fun r =>
    ⟨[r.1, none], fun _ => none, { env with mem := r.2.1, flags := r.2.2.getD env.flags }⟩
  shiftFlags _ _ _ := fun _ => false

theorem coreIsa_words : coreIsa.Words where
  move _ _ _ _ := rfl
  load _ _ _ _ := rfl
  store _ _ _ _ := rfl
  storeInt _ _ _ _ := rfl
  lea _ _ _ _ := rfl
  movabs _ _ _ _ := rfl
  storeWord _ _ _ _ := rfl
  loadMixed _ _ _ _ := rfl
  loadMixed16 _ _ _ _ := rfl
  storeMixed _ _ _ _ := rfl

theorem coreIsa_compares : coreIsa.Compares := by
  intro a b hidden env
  exact ⟨_, rfl, rfl, rfl, rfl, by simp, fun _ => rfl⟩

/-- Only a first operand is written. -/
def firstOperand : RegUse where
  operand _ k := k = 0
  hidden _ _ := false

theorem coreIsa_respects : coreIsa.Respects firstOperand where
  operand name operands hidden env e h k value hk := by
    obtain ⟨r, -, rfl⟩ := Option.map_eq_some_iff.mp h
    rcases k with _ | _ | k
    · rfl
    · cases hk
    · cases hk
  hidden name operands hidden env e h g value hg := by
    obtain ⟨r, -, rfl⟩ := Option.map_eq_some_iff.mp h
    cases hg

theorem x86Reads_eq {line : Line} {name : String} (h : line.name = name) :
    x86Reads line = x86Reads { name := name, args := [], l := 0 } := by
  unfold x86Reads
  rw [h]

/-- The condition of a branch is a matter of the flags it reads, and of RCX. -/
theorem x86Flags_taken (line : Line) (s s' : State) (hname : line.name ∈ conditionalBranch)
    (hrcx : s'.regs (.gpr .rcx) = s.regs (.gpr .rcx))
    (hflags : ∀ f, x86Flags.reads line f = true → s'.env.flags f = s.env.flags f) :
    State.takes line.name s' = State.takes line.name s := by
  have hreads : ∀ name, line.name = name → ∀ f ∈ x86Reads { name := name, args := [], l := 0 },
      s'.env.flags f = s.env.flags f := by
    intro name h f hf
    refine hflags f (decide_eq_true ?_)
    rw [x86Reads_eq h]
    exact hf
  simp only [conditionalBranch, List.mem_cons, List.not_mem_nil, or_false] at hname
  rcases hname with h | h | h | h | h | h | h | h | h | h | h | h | h | h | h | h | h | h | h
  all_goals
    rw [h]
    have hf := hreads _ h
    simp only [State.takes, taken]
  · rw [hf .of (by decide)]
  · rw [hf .of (by decide)]
  · rw [hf .cf (by decide)]
  · rw [hf .cf (by decide)]
  · rw [hf .zf (by decide)]
  · rw [hf .zf (by decide)]
  · rw [hf .cf (by decide), hf .zf (by decide)]
  · rw [hf .cf (by decide), hf .zf (by decide)]
  · rw [hf .sf (by decide)]
  · rw [hf .sf (by decide)]
  · rw [hf .pf (by decide)]
  · rw [hf .pf (by decide)]
  · rw [hf .sf (by decide), hf .of (by decide)]
  · rw [hf .sf (by decide), hf .of (by decide)]
  · rw [hf .zf (by decide), hf .sf (by decide), hf .of (by decide)]
  · rw [hf .zf (by decide), hf .sf (by decide), hf .of (by decide)]
  · rw [hrcx]
  · rw [hrcx]
  · rw [hrcx]

/-- What leaves the flags alone has no prefix, and is a move. -/
theorem coreEffect_flags {mem : BitVec 64 → BitVec 8} {name : String} {operands : List Operand}
    {r : Option (BitVec 64) × (BitVec 64 → BitVec 8) × Option (Flag → Bool)}
    (h : coreEffect mem name operands = some r) (hflags : r.2.2 = none) :
    name ∈ ["MOV", "LEA", "MOVABS"] := by
  unfold coreEffect at h
  split at h
  all_goals first
    | decide
    | cases h
  cases hflags

theorem coreIsa_obeys : coreIsa.Obeys x86Flags where
  taken := x86Flags_taken
  exec line read hidden env flags _ := by
    have hexec : ∀ env : Env, coreIsa.exec (getInstName line) (line.args.map (Expr.operand read)) hidden env =
      (coreEffect env.mem (getInstName line) (line.args.map (Expr.operand read))).map fun r =>
        ⟨[r.1, none], fun _ => none, { env with mem := r.2.1, flags := r.2.2.getD env.flags }⟩ :=
      fun _ => rfl
    rw [hexec, hexec]
    cases hr : coreEffect env.mem (getInstName line) (line.args.map (Expr.operand read)) with
    | none => exact .none
    | some r =>
        refine .some ⟨rfl, rfl, rfl, rfl, fun f hf => ?_⟩
        have hnone : r.2.2 = none → flags f = env.flags f := by
          intro hnone
          refine hf.resolve_left fun hw => ?_
          have hname := coreEffect_flags hr hnone
          have hblank : ∀ name ∈ ["MOV", "LEA", "MOVABS"], ' ' ∉ name.toList := by decide
          rcases getInstName_blank line with hplain | hprefixed
          · rw [hplain] at hname
            have hwrites : x86Writes line = [] := by
              simp only [List.mem_cons, List.not_mem_nil, or_false] at hname
              rcases hname with h | h | h <;> simp [x86Writes, h]
            have hmem : f ∈ x86Writes line := of_decide_eq_true hw
            rw [hwrites] at hmem
            cases hmem
          · exact hblank _ hname hprefixed
        dsimp only
        cases hr2 : r.2.2 with
        | none => exact hnone hr2
        | some _ => rfl

end UserspaceBypass
