import UserspaceBypass.StackOps

/-! PUSH and POP of both sizes, with success of the translator as part of the statement. The handlers
take the size of the operand for the distance RSP moves, but move it through a 64-bit temporary or
load it with 64 bits, so that of the 16-bit forms only PUSH of a register is left. -/

namespace UserspaceBypass

open StraightLine Memory

variable {isa : Isa} {world : World} {offset : Nat} {held : Option Tmp} {stale : Finset ExprInt}

/-- MOV also stores 16 bits, and has no form whose operands differ in size. -/
structure Isa.Words (isa : Isa) : Prop extends isa.Moves where
  storeWord : ∀ a x hidden env, isa.exec "MOV" [.mem 16 a, .reg 16 x] hidden env =
    some ⟨[none, none], fun _ => none, { env with mem := Memory.store 2 env.mem a x }⟩
  loadMixed : ∀ x a hidden env, isa.exec "MOV" [.reg 64 x, .mem 16 a] hidden env = none
  loadMixed16 : ∀ x a hidden env, isa.exec "MOV" [.reg 16 x, .mem 64 a] hidden env = none
  storeMixed : ∀ a x hidden env, isa.exec "MOV" [.mem 16 a, .reg 64 x] hidden env = none

namespace StackOp

/-- The operands of a 16-bit PUSH or POP. -/
def Legal16 : StackOp → Expr → Prop
  | _, .id (.gpr _ .w) => True
  | _, .mem size _ ptr => size = 16 ∧ ptr.Legal
  | .push, .int n => n.size = 16
  | _, _ => False

/-- The 16-bit forms move RSP by two and transfer two bytes. -/
def exec16 (ip : BitVec 64) : StackOp → Expr → State → State
  | .push, arg, s => (s.moveSp (-2)).setMem (store 2 s.env.mem (s.sp + -2) (s.value ip arg))
  | .pop, .id r, s =>
      { s.moveSp 2 with regs := writeReg (s.moveSp 2).regs r (load64 s.env.mem s.sp) }
  | .pop, .mem _ segm ptr, s => (s.moveSp 2).setMem (store 2 s.env.mem
      (operandAddress segm ptr (readReg ip (s.moveSp 2).regs)) (load64 s.env.mem s.sp))
  | .pop, _, s => s.moveSp 2

theorem exec16_push (ip : BitVec 64) (arg : Expr) (s : State) : push.exec16 ip arg s =
    (s.moveSp (-2)).setMem (store 2 s.env.mem (s.sp + -2) (s.value ip arg)) := rfl

/-- The operands that are handled: 64-bit registers but RSP, 64-bit memory operands that survive the
split and fit beside the temporary, and for PUSH the 16-bit registers but SP. -/
def Handles (heap : Heap) : StackOp → Expr → Prop
  | op, .id (.gpr g width) => g ≠ .rsp ∧ (width = .q ∨ op = .push)
  | _, .mem size segm ptr => size = 64 ∧ (Expr.mem size segm ptr).StackSafe heap ∧ Fits .t1 segm ptr
  | _, _ => False

theorem Legal.size {op : StackOp} {arg : Expr} (h : op.Legal arg) : arg.size = some 64 := by
  rcases h.cases with h64 | ⟨-, n, rfl, hn⟩
  · rcases h64.cases with ⟨g, rfl⟩ | ⟨segm, ptr, rfl, -⟩ <;> rfl
  · exact congrArg some hn

theorem Legal16.cases {op : StackOp} {arg : Expr} (h : op.Legal16 arg) :
    (∃ g, arg = .id (.gpr g .w)) ∨ (∃ segm ptr, arg = .mem 16 segm ptr ∧ ptr.Legal) ∨
      op = .push ∧ ∃ n, arg = .int n ∧ n.size = 16 := by
  cases arg with
  | id r =>
      cases r with
      | gpr g width => cases width <;> first | exact Or.inl ⟨g, rfl⟩ | (cases op <;> cases h)
      | _ => cases op <;> cases h
  | mem size segm ptr =>
      obtain ⟨rfl, hptr⟩ : size = 16 ∧ ptr.Legal := by cases op <;> exact h
      exact Or.inr (Or.inl ⟨segm, ptr, rfl, hptr⟩)
  | int n =>
      cases op with
      | push => exact Or.inr (Or.inr ⟨rfl, n, rfl, h⟩)
      | pop => cases h
  | _ => cases op <;> cases h

theorem Legal16.size {op : StackOp} {arg : Expr} (h : op.Legal16 arg) : arg.size = some 16 := by
  rcases h.cases with ⟨g, rfl⟩ | ⟨segm, ptr, rfl, -⟩ | ⟨-, n, rfl, hn⟩
  · rfl
  · rfl
  · exact congrArg some hn

/-- In every pop order the handler is translated, and leaves RSP and memory as `f` says. -/
def Goes (isa : Isa) (resave : Bool) (offset : Nat) (op : StackOp) (arg : Expr) (t : TransState)
    (f : State → State) : Prop :=
  ∀ order, ∃ text t', runSteps ⟨order, resave⟩ offset (op.process arg) t = some (text, t') ∧
    Continues isa text t.regMap t'.regMap f

end StackOp

section Memory

variable {t t' : TransState} {text : List Asm} {segm : Option Seg} {ptr : Addr} {resave : Bool}

end Memory

section Register

variable {t : TransState} {g : Gpr} {width : Width}

theorem run_popReg (h : Start t stale) (world : World) (offset : Nat) :
    ∃ text t', runSteps world offset (processPop (.id (.gpr g .q))) t = some (text, t') := by
  rw [processPop_gpr]
  obtain ⟨text₁, t₁, hload⟩ := (topMove_load (.gpr g .q)).run_reg h.held world offset
  obtain ⟨held₁, heap₁, -, -⟩ := ran_loadTop moveIsa_moves rfl (onlyHeld_gpr none g .q) h.held hload
  obtain ⟨text₂, t₂, hmove⟩ := run_moveStack .pop held₁.map (heap₁ ▸ h.heap) world offset
  exact ⟨_, _, runSteps_some hload (runSteps_some hmove rfl)⟩

end Register

section Sizes

variable {t : TransState} {op : StackOp} {arg : Expr} {resave : Bool}

theorem rsp_eq_iff {g : Gpr} : ExprId.gpr g .q = rsp ↔ g = .rsp :=
  ⟨fun h => (ExprId.gpr.inj h).1, fun h => h ▸ rfl⟩

/-- The 64-bit operands that are handled are safe. -/
theorem StackOp.handles_safe (hlegal : op.Legal arg) {heap : Heap} (h : op.Handles heap arg) :
    arg.StackSafe heap := by
  rcases hlegal.cases with h64 | ⟨rfl, n, rfl, -⟩
  · rcases h64.cases with ⟨g, rfl⟩ | ⟨segm, ptr, rfl, -⟩
    · exact mt rsp_eq_iff.mp h.1
    · exact h.2.1
  · cases h

end Sizes

section Mixed

variable {t t' : TransState} {text : List Asm} {ip : BitVec 64} {s : State} {r : ExprId} {d : MemDict}

theorem exec_storeWord (hisa : isa.Words) (g : Gpr) (hd : d.sz = 16) :
    execInst isa ip "MOV" [.mem d, .reg (.gpr g .w)] s = some (s.setMem (store 2 s.env.mem
      (d.address (readReg ip s.regs)) (readReg ip s.regs (.gpr g .w)))) :=
  exec_stored (MemDict.eval hd _) rfl (hisa.storeWord ..)

end Mixed

section Words

variable {t t' : TransState} {text : List Asm} {g : Gpr} {segm : Option Seg} {ptr : Addr}
  {op : StackOp} {arg : Expr} {resave : Bool}

theorem Continues.executes {m m' : RegMap} {f : State → State} (h : Continues isa text m m' f) :
    Executes isa text := by
  intro c
  obtain ⟨c', hc', -⟩ := h c
  exact ⟨c', hc'⟩

theorem topMove_storeWord (g : Gpr) : TopMove (.gpr g .w) [.dict (makeMemDict 16 rsp 0), .id (.gpr g .w)]
    [.mem ⟨16, [rsp], none, none⟩, .reg (.gpr g .w)] :=
  ⟨fun _ => rfl, fun _ => rfl, by simp [sz2pfx]⟩

theorem processPush_word (g : Gpr) : processPush (.id (.gpr g .w)) =
    [.moveStack (-2), .normal "MOV" [.dict (makeMemDict 16 rsp 0), .id (.gpr g .w)] false] := by
  simp [processPush, Expr.size, ExprId.size, Width.bits, im64Abs]

/-- What PUSH of a 16-bit register does. -/
theorem sim_pushWord (hisa : isa.Words) (h : Start t stale)
    (hrun : runSteps world offset (processPush (.id (.gpr g .w))) t = some (text, t')) :
    (Sim isa text t.regMap t'.regMap fun s s' => ((s.moveSp (-2)).setMem (store 2 s.env.mem (s.sp + -2)
      (Width.w.get ((s.moveSp (-2)).regs (.gpr g))))).Same s') ∧ Executes isa text := by
  rw [processPush_word] at hrun
  obtain ⟨text₁, t₁, text₂, hmove, hrest, rfl⟩ := runSteps_cons hrun
  have hstore := runSteps_singleton hrest
  obtain ⟨held₁, -, exec₁, sim₁⟩ := ran_moveStack hisa.toMoves .push16 h.held h.heap hmove
  obtain ⟨-, -, exec₂, sim₂⟩ := (topMove_storeWord g).ran (family_virt_ne_ip (.gpr g))
    (onlyHeld_gpr none g .w) (fun s => exec_storeWord hisa g rfl) held₁ hstore
  refine ⟨(sim₁.append sim₂).mono ?_, total_append exec₁ exec₂⟩
  rintro s s₂ ⟨s₁, rfl, rfl⟩
  rw [address_top, State.moveSp_sp]
  exact State.Same.refl _

end Words

end UserspaceBypass
