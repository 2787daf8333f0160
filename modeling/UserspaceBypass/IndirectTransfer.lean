import UserspaceBypass.StackOps

/-! JMP and CALL through a register or a memory operand. The handlers bring the target into R14 and
jump to the ladder of the address after the line. CALL pushes that address before it evaluates its
operand, and a special register is looked up among the resident ones only. -/

namespace UserspaceBypass

open StraightLine Memory

variable {isa : Isa} {world : World} {offset : Nat} {held : Option Tmp} {stale : Finset ExprInt}

/-- A call that finds all its registers resident leaves the map alone. -/
theorem Step.map_of_resident {step : Step} {t t' : TransState} {text : List Asm} {call : Call}
    (hcall : step.call world offset t.heap = some call) (hm : MapInv t.regMap)
    (hres : ∀ v ∈ conflictRegs call.args, t.regMap.Resident v)
    (hrun : step.run world offset t = some (text, t')) : t'.regMap = t.regMap := by
  obtain ⟨heap, ⟨st⟩⟩ := Step.stages hcall hm hrun
  have hresolve : conflictResolve (world.order t.calls) t.regMap (conflictRegs call.args) offset =
      some ([], t.regMap) := conflictResolve_resident hres _ _
  obtain ⟨-, hsame⟩ := Prod.mk.inj (Option.some.inj (hresolve.symm.trans st.resolve))
  rw [st.map_eq, ← hsame, releaseIP_of_absent hm.noIp, hm.recoverStable]

section Target

variable {m : RegMap} {r : ExprId} {f : Family} {target : String}

/-- The name of a 64-bit register, or of the physical register that stands in for it. -/
theorem reverseReg_full (m : RegMap) (hr : r.full = some f) :
    reverseReg m r = match f.virt with
      | some v => (invMap m v).map fun p => "R" ++ p.homonym.key
      | none => some r.name := by
  cases r with
  | gpr g width =>
      cases width <;> cases hr
      cases g <;> rfl
  | tmp t =>
      cases hr
      cases t <;> rfl
  | _ => cases hr

/-- The register the target name stands for. -/
theorem gprOfName_reverseReg (hm : m.Injective) (hr : r.full = some f)
    (h : reverseReg m r = some target) (c : Machine) :
    ∃ g, gprOfName target = some g ∧ c.regs (.gpr g) = absRegs m c f := by
  rw [reverseReg_full m hr] at h
  cases hv : f.virt with
  | some v =>
      rw [hv] at h
      obtain ⟨p, hp, rfl⟩ := Option.map_eq_some_iff.mp h
      refine ⟨p.gpr, by cases p <;> rfl, ?_⟩
      rw [absRegs_virt hv, virtValue_resident hm c (invMap_some hp)]
  | none =>
      rw [hv] at h
      cases h
      rw [absRegs_plain hv]
      cases r with
      | gpr g width =>
          cases width <;> cases hr
          exact ⟨g, by cases g <;> rfl, rfl⟩
      | tmp t => cases hr; cases t <;> cases hv
      | _ => cases hr

/-- The lines in front of the jump. -/
def toTarget (m : RegMap) (target : String) : List Asm :=
  releaseConflict m true ++ if target = "R14" then [] else [.moveTarget target]

/-- Between lines RSP is in R13. -/
theorem MapInv.sp_eq (hm : MapInv m) (c : Machine) : c.regs (.gpr .r13) = (abs m c).sp := by
  have hvirt := absRegs_virt (m := m) (c := c) (f := .gpr .rsp) rfl
  exact (virtValue_resident hm.inj c hm.sp).symm.trans hvirt.symm

/-- They leave the register in R14, RSP in R13, and memory alone. -/
theorem exec_toTarget (isa : Isa) (hm : MapInv m) (hr : r.full = some f)
    (h : reverseReg m r = some target) (c : Machine) :
    ∃ c', execText isa (toTarget m target) c = some c' ∧
      c'.regs (.gpr .r14) = (abs m c).regs f ∧ c'.regs (.gpr .r13) = (abs m c).sp ∧
        c'.env.mem = (abs m c).env.mem := by
  obtain ⟨c₁, hexec, hregs, henv, -, -⟩ := exec_releaseConflict isa hm.inj c
  obtain ⟨g, hname, hvalue⟩ := gprOfName_reverseReg hm.inj hr h c
  have hsp := hm.sp_eq c
  unfold toTarget
  split_ifs with htarget
  · subst htarget
    obtain rfl : Gpr.r14 = g := Option.some.inj hname
    rw [List.append_nil]
    exact ⟨c₁, hexec, by rw [hregs]; exact hvalue, by rw [hregs]; exact hsp, by rw [henv]; rfl⟩
  · refine ⟨c₁.setReg .p14 (c₁.regs (.gpr g)), ?_, ?_, ?_, ?_⟩
    · refine runAll_append_some.mpr ⟨c₁, hexec, ?_⟩
      rw [runAll_singleton, Asm.exec, hname]
      rfl
    · exact (setReg_regs_self c₁ .p14 _).trans ((congrFun hregs _).trans hvalue)
    · exact (congrFun hregs _).trans hsp
    · exact congrArg Env.mem henv

end Target

inductive IndirectBranch where
  | jmp
  | call
  deriving DecidableEq, Repr

namespace IndirectBranch

def process : IndirectBranch → Expr → List Step
  | .jmp, arg => processJump "JMP" arg
  | .call, arg =>
      .resolve .t2 :: .returnAddress :: processPush (.id (.tmp .t2)) ++ processJump "JMP" arg

/-- The state the instruction leaves, apart from RIP; `next` is the address after it. -/
def after (next : BitVec 64) : IndirectBranch → State → State
  | .jmp, s => s
  | .call, s => s.push next

/-- In front of the jump to the ladder: the target is in R14, and RSP, which is in R13, and memory are
as the instruction leaves them. -/
structure Arrives (next : BitVec 64) (op : IndirectBranch) (arg : Expr) (s : State) (c : Machine) : Prop where
  target : c.regs (.gpr .r14) = s.value next arg
  stack : c.regs (.gpr .r13) = (op.after next s).sp
  mem : c.env.mem = (op.after next s).env.mem

/-- The line is translated, and from every state that `S` allows the emitted code arrives at the jump
to the ladder. -/
def Reaches (isa : Isa) (world : World) (offset : Nat) (op : IndirectBranch) (arg : Expr) (t : TransState)
    (S : State → Prop) : Prop :=
  ∃ body t', runSteps world offset (op.process arg) t =
      some (body ++ [.jump "JMP" (.ij offset)], t') ∧
    ∀ c, S (abs t.regMap c) → ∃ c', execText isa body c = some c' ∧
      op.Arrives (BitVec.ofNat 64 offset) arg (abs t.regMap c) c'

/-- In every pop order. -/
def Correct (isa : Isa) (resave : Bool) (offset : Nat) (op : IndirectBranch) (arg : Expr) (t : TransState)
    (S : State → Prop) : Prop :=
  ∀ order, op.Reaches isa ⟨order, resave⟩ offset arg t S

end IndirectBranch

section Front

variable {r : ExprId} {f : Family} {front : List Step} {t t₁ : TransState} {text : List Asm}
  {op : IndirectBranch} {arg : Expr} {S : State → Prop}

end Front

section Load

variable {segm : Option Seg} {ptr : Addr} {t t' : TransState} {text : List Asm}

/-- Bringing in a temporary that may be there already. -/
theorem Held.bring {tmp : Tmp} (h : Held t.regMap held) (hheld : held = none ∨ held = some tmp)
    (hrun : (Step.resolve tmp).run world offset t = some (text, t')) :
    Held t'.regMap (some tmp) ∧ t'.heap = t.heap ∧ Executes isa text ∧
      Sim isa text t.regMap t'.regMap State.Same := by
  rcases hheld with rfl | rfl
  · obtain ⟨hexec, hsim⟩ := h.sim_resolve hrun
    exact ⟨h.resolve hrun, Step.run_heap hrun, hexec, hsim⟩
  · have hres : ∀ v ∈ [tmp.virt], t.regMap.Resident v := by
      intro v hv
      rw [List.mem_singleton.mp hv]
      exact (h.tmp _ tmp.virt_isTmp).mpr rfl
    have hsame : (Step.resolve tmp).run world offset t = some ([], { t with calls := t.calls + 1 }) :=
      congrArg (Option.map _) (conflictResolve_resident hres _ 0)
    rw [hsame] at hrun
    cases hrun
    refine ⟨h, rfl, fun c => ⟨c, rfl⟩, fun c c' hc' => ?_⟩
    cases hc'
    exact State.Same.refl _

/-- The calls that load the target. -/
def loadTarget (segm : Option Seg) (ptr : Addr) : List Step :=
  [.resolve .t2, .normal "MOV" [.id (.tmp .t2), .mem 64 segm ptr] false]

theorem ran_loadTarget (hisa : isa.Moves) (hlegal : ptr.Legal) (h : Held t.regMap held)
    (hheld : held = none ∨ held = some .t2)
    (hrun : runSteps world offset (loadTarget segm ptr) t = some (text, t')) :
    Held t'.regMap (some .t2) ∧
      (Sim isa text t.regMap t'.regMap fun s s' => s.Same s' ∧ s'.regs (.tmp .t2) =
        load64 s.env.mem (printedAt t.heap segm ptr (readReg (BitVec.ofNat 64 offset) s.regs))) ∧
      (SegFree segm ptr → Executes isa text) := by
  obtain ⟨text₁, t₁, text₂, hresolve, hrest, rfl⟩ := runSteps_cons hrun
  obtain ⟨held₁, heap₁, exec₁, sim₁⟩ := @Held.bring isa _ _ _ _ _ _ _ h hheld hresolve
  obtain ⟨held₂, sim₂, exec₂⟩ := ran_loadMem hisa hlegal held₁ (runSteps_singleton hrest)
  refine ⟨held₂, (sim₁.append sim₂).mono ?_, fun hfree => total_append exec₁ (exec₂ hfree)⟩
  rintro s s₂ ⟨s₁, hs₁, rfl⟩
  refine ⟨hs₁.trans (s₁.same_setTmp .t2 _), ?_⟩
  rw [State.set_regs, heap₁, printedAt_same hlegal hs₁, hs₁.env]

end Load

section Call

variable {t t' : TransState} {text : List Asm}

/-- The calls by which CALL pushes the address after it. -/
def callFront : List Step :=
  [.resolve .t2, .returnAddress, .moveStack (-8),
    .normal "MOV" [.dict (makeMemDict 64 rsp 0), .id (.tmp .t2)] false]

theorem process_call (arg : Expr) :
    IndirectBranch.call.process arg = callFront ++ processJump "JMP" arg := by
  simp [IndirectBranch.process, callFront, processPush, Expr.size, ExprId.size, im64Abs]

/-- The number the return address is printed as. -/
def returnAddress (world : World) (offset : Nat) (heap : Heap) : BitVec 64 :=
  BitVec.ofNat 64 (world.make ⟨offset, 64⟩ heap ⟨offset, 64⟩)

theorem returnAddress_call (world : World) (offset : Nat) (heap : Heap) :
    Step.returnAddress.call world offset heap = some ⟨"MOVABS", [.reg (.tmp .t2),
      .int ⟨world.make ⟨offset, 64⟩ heap ⟨offset, 64⟩, 64⟩], false⟩ := rfl

theorem moveStack_map {bytes : Int} {b : BitVec 64}
    (hbytes : StackMove bytes b) (hm : MapInv t.regMap) (hheap : t.heap.Matches stale)
    (hrun : (Step.moveStack bytes).run world offset t = some (text, t')) : t'.regMap = t.regMap := by
  obtain ⟨n, -, -, hcall⟩ := moveStack_call hbytes hheap world offset
  refine Step.map_of_resident hcall hm (fun v hv => ?_) hrun
  rw [conflictRegs_of_rsp (by simp [extractReg]) v hv]
  exact ⟨.p13, hm.sp⟩

theorem TopMove.map_eq {args : List Expr} {printed : List Arg} {tmp : Tmp}
    (hmove : TopMove (.tmp tmp) args printed) (h : Held t.regMap (some tmp))
    (hrun : (Step.normal "MOV" args false).run world offset t = some (text, t')) :
    t'.regMap = t.regMap :=
  Step.map_of_resident (hmove.step_call world offset t.heap) h.map (hmove.resident h) hrun

/-- What CALL does before the jump. -/
theorem ran_callFront (hisa : isa.Moves) (h : Start t stale)
    (hrun : runSteps world offset callFront t = some (text, t')) :
    Held t'.regMap (some .t2) ∧ t'.heap = world.make ⟨offset, 64⟩ t.heap ∧ Executes isa text ∧
      (Sim isa text t.regMap t'.regMap fun s s' =>
        (s.push (returnAddress world offset t.heap)).Same s') ∧
      ∃ text₁, conflictResolve (world.order t.calls) t.regMap [.t2] 0 = some (text₁, t'.regMap) := by
  obtain ⟨text₁, t₁, _, hresolve, hrest₁, rfl⟩ := runSteps_cons hrun
  obtain ⟨text₂, t₂, _, hmovabs, hrest₂, rfl⟩ := runSteps_cons hrest₁
  obtain ⟨text₃, t₃, text₄, hmove, hrest₃, rfl⟩ := runSteps_cons hrest₂
  have hstore := runSteps_singleton hrest₃
  have held₁ := h.held.resolve hresolve
  obtain ⟨exec₁, sim₁⟩ := @Held.sim_resolve isa _ _ _ _ _ _ h.held hresolve
  have hheap₁ : t₁.heap = t.heap := Step.run_heap hresolve
  have hcall := returnAddress_call world offset t₁.heap
  have hone : ∀ v ∈ conflictRegs [.reg (.tmp .t2),
      .int ⟨world.make ⟨offset, 64⟩ t₁.heap ⟨offset, 64⟩, 64⟩], v = .t2 :=
    fun v hv => List.mem_singleton.mp hv
  obtain ⟨held₂, sim₂, exec₂⟩ := held₁.ran_call hcall (fun v hv _ => by rw [hone v hv]; rfl)
    (fun s => exec_movabs hisa rfl _) hmovabs
  have exec₂' : Executes isa text₂ := exec₂ fun hip => absurd (hone _ hip) (by decide)
  have hheap₂ : t₂.heap = world.make ⟨offset, 64⟩ t.heap :=
    (Step.run_heap hmovabs).trans (by rw [hheap₁]; rfl)
  have hmatches : t₂.heap.Matches (world.remake ⟨offset, 64⟩ stale) := hheap₂ ▸ h.heap.make world _
  obtain ⟨held₃, heap₃, exec₃, sim₃⟩ := ran_moveStack hisa .push held₂ hmatches hmove
  obtain ⟨held₄, heap₄, exec₄, sim₄⟩ := ran_storeTop hisa rfl (onlyHeld_tmp .t2) held₃ hstore
  refine ⟨held₄, (heap₄.trans heap₃).trans hheap₂,
    total_append exec₁ (total_append exec₂' (total_append exec₃ exec₄)),
    (sim₁.append (sim₂.append (sim₃.append sim₄))).mono ?_, ?_⟩
  · rintro s s₄ ⟨s₁, hs₁, s₂, rfl, s₃, rfl, rfl⟩
    have hvalue : ∀ x, ((s₁.set (.tmp .t2) x).moveSp (-8)).regs (.tmp .t2) = x := by
      intro x
      rw [State.moveSp_regs, moveSp, Function.update_of_ne (by rintro ⟨⟩), State.set_regs]
    rw [hvalue, hheap₁]
    exact ((hs₁.trans (s₁.same_setTmp .t2 _)).moveSp (-8)).setTop _
  · have hmap₂ : t₂.regMap = t₁.regMap := Step.map_of_resident hcall held₁.map
      (fun v hv => hone v hv ▸ (held₁.tmp .t2 rfl).mpr rfl) hmovabs
    have hmap₃ := moveStack_map .push held₂.map hmatches hmove
    have hmap₄ := (topMove_store (.tmp .t2)).map_eq held₃ hstore
    obtain ⟨r, hr, heq⟩ := Option.map_eq_some_iff.mp hresolve
    obtain ⟨rfl, rfl⟩ := Prod.mk.inj heq
    exact ⟨r.1, hr.trans (by rw [hmap₄, hmap₃, hmap₂])⟩

end Call

section Evict

variable {m m' : RegMap} {order : PopOrder} {text : List Asm} {v : Virt}

end Evict

namespace IndirectBranch

/-- The heap in which the operand is purified: CALL has made the address after it by then. -/
def heapAt (resave : Bool) (offset : Nat) (heap : Heap) : IndirectBranch → Heap
  | .jmp => heap
  | .call => World.make ⟨fun _ => .standard, resave⟩ ⟨offset, 64⟩ heap

/-- The address after a CALL prints as what it is. -/
def SavesNext (resave : Bool) (offset : Nat) (heap : Heap) : Prop :=
  heapAt resave offset heap .call ⟨offset, 64⟩ = offset

/-- A special register must be resident, and stay so when CALL brings in its temporary; a memory
operand must fit beside the temporary, must not combine RIP with a segment base and must have its
constants intact; and CALL must not read RSP. -/
def Safe (resave : Bool) (offset : Nat) (t : TransState) : IndirectBranch → Expr → Prop
  | .jmp, .id r => ∀ v, r.virt = some v → t.regMap.Resident v
  | .call, .id r => r ≠ rsp ∧
      (∀ v, r.virt = some v → t.regMap.Resident v ∧ (v ∈ stableRegs ∨ idleRegs t.regMap ≠ [])) ∧
      SavesNext resave offset t.heap
  | op, .mem size segm ptr => Fits .t2 segm ptr ∧ SegFree segm ptr ∧
      (Expr.mem size segm ptr).Intact (op.heapAt resave offset t.heap) ∧
      (op = .call → Virt.sp ∉ memVirts segm ptr ∧ SavesNext resave offset t.heap)
  | _, _ => False

end IndirectBranch

section Cases

variable {t : TransState} {resave : Bool} {g : Gpr} {segm : Option Seg} {ptr : Addr}
  {S : State → Prop}

theorem IndirectBranch.Correct.mono {op : IndirectBranch} {arg : Expr}
    (h : op.Correct isa resave offset arg t fun _ => True) : op.Correct isa resave offset arg t S := by
  intro order
  obtain ⟨body, t', hrun, hall⟩ := h order
  exact ⟨body, t', hrun, fun c _ => hall c trivial⟩

theorem process_jmpReg (g : Gpr) :
    IndirectBranch.jmp.process (.id (.gpr g .q)) = [] ++ [.jumpReg "JMP" (.gpr g .q)] := rfl

theorem process_jmpMem (segm : Option Seg) (ptr : Addr) :
    IndirectBranch.jmp.process (.mem 64 segm ptr) = loadTarget segm ptr ++ [.jumpReg "JMP" (.tmp .t2)] := rfl

/-- A temporary that is held is found. -/
theorem Held.resident {m : RegMap} {tmp : Tmp} (h : Held m (some tmp)) (v : Virt)
    (hv : (ExprId.tmp tmp).virt = some v) : m.Resident v := by
  obtain rfl : tmp.virt = v := by
    cases tmp <;> exact Option.some.inj hv
  exact (h.tmp _ tmp.virt_isTmp).mpr rfl

theorem returnAddress_eq (hsaves : IndirectBranch.SavesNext resave offset t.heap) (order : Nat → PopOrder) :
    returnAddress ⟨order, resave⟩ offset t.heap = BitVec.ofNat 64 offset :=
  congrArg (BitVec.ofNat 64) hsaves

end Cases

end UserspaceBypass
