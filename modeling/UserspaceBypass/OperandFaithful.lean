import UserspaceBypass.LineStart

/-! Operands as the processor computes them. The one instruction of a call stands in the text between
moves and masks; a call is faithful if that instruction addresses memory where the decoded operand
does, in the state the program is in, and has the decoded immediates. Renaming keeps an address, so
the faithful runs are those that print their operands as they were decoded. -/

namespace UserspaceBypass

open StraightLine

variable {isa : Isa} {world : World} {offset : Nat}

/-- The state of the program when the instruction of a call executes: the one the machine shows in
front of the call, with the bases masked that the call masks. -/
def Call.view (isa : Isa) (offset : Nat) (call : Call) (t : TransState) (c : Machine) : State :=
  (masked (toCheckRegs call.name call.args t.checked) call.canCheck).foldl
    (State.mask isa (BitVec.ofNat 64 offset)) (abs t.regMap c)

/-- An operand of the text, where `front` has been executed: a memory operand has the size of the
decoded one and its address in the state of the program, an immediate is the decoded number. -/
def Expr.Computes (isa : Isa) (offset : Nat) (front : List Asm) (view : Machine → State) :
    Expr → Arg → Prop
  | .mem size segm ptr, arg => ∃ d, arg = .mem d ∧ d.sz = size ∧
      ∀ c, ∃ c', execText isa front c = some c' ∧ d.address (readReg 0 c'.regs) =
        operandAddress segm ptr (readReg (BitVec.ofNat 64 offset) (view c).regs)
  | .int n, arg => ∃ m, arg = .int m ∧ m.arg = n.arg
  | _, _ => True

/-- The text of a call is its instruction between moves, with operands that compute what `args` do. -/
def Call.Shows (isa : Isa) (offset : Nat) (call : Call) (t : TransState) (text : List Asm)
    (args : List Expr) : Prop :=
  ∃ front args' back, text = front ++ .inst call.name args' :: back ∧
    (∀ a ∈ front ++ back, a.isMove = true) ∧
    List.Forall₂ (Expr.Computes isa offset front (call.view isa offset t)) args args'

/-- A call of a handler whose operands were decoded: `process_normal`, and the `MOV` of a pushed
constant. -/
def Step.Faithful (isa : Isa) (world : World) (offset : Nat) (t : TransState) (text : List Asm) :
    Step → Prop
  | .normal name args canCheck =>
      (Call.of name args canCheck t.heap).Shows isa offset t text args
  | .pushInt n => ∀ call ∈ (Step.pushInt n).call world offset t.heap,
      call.Shows isa offset t text [.dict (makeMemDict 32 rsp 0), .int n]
  | _ => True

/-- The calls in turn, each with its own part of the text. -/
def StepsFaithful (isa : Isa) (world : World) (offset : Nat) :
    List Step → TransState → List Asm → Prop
  | [], _, text => text = []
  | step :: steps, t, text => ∃ text₁ t₁ text₂, step.run world offset t = some (text₁, t₁) ∧
      text = text₁ ++ text₂ ∧ step.Faithful isa world offset t text₁ ∧
      StepsFaithful isa world offset steps t₁ text₂

/-- Every operand of the line is emitted with the meaning it was decoded with. -/
def Emitted.Faithful (isa : Isa) (world : World) (e : Emitted) : Prop :=
  StepsFaithful isa world e.offset (translate e.line e.blockEnd e.canCheck) e.before e.text

/-- The addresses of the operand are addresses of x86-64. -/
def Expr.AddrLegal : Expr → Prop
  | .mem _ _ ptr => ptr.Legal
  | _ => True

structure Line.AddrLegal (line : Line) : Prop extends line.Decoded where
  legal : ∀ e ∈ line.args, e.AddrLegal

section Mask

/-- A mask changes each register by itself, and neither 0 nor 1. -/
theorem State.mask_family (isa : Isa) (ip : BitVec 64) (r : ExprId) (f : Family) :
    ∃ F : BitVec 64 → BitVec 64, F 0 = 0 ∧ F 1 = 1 ∧
      ∀ s : State, (s.mask isa ip r).regs f = F (s.regs f) := by
  have hother : (∀ regs x, writeReg regs r x f = regs f) → ∃ F : BitVec 64 → BitVec 64,
      F 0 = 0 ∧ F 1 = 1 ∧ ∀ s : State, (s.mask isa ip r).regs f = F (s.regs f) :=
    fun h => ⟨id, rfl, rfl, fun s => (h _ _).trans (h _ _)⟩
  have hwhole : (∀ regs, readReg ip regs r = regs f) → (∀ regs x, writeReg regs r x f = x) →
      ∃ F : BitVec 64 → BitVec 64, F 0 = 0 ∧ F 1 = 1 ∧
        ∀ s : State, (s.mask isa ip r).regs f = F (s.regs f) :=
    fun hread hwrite => ⟨fun x => (x <<< 1) >>> 1, by decide, by decide, fun s => by
      simp only [State.mask, State.shift, hread, hwrite]⟩
  cases r with
  | gpr g width =>
      by_cases hf : f = .gpr g
      · subst hf
        refine ⟨fun x => width.put (width.put x (width.get x <<< 1))
          (width.get (width.put x (width.get x <<< 1)) >>> 1), ?_, ?_, fun s => ?_⟩
        · cases width <;> decide
        · cases width <;> decide
        · simp [State.mask, State.shift, writeReg, readReg]
      · exact hother fun regs x => Function.update_of_ne hf _ _
  | high h =>
      let read : BitVec 64 → BitVec 64 := fun x => (x >>> 8) &&& 0xFF#64
      let write : BitVec 64 → BitVec 64 → BitVec 64 :=
        fun x value => (x &&& ~~~ 0xFF00#64) ||| ((value &&& 0xFF#64) <<< 8)
      by_cases hf : f = .gpr h.gpr
      · subst hf
        refine ⟨fun x => write (write x (read x <<< 1)) (read (write x (read x <<< 1)) >>> 1),
          by decide, by decide, fun s => ?_⟩
        simp [State.mask, State.shift, writeReg, readReg, read, write]
      · exact hother fun regs x => Function.update_of_ne hf _ _
  | seg x =>
      by_cases hf : f = .seg x
      · subst hf
        exact hwhole (fun _ => rfl) fun regs x => Function.update_self _ _ _
      · exact hother fun regs x => Function.update_of_ne hf _ _
  | tmp t =>
      by_cases hf : f = .tmp t
      · subst hf
        exact hwhole (fun _ => rfl) fun regs x => Function.update_self _ _ _
      · exact hother fun regs x => Function.update_of_ne hf _ _
  | rip => exact hother fun _ _ => rfl
  | eip => exact hother fun _ _ => rfl
  | xmm k => exact hother fun _ _ => rfl

theorem masks_family (isa : Isa) (ip : BitVec 64) (rs : List ExprId) (f : Family) :
    ∃ F : BitVec 64 → BitVec 64, F 0 = 0 ∧ F 1 = 1 ∧
      ∀ s : State, (rs.foldl (State.mask isa ip) s).regs f = F (s.regs f) := by
  induction rs with
  | nil => exact ⟨id, rfl, rfl, fun _ => rfl⟩
  | cons r rs ih =>
      obtain ⟨F, h₀, h₁, hF⟩ := ih
      obtain ⟨G, g₀, g₁, hG⟩ := State.mask_family isa ip r f
      refine ⟨F ∘ G, ?_, ?_, fun s => ?_⟩
      · rw [Function.comp_apply, g₀, h₀]
      · rw [Function.comp_apply, g₁, h₁]
      · rw [List.foldl_cons, hF, hG, Function.comp_apply]

end Mask

section Call

variable {call : Call} {t t' : TransState} {text : List Asm} {heap heap' : Heap}

/-- The text in front of the instruction of a call. -/
def Stages.front (st : Stages world call.name call.args offset call.canCheck t text t') : List Asm :=
  st.pre ++ checkInst st.toCheck' call.canCheck

/-- The state the renamed instruction finds is the one the call is made in, but for temporaries. -/
theorem Stages.executes_front (isa : Isa)
    (st : Stages world call.name call.args offset call.canCheck t text t') (hm : MapInv t.regMap)
    (c : Machine) : ∃ c', execText isa st.front c = some c' ∧ IpAt st.map c' offset ∧
      ∀ f, (∀ tmp, f ≠ .tmp tmp) → absRegs st.map c' f = (call.view isa offset t c).regs f := by
  obtain ⟨c₁, c₂, hready⟩ := st.ready isa hm c
  refine ⟨c₂, runAll_append_some.mpr ⟨c₁, hready.pre, hready.masks⟩, hready.ip, fun f hf => ?_⟩
  obtain ⟨F, -, -, hF⟩ := masks_family isa (BitVec.ofNat 64 offset)
    (masked (toCheckRegs call.name call.args t.checked) call.canCheck) f
  have hmoved := hready.moved.sameView.absRegs_eq (f := f) fun v hv => isTmp_of_family hf hv
  change (abs st.map c₂).regs f = _
  rw [hready.masked, hF, Call.view, hF]
  exact congrArg F hmoved

/-- **Renaming keeps addresses.** The renamed memory operand has the printed address, in the state the
call is made in. -/
theorem Stages.address (isa : Isa)
    (st : Stages world call.name call.args offset call.canCheck t text t') (hm : MapInv t.regMap)
    {size : Nat} {segm : Option Seg} {ptr : Addr} (hlegal : ptr.Legal) {a' : Arg}
    (hmap : applyMapArg st.map (Arg.printed heap' (argPurify (.mem size segm ptr) heap).1) =
      some a') :
    ∃ d', a' = .mem d' ∧ d'.sz = size ∧ ∀ c, ∃ c', execText isa st.front c = some c' ∧
      d'.address (readReg 0 c'.regs) = printedAddress heap heap' segm ptr
        (readReg (BitVec.ofNat 64 offset) (call.view isa offset t c).regs) := by
  obtain ⟨d, hd, hsz, haddr, -⟩ := hlegal.toDecoded.printed_mem size segm heap heap'
  rw [hd] at hmap
  obtain ⟨d', hd', rfl⟩ := Option.map_eq_some_iff.mp hmap
  refine ⟨d', rfl, (applyMapMem_some hd').1.trans hsz, fun c => ?_⟩
  obtain ⟨c', hexec, hip, hregs⟩ := st.executes_front isa hm c
  refine ⟨c', hexec, ?_⟩
  rw [address_applyMap (st.injective hm) hip hd', haddr]
  exact printedAddress_congr fun r hr => readReg_congr hregs (hlegal.not_tmp hr)

/-- Some machine shows 0, and some machine 1, in every register of the program. -/
theorem Call.exists_view (isa : Isa) (offset : Nat) (call : Call) (hm : t.regMap.Injective)
    {x : BitVec 64} (hx : x = 0 ∨ x = 1) :
    ∃ c, ∀ g, (call.view isa offset t c).regs (.gpr g) = x := by
  let s : State := ⟨fun _ => x, ⟨fun _ => false, fun _ => 0, fun _ => 0⟩⟩
  refine ⟨t.regMap.machine s, fun g => ?_⟩
  obtain ⟨F, h₀, h₁, hF⟩ := masks_family isa (BitVec.ofNat 64 offset)
    (masked (toCheckRegs call.name call.args t.checked) call.canCheck) (.gpr g)
  rw [Call.view, hF, (exists_machine hm s).gpr]
  rcases hx with rfl | rfl
  · exact h₀
  · exact h₁

/-- An operand computes what was decoded exactly if it is printed as it was decoded. -/
theorem Expr.computes_iff (isa : Isa)
    (st : Stages world call.name call.args offset call.canCheck t text t') (hm : MapInv t.regMap)
    {e : Expr} (he : e.AddrLegal) {a' : Arg}
    (hmap : applyMapArg st.map (Arg.printed heap' (argPurify e heap).1) = some a') :
    e.Computes isa offset st.front (call.view isa offset t) a' ↔
      e.Denotes (Arg.printed heap' (argPurify e heap).1) := by
  cases e with
  | mem size segm ptr =>
      obtain ⟨d', rfl, hsz, haddr⟩ := st.address isa hm he hmap
      constructor
      · rintro ⟨d, heq, -, hall⟩
        obtain rfl := Arg.mem.inj heq
        refine @Addr.Legal.denotes_of (BitVec.ofNat 64 offset) _ _ _ _ he size fun x hx => ?_
        obtain ⟨c, hc⟩ := call.exists_view isa offset hm.inj hx
        obtain ⟨c₁, hexec₁, heq₁⟩ := hall c
        obtain ⟨c₂, hexec₂, heq₂⟩ := haddr c
        obtain rfl := Option.some.inj (hexec₁.symm.trans hexec₂)
        exact ⟨_, hc, heq₂.symm.trans heq₁⟩
      · rintro ⟨d, hd, -, hall⟩
        refine ⟨d', rfl, hsz, fun c => ?_⟩
        obtain ⟨c', hexec, heq⟩ := haddr c
        obtain ⟨d₀, hd₀, -, hprinted, -⟩ :=
          he.toDecoded.printed_mem size segm heap heap'
        obtain rfl := Arg.mem.inj (hd.symm.trans hd₀)
        exact ⟨c', hexec, by rw [heq, ← hprinted, hall, operandAddress]⟩
  | int n =>
      obtain rfl := Option.some.inj hmap
      rfl
  | _ => exact Iff.rfl

/-- A text has one instruction between moves at most. -/
theorem inst_unique {front front' back back' : List Asm} {name name' : String} {args args' : List Arg}
    (h : front ++ .inst name args :: back = front' ++ .inst name' args' :: back')
    (hfront : ∀ a ∈ front, a.isMove = true) (hfront' : ∀ a ∈ front', a.isMove = true) :
    front = front' ∧ args = args' := by
  have htake := congrArg (List.takeWhile Asm.isMove) h
  rw [List.takeWhile_append_of_pos hfront, List.takeWhile_append_of_pos hfront',
    List.takeWhile_cons_of_neg (by simp [Asm.isMove]),
    List.takeWhile_cons_of_neg (by simp [Asm.isMove]), List.append_nil, List.append_nil] at htake
  subst htake
  have hinst := (List.cons.inj (List.append_cancel_left h)).1
  exact ⟨rfl, (Asm.inst.inj hinst).2⟩

/-- The operands of a call, given as they were decoded and as they are printed. -/
theorem Call.shows_iff (isa : Isa)
    (st : Stages world call.name call.args offset call.canCheck t text t') {args : List Expr}
    {D : Expr → Arg → Prop}
    (hargs : List.Forall₂ (fun e a => ∀ a', applyMapArg st.map a = some a' →
      (e.Computes isa offset st.front (call.view isa offset t) a' ↔ D e a)) args call.args) :
    call.Shows isa offset t text args ↔ ∀ x ∈ args.zip call.args, D x.1 x.2 := by
  obtain ⟨htext, hmoves, hback⟩ := st.around_inst
  rw [← MapM.forall₂_iff_zip st.rename hargs fun e a a' hiff hmap => hiff a' hmap]
  constructor
  · rintro ⟨front, args', back, heq, hmove, hall⟩
    obtain ⟨rfl, rfl⟩ := inst_unique (heq.symm.trans htext)
      (fun a ha => hmove a (List.mem_append_left _ ha)) hmoves
    exact hall
  · exact fun hall => ⟨_, _, _, htext, List.forall_mem_append.mpr ⟨hmoves, hback⟩, hall⟩

end Call

theorem purifyArgs_forall₂ {P : Expr → Prop} {args : List Expr} (h : ∀ e ∈ args, P e)
    (heap heap' : Heap) :
    List.Forall₂ (fun e a => P e ∧ ∃ heap, a = Arg.printed heap' (argPurify e heap).1) args
      ((purifyArgs args heap).1.map (Arg.printed heap')) := by
  induction args generalizing heap with
  | nil => exact .nil
  | cons e args ih =>
      obtain ⟨he, hargs⟩ := List.forall_mem_cons.mp h
      exact .cons ⟨he, heap, rfl⟩ (ih hargs _)

/-- A call is faithful exactly if its operands are printed as they were decoded. -/
theorem Step.faithful_iff (isa : Isa) {step : Step} (hlegal : step.Each Expr.AddrLegal)
    {t t' : TransState} {text : List Asm} (hm : MapInv t.regMap)
    (hrun : step.run world offset t = some (text, t')) :
    step.Faithful isa world offset t text ↔
      ∀ x ∈ step.operands world t.heap, x.1.Denotes x.2 := by
  cases step with
  | normal name args canCheck =>
      have hcall : (Step.normal name args canCheck).call world offset t.heap =
        some (.of name args canCheck t.heap) := rfl
      obtain ⟨heap, ⟨st⟩⟩ := Step.stages hcall hm hrun
      refine Call.shows_iff isa st ((purifyArgs_forall₂ hlegal t.heap _).imp ?_)
      rintro e a ⟨he, heap₁, rfl⟩ a' hmap
      exact Expr.computes_iff isa st hm he hmap
  | pushInt n =>
      let m := pushedInt n t.heap
      let call : Call :=
        ⟨"MOV", [.mem (makeMemDict 32 rsp 0), .int (m.printed (world.make m t.heap))], false⟩
      have hcall : (Step.pushInt n).call world offset t.heap = some call := rfl
      obtain ⟨heap, ⟨st⟩⟩ := Step.stages hcall hm hrun
      have hshows : call.Shows isa offset t text [.dict (makeMemDict 32 rsp 0), .int n] ↔ _ :=
        Call.shows_iff isa st (D := Expr.Denotes) (.cons (fun _ _ => Iff.rfl) (.cons ?_ .nil))
      · simp only [Faithful, hcall, Option.mem_def, Option.some.injEq, forall_eq', hshows]
        simp [operands, call, m, Expr.Denotes]
      · intro a' hmap
        obtain rfl := Option.some.inj hmap
        rfl
  | _ => simp [Faithful, operands]

theorem stepsFaithful_iff (isa : Isa) {steps : List Step} (hlegal : AllEach Expr.AddrLegal steps)
    {t t' : TransState} {text : List Asm} (hm : MapInv t.regMap)
    (hrun : runSteps world offset steps t = some (text, t')) :
    StepsFaithful isa world offset steps t text ↔
      ∀ x ∈ stepsOperands world offset steps t.heap, x.1.Denotes x.2 := by
  induction steps generalizing t text with
  | nil =>
      cases hrun
      simp [StepsFaithful, stepsOperands]
  | cons step steps ih =>
      obtain ⟨text₁, t₁, text₂, hstep, hrest, rfl⟩ := runSteps_cons hrun
      obtain ⟨hfirst, hothers⟩ := List.forall_mem_cons.mp hlegal
      have hiff := ih hothers (Step.mapInv hm hstep) hrest
      rw [Step.run_heap hstep] at hiff
      rw [stepsOperands, List.forall_mem_append, ← Step.faithful_iff isa hfirst hm hstep, ← hiff]
      constructor
      · rintro ⟨text₁', t₁', text₂', hstep', htext, hfaithful, hsteps⟩
        obtain ⟨rfl, rfl⟩ := Prod.mk.inj (Option.some.inj (hstep'.symm.trans hstep))
        obtain rfl := List.append_cancel_left htext
        exact ⟨hfaithful, hsteps⟩
      · rintro ⟨hfaithful, hsteps⟩
        exact ⟨text₁, t₁, text₂, hstep, rfl, hfaithful, hsteps⟩

theorem Emitted.Regular.faithful_iff {e : Emitted} (h : e.Regular world) (hlegal : e.line.AddrLegal)
    (isa : Isa) : e.Faithful isa world ↔ e.Denotes world :=
  stepsFaithful_iff isa
    (translate_each hlegal.legal (fun _ => trivial) (fun _ => trivial) e.blockEnd e.canCheck) h.map
    h.run

end UserspaceBypass
