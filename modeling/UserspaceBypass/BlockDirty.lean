import UserspaceBypass.SimulateSteps

/-! Which of R12 to R15 a translated block has written, and which of them may differ from their
slots. A register goes out of step with its slot when an instruction writes it or a mask changes
it, and comes back in step when it is saved: by `release_conflict`, or when it gives up its place. -/

namespace UserspaceBypass

open StraightLine

/-- The program's R12 to R15. -/
def userRegs : List Virt := [.r12, .r13, .r14, .r15]

theorem userRegs_flushed {v : Virt} (hv : v ∈ userRegs) : v.Flushed := by
  cases v <;> first | exact ⟨by decide, by decide, by decide⟩ | exact absurd hv (by decide)

theorem userRegs_ne_ip {v : Virt} (hv : v ∈ userRegs) : v ≠ .ip := by
  rintro rfl
  exact absurd hv (by decide)

theorem userRegs_not_tmp {v : Virt} (hv : v ∈ userRegs) : v.isTmp = false := by
  cases v <;> first | rfl | exact absurd hv (by decide)

/-- The virtual registers among the operands that the instruction writes. -/
def Call.writes (use : RegUse) (call : Call) : List Virt :=
  operandVirts ((call.args.zipIdx.filter fun a => use.operand call.name a.2).map Prod.fst)

/-- The virtual registers that the line masks. -/
def Call.masks (checked : List ExprId) (call : Call) : List Virt :=
  (masked (toCheckRegs call.name call.args checked) call.canCheck).filterMap ExprId.virt

/-- The registers written so far, and those that may differ from their slots. -/
structure Marks where
  written : List Virt
  dirty : List Virt

/-- What the step from `t` to `t'` does to the marks. An indirect jump saves all registers and then
overwrites R14. -/
def Step.marks (use : RegUse) (world : World) (offset : Nat) (step : Step) (t t' : TransState)
    (marks : Marks) : Marks :=
  let next : Marks :=
    match step.call world offset t.heap with
    | some call =>
        ⟨call.writes use ++ marks.written, call.writes use ++ call.masks t.checked ++ marks.dirty⟩
    | none =>
        match step with
        | .release true => ⟨marks.written, []⟩
        | .jumpReg _ _ => ⟨marks.written, (t.regMap .p14).toList⟩
        | _ => marks
  ⟨next.written, next.dirty.filter fun v => (invMap t'.regMap v).isSome⟩

def stepsMarks (use : RegUse) (world : World) (offset : Nat) :
    List Step → TransState → Marks → Marks
  | [], _, marks => marks
  | step :: steps, t, marks =>
      match step.run world offset t with
      | some (_, t') => stepsMarks use world offset steps t' (step.marks use world offset t t' marks)
      | none => marks

/-- The marks after the given lines. -/
def linesMarks (use : RegUse) (world : World) (emitted : List Emitted) (marks : Marks) : Marks :=
  emitted.foldl (fun marks e => stepsMarks use world e.offset
    (translate e.line e.blockEnd e.canCheck) e.before marks) marks

/-- A block starts with nothing written and nothing to save. -/
def Marks.start : Marks := ⟨[], []⟩

/-- Every register that is not marked dirty agrees with its slot. -/
def Clean (marks : Marks) (m : RegMap) (c : Machine) : Prop :=
  ∀ v ∈ userRegs, v ∉ marks.dirty → Synced m c v

/-- A block that starts from `block_init` has none of R12 to R15 resident. -/
theorem synced_blockInit (c : Machine) : ∀ v ∈ userRegs, Synced blockInit c v := by
  intro v hv p k hp
  cases p <;> cases hp <;> exact absurd hv (by decide)

variable {isa : Isa} {use : RegUse} {world : World} {offset : Nat}

theorem Call.notWritten (hisa : isa.Respects use) {call : Call} {v : Virt}
    (hv : v ∉ call.writes use) : NotWritten isa call.name call.args v := by
  intro operands hidden env e he k value r hk harg hr
  refine hv (List.mem_filterMap.mpr ⟨.reg r, List.mem_map.mpr ⟨(.reg r, k), ?_, rfl⟩, hr⟩)
  refine List.mem_filter.mpr ⟨List.mem_zipIdx_iff_getElem?.mpr harg, ?_⟩
  exact hisa.operand _ _ _ _ _ he k value hk

theorem Call.not_masked {call : Call} {checked : List ExprId} {v : Virt}
    (hv : v ∉ call.masks checked) :
    ∀ r ∈ masked (toCheckRegs call.name call.args checked) call.canCheck, r.virt ≠ some v :=
  fun r hr hvirt => hv (List.mem_filterMap.mpr ⟨r, hr, hvirt⟩)

theorem synced_of_release {m : RegMap} (hm : m.Injective) {c c' : Machine}
    (h : execText isa (releaseConflict m true) c = some c') {v : Virt} (hv : v ∈ userRegs) :
    Synced m c' v := by
  obtain ⟨c₁, hexec, hregs, -, hin, -⟩ := exec_releaseConflict isa hm c
  obtain rfl : c' = c₁ := Option.some.inj (h.symm.trans hexec)
  intro p k hp hk
  rw [hin v k hk (userRegs_flushed hv), virtValue_resident hm c hp, hregs]

/-- An indirect jump, where control gets past it, leaves R12, R13 and R15 as they were saved. -/
theorem synced_of_jumpReg {m : RegMap} (hm : m.Injective) {src name : String} {target : Label}
    {c c' : Machine} (h : execText isa (releaseConflict m true ++
      (if src = "R14" then [] else [.moveTarget src]) ++ [.jump name target]) c = some c')
    {v : Virt} (hv : v ∈ userRegs) (h14 : m .p14 ≠ some v) : Synced m c' v := by
  obtain ⟨c₂, hfront, hjump⟩ := runAll_append_some.mp h
  obtain ⟨c₁, hrelease, hmove⟩ := runAll_append_some.mp hfront
  have hs := synced_of_release hm hrelease hv
  rw [runAll_singleton, Asm.exec] at hjump
  split_ifs at hjump
  cases hjump
  split_ifs at hmove
  · cases hmove
    exact hs
  · rw [runAll_singleton] at hmove
    obtain ⟨g, -, rfl⟩ := Option.map_eq_some_iff.mp hmove
    intro p k hp hk
    refine (Function.update_of_ne (fun heq => h14 ?_) _ _).trans (hs p k hp hk)
    rw [← Phys.gpr_injective (Family.gpr.inj heq)]
    exact hp

/-- A register that is in no place agrees with its slot. -/
theorem synced_of_not_resident {m : RegMap} {c : Machine} {v : Virt} (h : (invMap m v).isSome = false) :
    Synced m c v := by
  intro p k hp
  have hnone := Option.isNone_iff_eq_none.mp (by simpa using h)
  exact absurd hp (by simpa using List.find?_eq_none.mp hnone p (by simp [Phys.mem_all]))

/-- One step keeps the marks right. -/
theorem Clean.step (hisa : isa.Respects use) {step : Step} {t t' : TransState} {text : List Asm}
    {marks : Marks} {c c' : Machine} (hm : MapInv t.regMap) (hclean : Clean marks t.regMap c)
    (hrun : step.run world offset t = some (text, t')) (hexec : execText isa text c = some c') :
    Clean (step.marks use world offset t t' marks) t'.regMap c' := by
  intro v hv hdirty
  cases hres : (invMap t'.regMap v).isSome with
  | false => exact synced_of_not_resident hres
  | true =>
      simp only [Step.marks, List.mem_filter, hres, and_true] at hdirty
      cases hcall : step.call world offset t.heap with
      | some call =>
          simp only [hcall, List.mem_append, not_or] at hdirty
          obtain ⟨⟨hwrite, hmask⟩, hold⟩ := hdirty
          obtain ⟨heap, ⟨st⟩⟩ := Step.stages hcall hm hrun
          exact st.synced hm hexec (userRegs_ne_ip hv) (call.notWritten hisa hwrite)
            (call.not_masked hmask) (hclean v hv hold)
      | none =>
          rw [hcall] at hdirty
          have hkeep : step.Encodable → v ∉ marks.dirty → Synced t'.regMap c' v := fun henc hold =>
            (Step.quiet hm henc hcall hrun hexec).1.sync v (userRegs_ne_ip hv) (userRegs_not_tmp hv)
              (hclean v hv hold)
          cases step with
          | release blockEnd =>
              cases blockEnd with
              | true =>
                  cases hrun
                  exact synced_of_release hm.inj hexec hv
              | false => exact hkeep trivial hdirty
          | jumpReg name r =>
              obtain ⟨src, -, heq⟩ := Option.map_eq_some_iff.mp hrun
              obtain ⟨rfl, rfl⟩ := Prod.mk.inj heq
              exact synced_of_jumpReg hm.inj hexec hv (by simpa using hdirty)
          | _ => exact hkeep trivial hdirty

theorem Clean.steps (hisa : isa.Respects use) {steps : List Step} {t t' : TransState}
    {text : List Asm} {marks : Marks} {c c' : Machine} (hm : MapInv t.regMap)
    (hclean : Clean marks t.regMap c) (hrun : runSteps world offset steps t = some (text, t'))
    (hexec : execText isa text c = some c') :
    Clean (stepsMarks use world offset steps t marks) t'.regMap c' := by
  induction steps generalizing t text marks c with
  | nil =>
      cases hrun
      cases hexec
      exact hclean
  | cons step steps ih =>
      obtain ⟨text₁, t₁, text₂, hstep, hrest, rfl⟩ := Trans.andThen_some hrun
      obtain ⟨c₁, hexec₁, hexec₂⟩ := runAll_append_some.mp hexec
      rw [stepsMarks, hstep]
      exact ih (Step.mapInv hm hstep) (hclean.step hisa hm hstep hexec₁) hrest hexec₂

/-- The marks are right in front of every line that control gets to, and after the last. -/
theorem Clean.lines (hisa : isa.Respects use) {lines : List Line} {canCheck : List Bool}
    {t t' : TransState} {emitted : List Emitted} {marks : Marks} {c : Machine}
    (hm : MapInv t.regMap) (hclean : Clean marks t.regMap c)
    (hrun : translateLines world lines offset canCheck t = some (emitted, t')) :
    (∀ (i : Nat) e c', emitted[i]? = some e →
      execText isa ((emitted.take i).flatMap Emitted.text) c = some c' →
        Clean (linesMarks use world (emitted.take i) marks) e.before.regMap c') ∧
    ∀ c', execText isa (emitted.flatMap Emitted.text) c = some c' →
      Clean (linesMarks use world emitted marks) t'.regMap c' := by
  induction lines generalizing offset canCheck t emitted marks c with
  | nil =>
      cases hrun
      refine ⟨fun i e c' hi => by simp at hi, fun c' hexec => ?_⟩
      cases hexec
      exact hclean
  | cons line lines ih =>
      obtain ⟨heap, flag, text, after, rest, -, -, hsteps, hrest, rfl⟩ := translateLines_cons hrun
      have hbefore : MapInv { t with heap := heap }.regMap := hm
      have hclean₀ : Clean marks { t with heap := heap }.regMap c := hclean
      have hline := fun c₁ (hexec : execText isa text c = some c₁) =>
        ih (runSteps_mapInv hbefore hsteps) (hclean₀.steps hisa hbefore hsteps hexec) hrest
      refine ⟨fun i e c' hi hexec => ?_, fun c' hexec => ?_⟩
      · cases i with
        | zero =>
            cases hi
            cases hexec
            exact hclean₀
        | succ i =>
            rw [List.take_succ_cons, List.flatMap_cons] at hexec
            obtain ⟨c₁, hexec₁, hexec₂⟩ := runAll_append_some.mp hexec
            exact (hline c₁ hexec₁).1 i e c' hi hexec₂
      · rw [List.flatMap_cons] at hexec
        obtain ⟨c₁, hexec₁, hexec₂⟩ := runAll_append_some.mp hexec
        exact (hline c₁ hexec₁).2 c' hexec₂

theorem clean_start (c : Machine) : Clean .start blockInit c :=
  fun v hv _ => synced_blockInit c v hv

end UserspaceBypass
