import UserspaceBypass.OperandEncoding
import UserspaceBypass.ProgramRun
import UserspaceBypass.SymbolTable

/-! What translated code leaves to the wrapper. No instruction it emits names RSP or RBP, which
`apply_map` replaces like every other register with a slot, and none uses them without naming them,
unless the program has such an instruction. And it never comes to the labels for segment errors,
behind which the wrapper pops its stack. -/

namespace UserspaceBypass

open Layout StraightLine StateTransition

/-- A register that is not of the frame: one without a slot, or one of R12 to R15. -/
def ExprId.Spares (r : ExprId) : Prop := r.virt = none ∨ ∃ p width, r = Phys.reg p width

/-- No operand is RSP or RBP, and the instruction does not use them without naming them. -/
def Asm.Spares : Asm → Prop
  | .inst name args => ¬UsesStack name ∧ ∀ a ∈ args, ∀ r ∈ extractReg a, r.Spares
  | .shl r | .shr r => r.Spares
  | _ => True

section Exec

variable {isa : Isa} {c c' : Machine}

theorem writeReg_spares {r : ExprId} (hr : r.Spares) (regs : Regs) (value : BitVec 64) {g : Gpr}
    (hg : g ∈ [Gpr.rsp, .rbp]) : writeReg regs r value (.gpr g) = regs (.gpr g) := by
  have hvirt : (Family.gpr g).virt ≠ none := by
    rcases List.mem_pair.mp hg with rfl | rfl <;> decide
  rcases hr with hr | ⟨p, width, rfl⟩
  · cases r with
    | gpr g' width =>
        have hne : Family.gpr g ≠ .gpr g' := fun heq => hvirt (heq ▸ hr)
        exact Function.update_of_ne hne _ _
    | high h =>
        have hne : Family.gpr g ≠ .gpr h.gpr := by
          rcases List.mem_pair.mp hg with rfl | rfl <;> cases h <;> decide
        exact Function.update_of_ne hne _ _
    | seg s => exact Function.update_of_ne (Family.noConfusion : Family.gpr g ≠ .seg s) _ _
    | tmp t => exact Function.update_of_ne (Family.noConfusion : Family.gpr g ≠ .tmp t) _ _
    | _ => rfl
  · have hne : Family.gpr g ≠ .gpr p.gpr := by
      rcases List.mem_pair.mp hg with rfl | rfl <;> cases p <;> decide
    exact Function.update_of_ne hne _ _

theorem writeArgs_spares {args : List Arg} (hargs : ∀ a ∈ args, ∀ r ∈ extractReg a, r.Spares)
    (writes : List (Option (BitVec 64))) (regs : Regs) {g : Gpr} (hg : g ∈ [Gpr.rsp, .rbp]) :
    writeArgs args writes regs (.gpr g) = regs (.gpr g) := by
  induction args generalizing writes regs with
  | nil => rfl
  | cons a args ih =>
      obtain ⟨ha, hrest⟩ := List.forall_mem_cons.mp hargs
      cases writes with
      | nil => cases a <;> rfl
      | cons w writes =>
          cases a with
          | reg r =>
              cases w with
              | none => exact ih hrest writes regs
              | some value =>
                  exact (ih hrest writes _).trans
                    (writeReg_spares (ha r (by simp [extractReg])) regs value hg)
          | _ => exact ih hrest writes regs

theorem execInst_spares {name : String} {args : List Arg}
    (hargs : ∀ a ∈ args, ∀ r ∈ extractReg a, r.Spares) {ip : BitVec 64} {s s' : State}
    (h : execInst isa ip name args s = some s') {g : Gpr} (hg : g ∈ [Gpr.rsp, .rbp]) :
    s'.regs (.gpr g) = s.regs (.gpr g) := by
  obtain ⟨e, -, rfl⟩ := Option.map_eq_some_iff.mp h
  have hhidden : g.hidden = false := by
    rcases List.mem_pair.mp hg with rfl | rfl <;> rfl
  change writeHidden e.hidden (writeArgs args e.writes s.regs) (.gpr g) = s.regs (.gpr g)
  rw [writeHidden, hhidden]
  exact writeArgs_spares hargs e.writes s.regs hg

/-- The first line of code under a label is a jump that is taken, or control goes past it. -/
theorem runs_cons_cases {next : Option Label} {a : Asm} {code : List Asm} {y : Label × Machine}
    (h : runs isa next (a :: code) c = some y) :
    (∃ name, a = .jump name y.1 ∧ y.2 = c) ∨
      (∀ target, a ≠ .jump "JMP" target) ∧
        ∃ c₁, a.exec isa c = some c₁ ∧ runs isa next code c₁ = some y := by
  cases hjump : a.isJump with
  | true =>
      cases a with
      | jump name target =>
          rw [runs] at h
          split_ifs at h with htaken
          · cases h
            exact Or.inl ⟨name, rfl, rfl⟩
          · have hname : ¬(name = "JMP" ∨ name = "JMPF") := by
              rintro (rfl | rfl) <;> exact htaken rfl
            refine Or.inr ⟨fun target' heq => ?_, c, if_neg hname, h⟩
            cases heq
            exact htaken rfl
      | _ => cases hjump
  | false =>
      rw [runs_cons hjump] at h
      refine Or.inr ⟨fun target heq => ?_, Option.bind_eq_some_iff.mp h⟩
      cases heq
      cases hjump

end Exec

section Emitted

variable {world : World} {offset : Nat} {m : RegMap}

theorem spares_applyMapReg {r r' : ExprId} (h : applyMapReg m r = some r') : r'.Spares := by
  cases hv : r.virt with
  | none =>
      rw [applyMapReg_plain hv] at h
      cases h
      exact Or.inl hv
  | some v =>
      obtain ⟨p, -, rfl⟩ := applyMapReg_resident hv h
      exact Or.inr ⟨p, _, rfl⟩

theorem spares_applyMapArg {a a' : Arg} (h : applyMapArg m a = some a') :
    ∀ r ∈ extractReg a', r.Spares := by
  cases a with
  | mem d =>
      obtain ⟨d', hd, rfl⟩ := Option.map_eq_some_iff.mp h
      obtain ⟨-, -, hregs, hmul⟩ := applyMapMem_some hd
      refine List.forall_mem_append.mpr
        ⟨MapM.forall_mem hregs fun r r' hr => spares_applyMapReg hr, ?_⟩
      rcases hmul with ⟨-, hnone⟩ | ⟨scale, r, r', -, hsome, hr⟩
      · simp [hnone]
      · simpa [hsome] using spares_applyMapReg hr
  | reg r =>
      obtain ⟨r', hr, rfl⟩ := Option.map_eq_some_iff.mp h
      simpa [extractReg] using spares_applyMapReg hr
  | _ =>
      cases h
      simp [extractReg]

theorem spares_fill (offset : Nat) (v : Virt) (p : Phys) : ∀ a ∈ fill offset v p, a.Spares := by
  unfold fill
  split_ifs <;> simp [Asm.Spares]

theorem spares_resolveLoop {vs : List Virt} {pools : Pools} {m' : RegMap} {text : List Asm}
    (h : resolveLoop offset vs pools m = some (text, m')) : ∀ a ∈ text, a.Spares := by
  induction vs generalizing pools m text with
  | nil =>
      cases h
      simp
  | cons v vs ih =>
      obtain ⟨p, evict, rest, text', -, hrest, rfl⟩ := resolveLoop_cons h
      have hspill : ∀ a ∈ (if evict then [Asm.store (m p) p] else []), a.Spares := by
        split_ifs <;> simp [Asm.Spares]
      exact List.forall_mem_append.mpr
        ⟨List.forall_mem_append.mpr ⟨hspill, spares_fill offset v p⟩, ih hrest⟩

theorem spares_recoverStable (m : RegMap) : ∀ a ∈ (recoverStable m).1, a.Spares := by
  have hone : ∀ before m v, ∀ a ∈ (recoverOne before m v).1, a.Spares := by
    intro before m v
    unfold recoverOne
    split
    · simp
    · split_ifs <;> simp [Asm.Spares]
  exact List.forall_mem_append.mpr ⟨hone _ _ _, hone _ _ _⟩

theorem spares_releaseConflict (m : RegMap) (blockEnd : Bool) :
    ∀ a ∈ releaseConflict m blockEnd, a.Spares := by
  intro a ha
  unfold releaseConflict at ha
  split_ifs at ha
  · obtain ⟨p, -, hp⟩ := List.mem_filterMap.mp ha
    unfold saveResident at hp
    split at hp
    · cases hp
    · split_ifs at hp
      cases hp
      trivial
  · cases ha

/-- A call of `process_normal`: its operands and masks have gone through `apply_map`. -/
theorem Stages.spares {name : String} {args : List Arg} {canCheck : Bool} {t t' : TransState}
    {text : List Asm} (st : Stages world name args offset canCheck t text t')
    (hname : ¬UsesStack name) : ∀ a ∈ text, a.Spares := by
  have hchecks : ∀ r ∈ st.toCheck', r.Spares :=
    MapM.forall_mem st.renameCheck fun r r' hr => spares_applyMapReg hr
  have hargs : ∀ a ∈ st.args', ∀ r ∈ extractReg a, r.Spares :=
    MapM.forall_mem st.rename fun a a' ha => spares_applyMapArg ha
  have hmasks : ∀ a ∈ checkInst st.toCheck' canCheck, a.Spares := by
    rw [checkInst]
    split_ifs
    · simp
    · simp only [List.forall_mem_flatMap, List.forall_mem_cons]
      exact fun r hr => ⟨hchecks r hr, hchecks r hr, by simp⟩
  rw [st.text_eq]
  simp only [List.forall_mem_append, List.forall_mem_singleton]
  exact ⟨spares_resolveLoop st.resolve, hmasks, ⟨hname, hargs⟩, spares_recoverStable _⟩

/-- A call under a name that does not use the stack. -/
def Step.SparesStack : Step → Prop
  | .normal name _ _ => ¬UsesStack name
  | _ => True

theorem not_usesStack_mov : ¬UsesStack "MOV" := by decide

theorem not_usesStack_movAbs (e : Expr) : ¬UsesStack ("MOV" ++ im64Abs e) := by
  have habs : im64Abs e = "" ∨ im64Abs e = "ABS" := by
    cases e with
    | int n =>
        rw [im64Abs]
        split_ifs <;> simp
    | _ => exact Or.inl rfl
  rcases habs with h | h <;> rw [h] <;> decide

theorem Step.SparesStack.call {step : Step} (h : step.SparesStack) {heap : Heap} {call : Call}
    (hcall : step.call world offset heap = some call) : ¬UsesStack call.name := by
  cases step <;> cases hcall
  · exact h
  · exact (by decide : ¬UsesStack "LEA")
  · exact (by decide : ¬UsesStack "MOVABS")
  · exact not_usesStack_movAbs _

theorem processPush_sparesStack (e : Expr) : ∀ step ∈ processPush e, step.SparesStack := by
  cases e <;> simp [processPush, Expr.size, Step.SparesStack, not_usesStack_movAbs, not_usesStack_mov]

theorem processPop_sparesStack (e : Expr) : ∀ step ∈ processPop e, step.SparesStack := by
  cases e <;> simp [processPop, Expr.size, Step.SparesStack, not_usesStack_mov]

theorem processJump_sparesStack (name : String) (e : Expr) :
    ∀ step ∈ processJump name e, step.SparesStack := by
  cases e <;> simp [processJump, Step.SparesStack, not_usesStack_mov]

theorem firstArg_sparesStack {line : Line} {f : Expr → List Step}
    (h : ∀ e, ∀ step ∈ f e, step.SparesStack) : ∀ step ∈ firstArg line f, step.SparesStack := by
  unfold firstArg
  split
  · simp [Step.SparesStack]
  · exact h _

/-- PUSH, POP, CALL, RET and LEAVE are made of MOV and LEA. -/
theorem translate_sparesStack {line : Line}
    (h : line.IsOrdinary → ¬UsesStack (getInstName line)) (blockEnd canCheck : Bool) :
    ∀ step ∈ translate line blockEnd canCheck, step.SparesStack := by
  have hrelease : ∀ step ∈ [Step.release blockEnd], step.SparesStack := by simp [Step.SparesStack]
  apply translate_cases (P := fun steps => ∀ step ∈ steps, step.SparesStack)
  · exact List.forall_mem_cons.mpr ⟨trivial, hrelease⟩
  · exact List.forall_mem_append.mpr ⟨List.forall_mem_cons.mpr ⟨trivial, List.forall_mem_cons.mpr
      ⟨trivial, processPush_sparesStack _⟩⟩, firstArg_sparesStack (processJump_sparesStack _)⟩
  · exact List.forall_mem_append.mpr ⟨firstArg_sparesStack processPush_sparesStack, hrelease⟩
  · exact List.forall_mem_append.mpr ⟨firstArg_sparesStack processPop_sparesStack, hrelease⟩
  · exact List.forall_mem_append.mpr ⟨List.forall_mem_cons.mpr
      ⟨trivial, processPop_sparesStack _⟩, processJump_sparesStack _ _⟩
  · exact List.forall_mem_append.mpr ⟨List.forall_mem_cons.mpr
      ⟨not_usesStack_mov, processPop_sparesStack _⟩, hrelease⟩
  · simp [Step.SparesStack]
  · simp
  · exact fun _ => firstArg_sparesStack (processJump_sparesStack _)
  · exact fun hspecial hbranch => List.forall_mem_cons.mpr ⟨h ⟨hspecial, hbranch⟩, hrelease⟩

theorem Step.spares {step : Step} {t t' : TransState} {text : List Asm} (hm : MapInv t.regMap)
    (hstack : step.SparesStack) (hrun : step.run world offset t = some (text, t')) :
    ∀ a ∈ text, a.Spares := by
  cases hcall : step.call world offset t.heap with
  | some call =>
      obtain ⟨heap, ⟨st⟩⟩ := Step.stages hcall hm hrun
      exact st.spares (hstack.call hcall)
  | none =>
      cases step with
      | resolve tmp =>
          obtain ⟨r, hres, heq⟩ := Option.map_eq_some_iff.mp hrun
          obtain ⟨rfl, -⟩ := Prod.mk.inj heq
          exact spares_resolveLoop hres
      | release blockEnd =>
          cases hrun
          exact spares_releaseConflict _ _
      | jumpReg name r =>
          obtain ⟨target, -, heq⟩ := Option.map_eq_some_iff.mp hrun
          obtain ⟨rfl, -⟩ := Prod.mk.inj heq
          have hmove : ∀ a ∈ (if target = "R14" then [] else [Asm.moveTarget target]),
              a.Spares := by
            split_ifs <;> simp [Asm.Spares]
          exact List.forall_mem_append.mpr ⟨List.forall_mem_append.mpr
            ⟨spares_releaseConflict _ _, hmove⟩, by simp [Asm.Spares]⟩
      | releaseTmp => cases hrun; simp
      | jumpLoc name address => cases hrun; simp [Asm.Spares]
      | stub target => cases hrun; simp [Asm.Spares]
      | nop => cases hrun; simp [Asm.Spares]
      | raise => cases hrun
      | _ => cases hcall

theorem runSteps_spares {steps : List Step} {t t' : TransState} {text : List Asm}
    (hm : MapInv t.regMap) (hstack : ∀ step ∈ steps, step.SparesStack)
    (hrun : runSteps world offset steps t = some (text, t')) : ∀ a ∈ text, a.Spares := by
  induction steps generalizing t text with
  | nil =>
      cases hrun
      simp
  | cons step steps ih =>
      obtain ⟨text₁, t₁, text₂, hstep, hrest, rfl⟩ := runSteps_cons hrun
      obtain ⟨hfirst, hothers⟩ := List.forall_mem_cons.mp hstack
      exact List.forall_mem_append.mpr
        ⟨Step.spares hm hfirst hstep, ih (Step.mapInv hm hstep) hothers hrest⟩

theorem translateBlocks_spares {blocks : List (Nat × Block)} {t t' : TransState}
    {emitted : List (Nat × List Emitted)}
    (hstack : ∀ b ∈ blocks, ∀ line ∈ b.2.lines, line.IsOrdinary → ¬UsesStack (getInstName line))
    (hrun : translateBlocks world blocks t = some (emitted, t')) :
    ∀ b ∈ emitted, ∀ a ∈ emittedText b.2, a.Spares := by
  intro b hb
  obtain ⟨block, t₁, t₂, hmem, hown⟩ := translateBlocks_mem hrun hb
  refine List.forall_mem_flatMap.mpr fun e he => ?_
  obtain ⟨before, after, hlines, -⟩ := translateLines_mem hown he
  have hline : e.line ∈ block.lines := by
    rw [hlines]
    exact List.mem_append_right _ List.mem_cons_self
  exact runSteps_spares ((translateLines_mapInv mapInv_blockInit hown).1 e he)
    (translate_sparesStack (hstack _ hmem _ hline) _ _) ((translateLines_run hown).1 e he)

theorem forall_mem_ladder {P : Asm → Prop} {targets : List Nat} :
    (∀ a ∈ ladder offset targets, P a) ↔
      (∀ t ∈ targets, P (.movabs .p15 t) ∧
        P (.inst "CMP" [.reg (.gpr .r14 .q), .reg (.gpr .r15 .q)]) ∧ P (.jump "JZ" (.loc t))) ∧
      P (.movabs .p15 offset) ∧ P (.jump "JMP" .ijFailed) := by
  simp only [ladder, List.forall_mem_append, List.forall_mem_flatMap, List.forall_mem_cons]
  simp

theorem ladder_spares (offset : Nat) (targets : List Nat) :
    ∀ a ∈ ladder offset targets, a.Spares := by
  have hcmp : (Asm.inst "CMP" [.reg (.gpr .r14 .q), .reg (.gpr .r15 .q)]).Spares := by
    have hr14 : ExprId.Spares (.gpr .r14 .q) := Or.inr ⟨.p14, .q, rfl⟩
    have hr15 : ExprId.Spares (.gpr .r15 .q) := Or.inr ⟨.p15, .q, rfl⟩
    have hname : ¬UsesStack "CMP" := by decide
    simp [Asm.Spares, extractReg, hr14, hr15, hname]
  exact forall_mem_ladder.mpr ⟨fun t _ => ⟨trivial, hcmp, trivial⟩, trivial, trivial⟩

end Emitted

section Labels

variable {isa : Isa} {c c' : Machine}

/-- Control comes to a label by a jump, or at the end of code that has no unconditional one. -/
theorem runs_label {next : Option Label} {code : List Asm} {l : Label}
    (h : runs isa next code c = some (l, c')) :
    (∃ name, .jump name l ∈ code) ∨ next = some l ∧ ∀ target, .jump "JMP" target ∉ code := by
  induction code generalizing c with
  | nil =>
      obtain ⟨l', hnext, heq⟩ := Option.map_eq_some_iff.mp h
      cases heq
      exact Or.inr ⟨hnext, by simp⟩
  | cons a code ih =>
      rcases runs_cons_cases h with ⟨name, rfl, -⟩ | ⟨ha, c₁, -, hrun⟩
      · exact Or.inl ⟨name, List.mem_cons_self⟩
      · rcases ih hrun with ⟨name, hmem⟩ | ⟨hnext, hno⟩
        · exact Or.inl ⟨name, List.mem_cons_of_mem _ hmem⟩
        · refine Or.inr ⟨hnext, fun target hmem => ?_⟩
          rcases List.mem_cons.mp hmem with heq | hrest
          · exact ha target heq.symm
          · exact hno target hrest

end Labels

namespace Jit

variable {jit : Jit} {isa : Isa}

/-- The labels for segment errors, behind which the stack is popped. -/
def segErrors : List Label := [.segError, .segError2]

/-- The code under every other label spares RSP and RBP. -/
theorem spares (hstack : jit.NoStackUsers) {l : Label} (hl : l ∉ segErrors) :
    ∀ a ∈ codeAt jit.file l, a.Spares := by
  have hblocks : ∀ b ∈ sortedBlocks jit.dict.items, ∀ line ∈ b.2.lines,
      line.IsOrdinary → ¬UsesStack (getInstName line) := fun b hb =>
    hstack b (mem_sortedBlocks.mp hb)
  have hstubs : ∀ callee, ∀ a ∈ calleeStub callee, a.Spares := by simp [calleeStub, Asm.Spares]
  have hwrapper : ∀ part ∈ wrapperLabels, part.1 ∉ segErrors → ∀ a ∈ part.2, a.Spares := by
    simp [wrapperLabels, segErrors, Asm.Spares]
  intro a ha
  obtain ⟨code, hpart, hcode⟩ := mem_of_mem_codeAt ha
  simp only [List.mem_append] at hpart
  rcases hpart with ((hpart | hpart) | hpart) | hpart
  · obtain ⟨b, hb, heq⟩ := List.mem_map.mp hpart
    cases heq
    exact translateBlocks_spares hblocks jit.run b hb a hcode
  · obtain ⟨e, -, heq⟩ := List.mem_map.mp hpart
    cases heq
    exact ladder_spares e.1 e.2 a hcode
  · obtain ⟨callee, -, heq⟩ := List.mem_map.mp hpart
    cases heq
    exact hstubs callee a hcode
  · exact hwrapper _ hpart hl a hcode

/-- Nothing jumps there. -/
theorem no_jump_segErrors (jit : Jit) :
    ∀ a ∈ text jit.file, ∀ name, ∀ l ∈ segErrors, a ≠ .jump name l := by
  refine (forall_text_jitFile ?_ ?_ ?_).mpr ⟨fun b hb a ha name l hl heq => ?_, fun e _ => ?_⟩
  · simp [segErrors]
  · simp [segErrors, calleeStub]
  · simp [segErrors, wrapperLabels]
  · subst heq
    obtain ⟨block, t₁, t₂, -, hown⟩ := translateBlocks_mem jit.run hb
    obtain ⟨e, -, hjump⟩ := translateBlock_jumps hown ha
    rcases Line.jump_cases hjump with ⟨-, rfl⟩ | ⟨-, rfl⟩ | ⟨-, rfl⟩ | ⟨-, rfl⟩
    · rcases e.line.goal_cases e.offset with ⟨a, rest, -, heq⟩ | ⟨-, heq⟩ <;>
        simp [heq, segErrors] at hl
    all_goals simp [segErrors] at hl
  · simp [forall_mem_ladder, segErrors]

/-- The labels of the file, up to those of the wrapper. -/
theorem exists_labels (jit : Jit) : ∃ parts before, jit.file =
    [Asm.jump "JMP" (.loc jit.entry)].map .code ++ sections parts ∧
      parts.map Prod.fst = before ++ wrapperLabels.map Prod.fst ∧ ∀ l ∈ segErrors, l ∉ before := by
  refine ⟨_, _, rfl, List.map_append .., fun l hl => ?_⟩
  rcases List.mem_pair.mp hl with rfl | rfl <;> simp [makeJumpTable, makeCalleeTable]

/-- Nor does control run into them. -/
theorem flow_segErrors {x y : Label × Machine} (h : flow isa jit.file x = some y)
    (hx : x.1 ∉ segErrors) : y.1 ∉ segErrors := by
  obtain ⟨l, c⟩ := x
  obtain ⟨l', c'⟩ := y
  intro hl'
  rw [flow] at h
  split_ifs at h
  rcases runs_label h with ⟨name, hmem⟩ | ⟨hnext, hno⟩
  · exact jit.no_jump_segErrors _ (mem_text_of_mem_codeAt hmem) name l' hl' rfl
  · obtain ⟨parts, before, hfile, hparts, hbefore⟩ := jit.exists_labels
    rw [hfile] at hnext
    rcases List.mem_pair.mp hl' with rfl | rfl
    · -- `ij_failed` stands in front of `seg_error`, and ends in a jump
      have hlabels : parts.map Prod.fst = before ++ [.compSyscall] ++ [.ijFailed] ++
          .segError :: [.segError2, .exit] := by
        rw [hparts]
        simp [wrapperLabels]
      have hl := eq_of_nextLabel hlabels (by simpa using hbefore _ hl') (by decide) hnext
      subst hl
      refine hno .exit ?_
      rw [Jit.file, codeAt_ijFailed]
      simp
    · have hlabels : parts.map Prod.fst = before ++ [.compSyscall, .ijFailed] ++ [.segError] ++
          .segError2 :: [.exit] := by
        rw [hparts]
        simp [wrapperLabels]
      have hl := eq_of_nextLabel hlabels (by simpa using hbefore _ hl') (by decide) hnext
      exact hx (hl ▸ List.mem_cons_self)

/-- A run stays away from the labels where the stack is popped. -/
theorem reaches_segErrors {x y : Label × Machine} (h : Reaches (flow isa jit.file) x y)
    (hx : x.1 ∉ segErrors) : y.1 ∉ segErrors := by
  induction h with
  | refl => exact hx
  | tail _ hstep ih => exact flow_segErrors hstep ih

end Jit

end UserspaceBypass
