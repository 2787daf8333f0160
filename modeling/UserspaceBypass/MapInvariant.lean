import UserspaceBypass.SimulateTmp

/-! The register map between calls of `translate`. The handlers bring temporaries in with
`conflict_resolve`, use them and let them go with `release_tmp_conflict`, or leave T2 behind when
they end in a jump; in between `process_normal` moves other registers around them. Which temporaries
are resident is read off the list of calls. -/

namespace UserspaceBypass

open StraightLine

variable {world : World} {offset : Nat}

/-- The registers of an argument. -/
def Expr.regs : Expr → List ExprId
  | .id r => [r]
  | .mem _ segm ptr => memRegs segm ptr
  | .dict d => extractReg (.mem d)
  | _ => []

def Expr.NoTmp (e : Expr) : Prop := ∀ r ∈ e.regs, ∀ tmp, r ≠ .tmp tmp

/-- A line of the disassembler, which knows no temporaries. -/
structure Line.Proper (line : Line) : Prop extends line.Decoded where
  noTmp : ∀ e ∈ line.args, e.NoTmp

/-- The mnemonics that end a block by a jump of the translated code. -/
def blockEnds : List String := ["CALL", "RET"] ++ conditionalBranch ++ unconditionalBranch

section Registers

/-- The registers of a dictionary that is being filled in. -/
def AddrParts.Names (parts : AddrParts) (r : ExprId) : Prop :=
  r ∈ parts.regs ∨ r ∈ parts.mul.map Prod.snd

mutual
theorem memAddr_names (a : Addr) {res : AddrParts} {heap : Heap} {r : ExprId}
    (h : (memAddr a res heap).1.Names r) : res.Names r ∨ r ∈ a.bases ∨ r ∈ a.indices := by
  cases a with
  | id q =>
      rcases h with h | h
      · rcases List.mem_append.mp h with h | h
        · exact Or.inl (Or.inl h)
        · exact Or.inr (Or.inl h)
      · exact Or.inl (Or.inr h)
  | int n => exact Or.inl h
  | add args => exact memAddrs_names args h
  | op => exact Or.inl h
  | times left right =>
      cases left with
      | id q =>
          cases right with
          | int n =>
              rw [memAddr] at h
              split_ifs at h
              · exact Or.inl h
              · rcases h with h | h
                · rcases List.mem_append.mp h with h | h
                  · exact Or.inl (Or.inl h)
                  · exact Or.inr (Or.inr h)
                · obtain rfl : q = r := by simpa using h
                  exact Or.inr (Or.inr (List.mem_singleton_self q))
              · rcases h with h | h
                · exact Or.inl (Or.inl h)
                · obtain rfl : q = r := by simpa using h
                  exact Or.inr (Or.inr (List.mem_singleton_self q))
          | _ => exact Or.inl h
      | _ => exact Or.inl h

theorem memAddrs_names (args : List Addr) {res : AddrParts} {heap : Heap} {r : ExprId}
    (h : (memAddrs args res heap).1.Names r) :
    res.Names r ∨ r ∈ (addrTerms args).filterMap Addr.base ∨
      r ∈ ((addrTerms args).filterMap Addr.scaled).map Prod.snd := by
  cases args with
  | nil => exact Or.inl h
  | cons a args =>
      rw [addrTerms, List.filterMap_append, List.filterMap_append, List.map_append, List.mem_append,
        List.mem_append]
      rcases memAddrs_names args h with h | h | h
      · rcases memAddr_names a h with h | h | h
        · exact Or.inl h
        · exact Or.inr (Or.inl (Or.inl h))
        · exact Or.inr (Or.inr (Or.inl h))
      · exact Or.inr (Or.inl (Or.inr h))
      · exact Or.inr (Or.inr (Or.inr h))
end

theorem mem_extractReg_purified {e : Expr} {heap heap' : Heap} {r : ExprId}
    (hr : r ∈ extractReg (Arg.printed heap' (argPurify e heap).1)) : r ∈ e.regs := by
  cases e with
  | mem size segm ptr =>
      simp only [argPurify, Arg.printed, extractReg, Option.map_map, Function.comp_def,
        List.mem_append, Option.mem_toList] at hr
      rw [Expr.regs, memRegs, List.append_assoc, List.mem_append, List.mem_append]
      rcases memAddr_names ptr hr with (h | h) | h
      · exact Or.inl h
      · cases h
      · exact Or.inr h
  | dict d =>
      simp only [argPurify, Arg.printed, extractReg, Option.map_map, Function.comp_def] at hr
      exact hr
  | id q => exact hr
  | _ => exact absurd hr List.not_mem_nil

theorem mem_purifyArgs {args : List Expr} {heap : Heap} {a : Arg}
    (ha : a ∈ (purifyArgs args heap).1) : ∃ e ∈ args, ∃ heap', a = (argPurify e heap').1 := by
  induction args generalizing heap with
  | nil => exact absurd ha List.not_mem_nil
  | cons e args ih =>
      rcases List.mem_cons.mp ha with rfl | ha
      · exact ⟨e, List.mem_cons_self, heap, rfl⟩
      · obtain ⟨e', he', heap', heq⟩ := ih ha
        exact ⟨e', List.mem_cons_of_mem _ he', heap', heq⟩

/-- The registers of a call are those of its arguments. -/
theorem Call.of_conflictRegs {name : String} {args : List Expr} {canCheck : Bool} {heap : Heap}
    {v : Virt} (hv : v ∈ conflictRegs (Call.of name args canCheck heap).args) :
    ∃ e ∈ args, ∃ r ∈ e.regs, r.virt = some v := by
  obtain ⟨a, ha, r, hr, hrv⟩ := mem_conflictRegs.mp hv
  obtain ⟨a', ha', rfl⟩ := List.mem_map.mp ha
  obtain ⟨e, he, heap', rfl⟩ := mem_purifyArgs ha'
  exact ⟨e, he, r, mem_extractReg_purified hr, hrv⟩

theorem ExprId.virt_isTmp {r : ExprId} {v : Virt} (hv : r.virt = some v) (ht : v.isTmp) :
    ∃ tmp, r = .tmp tmp := by
  cases r with
  | tmp tmp => exact ⟨tmp, rfl⟩
  | gpr g width =>
      have hfalse := isTmp_of_family (f := .gpr g) (by rintro _ ⟨⟩) hv
      rw [hfalse] at ht
      cases ht
  | seg s =>
      have hfalse := isTmp_of_family (f := .seg s) (by rintro _ ⟨⟩) hv
      rw [hfalse] at ht
      cases ht
  | rip => cases hv; cases ht
  | eip => cases hv; cases ht
  | high _ => cases hv
  | xmm _ => cases hv

theorem ExprId.eq_tmp_of_virt {r : ExprId} {tmp : Tmp} (h : r.virt = some tmp.virt) :
    r = .tmp tmp := by
  obtain ⟨tmp', rfl⟩ := ExprId.virt_isTmp h tmp.virt_isTmp
  have hvirt : tmp'.virt = tmp.virt := by
    cases tmp' <;> exact Option.some.inj h
  rw [Tmp.virt_injective hvirt]

end Registers

section Flow

/-- The steps in which a temporary is read or written. -/
def Step.Uses (tmp : Tmp) : Step → Prop
  | .normal _ args _ => ∃ e ∈ args, ExprId.tmp tmp ∈ e.regs
  | .returnAddress => tmp = .t2
  | .jumpReg _ r => r = .tmp tmp
  | _ => False

/-- The temporaries that are resident after a step. -/
def Step.heldAfter (held : List Tmp) : Step → List Tmp
  | .resolve tmp => tmp :: held
  | .releaseTmp => []
  | _ => held

def stepsHeld (held : List Tmp) (steps : List Step) : List Tmp := steps.foldl Step.heldAfter held

/-- Every temporary is brought in before it is used, and not let go in between. -/
def Guarded : List Tmp → List Step → Prop
  | _, [] => True
  | held, step :: steps => (∀ tmp, step.Uses tmp → tmp ∈ held) ∧ Guarded (step.heldAfter held) steps

variable {held : List Tmp} {steps front back : List Step}

theorem stepsHeld_append (held : List Tmp) (front back : List Step) :
    stepsHeld held (front ++ back) = stepsHeld (stepsHeld held front) back := List.foldl_append

theorem guarded_append :
    Guarded held (front ++ back) ↔ Guarded held front ∧ Guarded (stepsHeld held front) back := by
  induction front generalizing held with
  | nil => exact iff_and_self.mpr fun _ => trivial
  | cons step front ih => rw [List.cons_append, Guarded, Guarded, ih, and_assoc]; rfl

/-- A temporary that is held was brought in, and not let go since. -/
theorem mem_stepsHeld {tmp : Tmp} (h : tmp ∈ stepsHeld held steps) :
    tmp ∈ held ∨ ∃ front back, steps = front ++ .resolve tmp :: back ∧ .releaseTmp ∉ back := by
  induction steps using List.reverseRecOn with
  | nil => exact Or.inl h
  | append_singleton steps step ih =>
      rw [stepsHeld_append] at h
      have hold : step ≠ .releaseTmp → tmp ∈ stepsHeld held steps → tmp ∈ held ∨
          ∃ front back, steps ++ [step] = front ++ .resolve tmp :: back ∧ .releaseTmp ∉ back := by
        intro hne hmem
        rcases ih hmem with hheld | ⟨front, back, rfl, hback⟩
        · exact Or.inl hheld
        · refine Or.inr ⟨front, back ++ [step], by simp, ?_⟩
          rw [List.mem_append, List.mem_singleton]
          exact fun hmem => hmem.elim hback fun heq => hne heq.symm
      cases step with
      | resolve tmp' =>
          rcases List.mem_cons.mp h with rfl | h
          · exact Or.inr ⟨steps, [], rfl, List.not_mem_nil⟩
          · exact hold (by rintro ⟨⟩) h
      | releaseTmp => exact absurd h List.not_mem_nil
      | _ => exact hold (by rintro ⟨⟩) h

theorem Guarded.uses {before after : List Step} {step : Step} {tmp : Tmp}
    (h : Guarded held (before ++ step :: after)) (huse : step.Uses tmp) :
    tmp ∈ stepsHeld held before := (guarded_append.mp h).2.1 tmp huse

end Flow

section Run

variable {t t' : TransState} {text : List Asm} {held : List Tmp} {steps : List Step}

/-- The temporaries of a call are those its step uses. -/
theorem Step.uses_of_call {step : Step} {heap : Heap} {call : Call} {tmp : Tmp}
    (hcall : step.call world offset heap = some call) (hmem : tmp.virt ∈ conflictRegs call.args) :
    step.Uses tmp := by
  cases step with
  | normal name args canCheck =>
      cases hcall
      obtain ⟨e, he, r, hr, hrv⟩ := Call.of_conflictRegs hmem
      exact ⟨e, he, ExprId.eq_tmp_of_virt hrv ▸ hr⟩
  | moveStack bytes =>
      cases hcall
      obtain ⟨e, he, r, hr, hrv⟩ := Call.of_conflictRegs hmem
      obtain rfl := ExprId.eq_tmp_of_virt hrv
      rcases List.mem_pair.mp he with rfl | rfl <;>
        simp [Expr.regs, extractReg, makeMemDict, rsp] at hr
  | pushInt n =>
      cases hcall
      obtain ⟨e, he, r, hr, hrv⟩ := Call.of_conflictRegs hmem
      obtain rfl := ExprId.eq_tmp_of_virt hrv
      rcases List.mem_pair.mp he with rfl | rfl <;>
        simp [Expr.regs, extractReg, makeMemDict, rsp] at hr
  | returnAddress =>
      cases hcall
      obtain ⟨e, he, r, hr, hrv⟩ := Call.of_conflictRegs hmem
      obtain rfl := ExprId.eq_tmp_of_virt hrv
      rcases List.mem_pair.mp he with rfl | rfl <;> simp [Expr.regs] at hr
      exact hr
  | _ => cases hcall

theorem Temps.step {step : Step} (h : Temps t.regMap held)
    (huse : ∀ tmp, step.Uses tmp → tmp ∈ held)
    (hrun : step.run world offset t = some (text, t')) : Temps t'.regMap (step.heldAfter held) := by
  have hcall : ∀ {call}, step.call world offset t.heap = some call → Temps t'.regMap held :=
    fun hc => h.call hc (fun tmp hmem => huse tmp (Step.uses_of_call hc hmem)) hrun
  cases step with
  | resolve tmp => exact h.resolve hrun
  | releaseTmp => cases hrun; exact .releaseTmp h.map
  | jumpReg name r =>
      obtain ⟨target, -, heq⟩ := Option.map_eq_some_iff.mp hrun
      obtain ⟨-, rfl⟩ := Prod.mk.inj heq
      exact h
  | release blockEnd => cases hrun; exact h
  | jumpLoc name address => cases hrun; exact h
  | stub target => cases hrun; exact h
  | nop => cases hrun; exact h
  | raise => cases hrun
  | _ => exact hcall rfl

theorem Temps.run (h : Temps t.regMap held) (hguard : Guarded held steps)
    (hrun : runSteps world offset steps t = some (text, t')) :
    Temps t'.regMap (stepsHeld held steps) := by
  induction steps generalizing held t text with
  | nil =>
      cases hrun
      exact h
  | cons step steps ih =>
      obtain ⟨text₁, t₁, text₂, hstep, hrest, -⟩ := runSteps_cons hrun
      exact ih (h.step hguard.1 hstep) hguard.2 hrest

/-- Only `release_tmp_conflict` takes a temporary out of its register. -/
theorem Step.place {step : Step} (hm : MapInv t.regMap) (hne : step ≠ .releaseTmp)
    (hrun : step.run world offset t = some (text, t')) {p : Phys} {tmp : Tmp}
    (hp : t.regMap p = some tmp.virt) : t'.regMap p = some tmp.virt := by
  cases hcall : step.call world offset t.heap with
  | some call =>
      obtain ⟨heap, ⟨st⟩⟩ := Step.stages hcall hm hrun
      exact (st.tmp_place hm tmp.virt_isTmp hp).2
  | none =>
      cases step with
      | resolve tmp' =>
          obtain ⟨r, hres, heq⟩ := Option.map_eq_some_iff.mp hrun
          obtain ⟨-, rfl⟩ := Prod.mk.inj heq
          exact conflictResolve_place hm hres tmp.virt_isTmp hp
      | releaseTmp => exact absurd rfl hne
      | jumpReg name r =>
          obtain ⟨target, -, heq⟩ := Option.map_eq_some_iff.mp hrun
          obtain ⟨-, rfl⟩ := Prod.mk.inj heq
          exact hp
      | release blockEnd => cases hrun; exact hp
      | jumpLoc name address => cases hrun; exact hp
      | stub target => cases hrun; exact hp
      | nop => cases hrun; exact hp
      | raise => cases hrun
      | _ => cases hcall

theorem runSteps_place (hm : MapInv t.regMap) (hsteps : .releaseTmp ∉ steps)
    (hrun : runSteps world offset steps t = some (text, t')) {p : Phys} {tmp : Tmp}
    (hp : t.regMap p = some tmp.virt) : t'.regMap p = some tmp.virt := by
  induction steps generalizing t text with
  | nil =>
      cases hrun
      exact hp
  | cons step steps ih =>
      obtain ⟨text₁, t₁, text₂, hstep, hrest, -⟩ := runSteps_cons hrun
      rw [List.mem_cons, not_or] at hsteps
      exact ih (Step.mapInv hm hstep) hsteps.2 hrest
        (Step.place hm (Ne.symm hsteps.1) hstep hp)

end Run

section Lines

/-- What a handler's calls may do: use what is there, bring in T1 only for themselves, and leave T2
behind only under the condition. -/
structure Flows (condition : Prop) (steps : List Step) : Prop where
  guarded : ∀ held, Guarded held steps
  t1 : ∀ held, .t1 ∈ stepsHeld held steps → .t1 ∈ held
  t2 : ∀ held, .t2 ∈ stepsHeld held steps → .t2 ∈ held ∨ condition

variable {condition : Prop} {steps rest : List Step}

theorem Flows.append (h : Flows condition steps) (h' : Flows condition rest) :
    Flows condition (steps ++ rest) where
  guarded held := guarded_append.mpr ⟨h.guarded held, h'.guarded _⟩
  t1 held hmem := by
    rw [stepsHeld_append] at hmem
    exact h.t1 held (h'.t1 _ hmem)
  t2 held hmem := by
    rw [stepsHeld_append] at hmem
    exact (h'.t2 _ hmem).elim (h.t2 held) Or.inr

/-- A step that has nothing to do with temporaries. -/
def Step.Quiet : Step → Prop
  | .normal _ args _ => ∀ e ∈ args, e.NoTmp
  | .jumpReg _ r => ∀ tmp, r ≠ .tmp tmp
  | .returnAddress | .resolve _ | .releaseTmp => False
  | _ => True

theorem Step.Quiet.uses {step : Step} (h : step.Quiet) (tmp : Tmp) : ¬step.Uses tmp := by
  cases step with
  | normal name args canCheck =>
      rintro ⟨e, he, hmem⟩
      exact h e he _ hmem tmp rfl
  | jumpReg name r => exact h tmp
  | returnAddress => exact h.elim
  | _ => exact id

theorem Step.Quiet.held {step : Step} (h : step.Quiet) (held : List Tmp) :
    step.heldAfter held = held := by
  cases step with
  | resolve tmp => exact h.elim
  | releaseTmp => exact h.elim
  | _ => rfl

/-- Steps that use what is there and leave it there. -/
theorem guarded_same {held : List Tmp} (h : ∀ step ∈ steps, (∀ tmp, step.Uses tmp → tmp ∈ held) ∧
    step.heldAfter held = held) : Guarded held steps ∧ stepsHeld held steps = held := by
  induction steps with
  | nil => exact ⟨trivial, rfl⟩
  | cons step steps ih =>
      obtain ⟨⟨huse, hsame⟩, hsteps⟩ := List.forall_mem_cons.mp h
      obtain ⟨hguard, hheld⟩ := ih hsteps
      refine ⟨⟨huse, ?_⟩, ?_⟩
      · rwa [hsame]
      · change stepsHeld (step.heldAfter held) steps = held
        rwa [hsame]

theorem flows_of_quiet (h : ∀ step ∈ steps, step.Quiet) : Flows condition steps := by
  have hboth : ∀ held, Guarded held steps ∧ stepsHeld held steps = held := fun held =>
    guarded_same fun step hstep =>
      ⟨fun tmp huse => absurd huse ((h step hstep).uses tmp), (h step hstep).held held⟩
  refine ⟨fun held => (hboth held).1, fun held hmem => ?_, fun held hmem => Or.inl ?_⟩
  · rwa [(hboth held).2] at hmem
  · rwa [(hboth held).2] at hmem

/-- A step that may use one temporary. -/
def Step.Only (tmp : Tmp) (step : Step) : Prop :=
  (∀ tmp', step.Uses tmp' → tmp' = tmp) ∧ ∀ held, step.heldAfter held = held

theorem guarded_only {tmp : Tmp} (h : ∀ step ∈ steps, step.Only tmp) (held : List Tmp) :
    Guarded held (.resolve tmp :: steps) ∧ stepsHeld held (.resolve tmp :: steps) = tmp :: held := by
  have hboth : Guarded (tmp :: held) steps ∧ stepsHeld (tmp :: held) steps = tmp :: held :=
    guarded_same fun step hstep =>
      ⟨fun tmp' huse => (h step hstep).1 tmp' huse ▸ List.mem_cons_self, (h step hstep).2 _⟩
  exact ⟨⟨fun _ => False.elim, hboth.1⟩, hboth.2⟩

/-- PUSH and POP bring in T1 for the memory operand and let it go. -/
theorem flows_t1 (h : ∀ step ∈ steps, step.Only .t1) :
    Flows condition (.resolve .t1 :: steps ++ [.releaseTmp]) := by
  have hnone : ∀ held, stepsHeld held (.resolve .t1 :: steps ++ [.releaseTmp]) = [] :=
    fun held => stepsHeld_append held _ _
  refine ⟨fun held => ?_, fun held hmem => ?_, fun held hmem => ?_⟩
  · exact guarded_append.mpr ⟨(guarded_only h held).1, fun _ => False.elim, trivial⟩
  · rw [hnone] at hmem
    cases hmem
  · rw [hnone] at hmem
    cases hmem

/-- Transfers bring in T2 for their jump. -/
theorem flows_t2 (hc : condition) (h : ∀ step ∈ steps, step.Only .t2) :
    Flows condition (.resolve .t2 :: steps) := by
  refine ⟨fun held => (guarded_only h held).1, fun held hmem => ?_, fun _ _ => Or.inr hc⟩
  rw [(guarded_only h held).2] at hmem
  exact List.mem_of_ne_of_mem (by rintro ⟨⟩) hmem

theorem Expr.noTmp_dict (size : Nat) (im : Int) : (Expr.dict (makeMemDict size rsp im)).NoTmp := by
  intro r hr tmp
  obtain rfl : r = rsp := by simpa [Expr.regs, extractReg, makeMemDict] using hr
  rintro ⟨⟩

theorem Expr.noTmp_id {r : ExprId} (h : ∀ tmp, r ≠ .tmp tmp) : (Expr.id r).NoTmp := by
  intro r' hr
  obtain rfl : r' = r := by simpa [Expr.regs] using hr
  exact h

theorem Step.only_normal {name : String} {args : List Expr} {canCheck : Bool} {tmp : Tmp}
    (h : ∀ e ∈ args, e.NoTmp ∨ e = .id (.tmp tmp)) : (Step.normal name args canCheck).Only tmp := by
  refine ⟨?_, fun _ => rfl⟩
  rintro tmp' ⟨e, he, hmem⟩
  rcases h e he with hno | rfl
  · exact absurd rfl (hno _ hmem tmp')
  · exact ExprId.tmp.inj (List.mem_singleton.mp hmem)

theorem Step.only_moveStack (bytes : Int) (tmp : Tmp) : (Step.moveStack bytes).Only tmp :=
  ⟨fun _ => False.elim, fun _ => rfl⟩

theorem Step.only_jumpReg (name : String) (tmp : Tmp) : (Step.jumpReg name (.tmp tmp)).Only tmp :=
  ⟨fun _ huse => (ExprId.tmp.inj huse).symm, fun _ => rfl⟩

theorem processPush_flows {e : Expr} (h : e.NoTmp) : Flows condition (processPush e) := by
  have hplain : ∀ bytes size name, Flows condition
      [.moveStack bytes, .normal name [.dict (makeMemDict size rsp 0), e] false] :=
    fun bytes size name => flows_of_quiet (by simp [Step.Quiet, Expr.noTmp_dict, h])
  cases e with
  | mem size segm ptr =>
      have hmove : Flows condition [.moveStack (-(size / 8 : Nat))] :=
        flows_of_quiet (by simp [Step.Quiet])
      have hvia : Flows condition ([.resolve .t1, .normal "MOV" [.id (.tmp .t1), .mem size segm ptr] false,
          .normal "MOV" [.dict (makeMemDict 64 rsp 0), .id (.tmp .t1)] false] ++ [.releaseTmp]) := by
        refine flows_t1 ?_
        simp only [List.forall_mem_cons]
        exact ⟨Step.only_normal (by simp [h]), Step.only_normal (by simp [Expr.noTmp_dict]), by simp⟩
      exact hmove.append hvia
  | int n => exact flows_of_quiet (by simp [processPush, Expr.size, Step.Quiet])
  | dict d => exact flows_of_quiet (by simp [processPush, Expr.size, Step.Quiet])
  | id r => exact hplain _ _ _
  | loc address => exact hplain _ _ _
  | op size => exact hplain _ _ _

theorem processPop_flows {e : Expr} (h : e.NoTmp) : Flows condition (processPop e) := by
  have hplain : ∀ bytes, Flows condition
      [.normal "MOV" [e, .dict (makeMemDict 64 rsp 0)] false, .moveStack bytes] :=
    fun bytes => flows_of_quiet (by simp [Step.Quiet, Expr.noTmp_dict, h])
  cases e with
  | mem size segm ptr =>
      have hmove : Flows condition [.moveStack (size / 8 : Nat)] :=
        flows_of_quiet (by simp [Step.Quiet])
      have hvia : Flows condition ([.resolve .t1, .normal "MOV" [.id (.tmp .t1),
          .dict (makeMemDict 64 rsp 0)] false, .normal "MOV" [.mem size segm ptr, .id (.tmp .t1)] false] ++
          [.releaseTmp]) := by
        refine flows_t1 ?_
        simp only [List.forall_mem_cons]
        exact ⟨Step.only_normal (by simp [Expr.noTmp_dict]), Step.only_normal (by simp [h]), by simp⟩
      exact hvia.append hmove
  | dict d => exact flows_of_quiet (by simp [processPop, Expr.size, Step.Quiet])
  | id r => exact hplain _
  | int n => exact hplain _
  | loc address => exact hplain _
  | op size => exact hplain _

theorem processJump_flows (hc : condition) (name : String) {e : Expr} (h : e.NoTmp) :
    Flows condition (processJump name e) := by
  cases e with
  | mem size segm ptr =>
      refine flows_t2 hc ?_
      simp only [List.forall_mem_cons]
      exact ⟨Step.only_normal (by simp [h]), Step.only_jumpReg name .t2, by simp⟩
  | id r =>
      have hr := h r (List.mem_singleton_self r)
      exact flows_of_quiet (by simpa [processJump, Step.Quiet] using hr)
  | loc address => exact flows_of_quiet (by simp [processJump, Step.Quiet])
  | _ => exact flows_of_quiet (by simp [processJump])

theorem firstArg_flows {line : Line} {f : Expr → List Step} (h : ∀ e ∈ line.args, e.NoTmp)
    (hf : ∀ {e : Expr}, e.NoTmp → Flows condition (f e)) : Flows condition (firstArg line f) := by
  unfold firstArg
  split
  · exact flows_of_quiet (by simp [Step.Quiet])
  · rename_i e args hargs
    exact hf (h e (by rw [hargs]; exact List.mem_cons_self))

/-- No line uses a temporary it has not brought in, and only T2 is left behind, by a line that ends
its block. -/
theorem translate_flows {line : Line} (h : ∀ e ∈ line.args, e.NoTmp) (blockEnd canCheck : Bool) :
    Flows (line.name ∈ blockEnds) (translate line blockEnd canCheck) := by
  have hrelease : Flows (line.name ∈ blockEnds) [.release blockEnd] :=
    flows_of_quiet (by simp [Step.Quiet])
  have hrbp : (Expr.id rbp).NoTmp := Expr.noTmp_id (by rintro tmp ⟨⟩)
  have hrsp : (Expr.id rsp).NoTmp := Expr.noTmp_id (by rintro tmp ⟨⟩)
  apply translate_named (P := Flows (line.name ∈ blockEnds))
  · exact flows_of_quiet (by simp [Step.Quiet])
  · intro hcall
    have hends : line.name ∈ blockEnds := by rw [hcall]; decide
    have hstart : Flows (line.name ∈ blockEnds)
        (.resolve .t2 :: .returnAddress :: processPush (.id (.tmp .t2))) := by
      refine flows_t2 hends ?_
      simp only [processPush, Expr.size, List.forall_mem_cons]
      exact ⟨⟨fun _ => id, fun _ => rfl⟩, Step.only_moveStack _ _,
        Step.only_normal (by simp [Expr.noTmp_dict]), by simp⟩
    exact hstart.append (firstArg_flows h (processJump_flows hends "JMP"))
  · exact (firstArg_flows h processPush_flows).append hrelease
  · exact (firstArg_flows h processPop_flows).append hrelease
  · intro hret
    change Flows _ [.resolve .t2, .normal "MOV" [.id (.tmp .t2), .dict (makeMemDict 64 rsp 0)] false,
      .moveStack 8, .jumpReg "JMP" (.tmp .t2)]
    refine flows_t2 (by rw [hret]; decide) ?_
    simp only [List.forall_mem_cons]
    exact ⟨Step.only_normal (by simp [Expr.noTmp_dict]), Step.only_moveStack 8 .t2,
      Step.only_jumpReg "JMP" .t2, by simp⟩
  · have hmov : Flows (line.name ∈ blockEnds) [.normal "MOV" [.id rsp, .id rbp] false] :=
      flows_of_quiet (by simp [Step.Quiet, hrsp, hrbp])
    exact (hmov.append (processPop_flows hrbp)).append hrelease
  · exact fun _ => flows_of_quiet (by simp [Step.Quiet])
  · exact fun _ => flows_of_quiet (by simp [Step.Quiet])
  · exact flows_of_quiet (by simp)
  · intro hbranch
    refine firstArg_flows h (processJump_flows ?_ line.name)
    simp only [blockEnds, List.mem_append]
    tauto
  · exact fun _ _ => flows_of_quiet (by simpa [Step.Quiet] using h)

/-- A line that does not end its block leaves nothing behind. -/
theorem Temps.line {line : Line} {t t' : TransState} {text : List Asm} {blockEnd canCheck : Bool}
    (hno : ∀ e ∈ line.args, e.NoTmp) (hname : line.name ∉ blockEnds) (h : Temps t.regMap [])
    (hrun : runSteps world offset (translate line blockEnd canCheck) t = some (text, t')) :
    Temps t'.regMap [] := by
  have hflow := translate_flows hno blockEnd canCheck
  have hafter := h.run (hflow.guarded []) hrun
  have hnone : stepsHeld [] (translate line blockEnd canCheck) = [] := by
    refine List.eq_nil_iff_forall_not_mem.mpr fun tmp hmem => ?_
    cases tmp with
    | t1 => exact absurd (hflow.t1 [] hmem) List.not_mem_nil
    | t2 => exact (hflow.t2 [] hmem).elim List.not_mem_nil hname
  rwa [hnone] at hafter

end Lines

section Calls

/-- One call of `translate` in the loop over a block, with the constants as they print by then. -/
structure TranslateCall where
  line : Line
  offset : Nat
  blockEnd : Bool
  canCheck : Bool
  heap : Heap

def TranslateCall.steps (call : TranslateCall) : List Step :=
  translate call.line call.blockEnd call.canCheck

/-- The disassembler's operands name no temporary. -/
def TranslateCall.Proper (call : TranslateCall) : Prop := ∀ e ∈ call.line.args, e.NoTmp

def callStep (world : World) (call : TranslateCall) (t : TransState) : Option TransState :=
  (runSteps world call.offset call.steps { t with heap := call.heap }).map Prod.snd

/-- The map between two calls. `transferred` says whether control has been transferred before. -/
structure RegMapOk (m : RegMap) (transferred : Prop) : Prop where
  sp : m .p13 = some .sp
  bp : m .p12 = some .bp
  inj : ∀ p q v, m p = some v → m q = some v → p = q
  high : ∀ p ∈ [Phys.p15, .p14], ∀ v, m p = some v →
    v ∈ [Virt.r12, .r13, .r14, .r15, .fs, .gs] ∨ transferred ∧ v = .t2
  noIp : ∀ p, m p ≠ some .ip
  noT1 : ∀ p, m p ≠ some .t1

/-- The temporary is in a register, and stays in it through every step and through the
`conflict_resolve` of every step. -/
def Unevicted (world : World) (offset : Nat) (tmp : Tmp) (t : TransState) (steps : List Step) : Prop :=
  ∃ p, t.regMap p = some tmp.virt ∧ ∀ front back, steps = front ++ back → ∀ text t',
    runSteps world offset front t = some (text, t') → t'.regMap p = some tmp.virt ∧
      ∀ step ∈ back.head?, ∀ call, step.call world offset t'.heap = some call → ∀ moves m,
        conflictResolve (world.order t'.calls) t'.regMap (conflictRegs call.args) offset =
          some (moves, m) → m p = some tmp.virt

/-- Every step that uses a temporary comes after the one that brings it in, and from there to the
use it is not evicted. -/
def KeepsTmps (world : World) (offset : Nat) (steps : List Step) (t : TransState) : Prop :=
  ∀ before step after tmp, steps = before ++ step :: after → step.Uses tmp →
    ∃ front middle, before = front ++ .resolve tmp :: middle ∧ ∀ text t',
      runSteps world offset (front ++ [.resolve tmp]) t = some (text, t') →
        Unevicted world offset tmp t' (middle ++ [step])

/-- What is known of the map between two calls: which temporaries are resident. -/
structure Between (transferred : Prop) (t : TransState) (held : List Tmp) : Prop where
  temps : Temps t.regMap held
  t1 : .t1 ∉ held
  t2 : .t2 ∈ held → transferred

variable {transferred : Prop} {t t' : TransState} {held : List Tmp}

theorem Between.call (h : Between transferred t held) {call : TranslateCall} (hproper : call.Proper)
    (hrun : callStep world call t = some t') :
    ∃ held', Between (transferred ∨ call.line.name ∈ blockEnds) t' held' := by
  obtain ⟨⟨text, t₁⟩, hsteps, rfl⟩ := Option.map_eq_some_iff.mp hrun
  have hflow := translate_flows hproper call.blockEnd call.canCheck
  have htemps : Temps { t with heap := call.heap }.regMap held := h.temps
  refine ⟨stepsHeld held call.steps, htemps.run (hflow.guarded held) hsteps, ?_, ?_⟩
  · exact fun hmem => h.t1 (hflow.t1 held hmem)
  · exact fun hmem => (hflow.t2 held hmem).imp_left h.t2

theorem Between.regMapOk (h : Between transferred t held) : RegMapOk t.regMap transferred where
  sp := h.temps.map.sp
  bp := h.temps.map.bp
  inj := h.temps.map.inj
  noIp := h.temps.map.noIp
  noT1 p hp := h.t1 ((h.temps.tmp .t1).mp ⟨p, hp⟩)
  high := by
    intro p hhigh v hp
    have hsp : p ≠ .p13 := by
      rintro rfl
      exact absurd hhigh (by decide)
    have hbp : p ≠ .p12 := by
      rintro rfl
      exact absurd hhigh (by decide)
    cases v with
    | sp => exact absurd (h.temps.map.inj _ _ _ hp h.temps.map.sp) hsp
    | bp => exact absurd (h.temps.map.inj _ _ _ hp h.temps.map.bp) hbp
    | ip => exact absurd hp (h.temps.map.noIp p)
    | t1 => exact absurd ((h.temps.tmp .t1).mp ⟨p, hp⟩) h.t1
    | t2 => exact Or.inr ⟨h.t2 ((h.temps.tmp .t2).mp ⟨p, hp⟩), rfl⟩
    | _ => exact Or.inl (by decide)

theorem Between.calls {calls : List TranslateCall} (hproper : ∀ call ∈ calls, call.Proper)
    (h : Between transferred t held) (hrun : runAll (callStep world) calls t = some t') :
    ∃ held', Between (transferred ∨ ∃ call ∈ calls, call.line.name ∈ blockEnds) t' held' := by
  induction calls generalizing transferred t held with
  | nil =>
      cases hrun
      exact ⟨held, h.temps, h.t1, fun hmem => Or.inl (h.t2 hmem)⟩
  | cons call calls ih =>
      obtain ⟨mid, hfirst, hrest⟩ := Option.bind_eq_some_iff.mp hrun
      obtain ⟨hcall, hcalls⟩ := List.forall_mem_cons.mp hproper
      obtain ⟨heldMid, hmid⟩ := h.call hcall hfirst
      obtain ⟨held', hlast⟩ := ih hcalls hmid hrest
      refine ⟨held', hlast.temps, hlast.t1, fun hmem => ?_⟩
      rw [List.exists_mem_cons_iff, ← or_assoc]
      exact hlast.t2 hmem

/-- A temporary that is in a register stays there as long as none is released. -/
theorem unevicted_of_place {steps : List Step} {p : Phys} {tmp : Tmp} (hm : MapInv t.regMap)
    (hp : t.regMap p = some tmp.virt) (hsteps : .releaseTmp ∉ steps) :
    Unevicted world offset tmp t steps := by
  refine ⟨p, hp, ?_⟩
  rintro front back rfl text t₁ hfront
  rw [List.mem_append, not_or] at hsteps
  have hp₁ := runSteps_place hm hsteps.1 hfront hp
  refine ⟨hp₁, fun step _ call _ moves m hres => ?_⟩
  exact conflictResolve_place (runSteps_mapInv hm hfront) hres tmp.virt_isTmp hp₁

theorem keepsTmps {steps : List Step} (h : Temps t.regMap held)
    (hguard : ∀ held, Guarded held steps) : KeepsTmps world offset steps t := by
  rintro before step after tmp rfl huse
  rcases mem_stepsHeld ((hguard []).uses huse) with hmem | ⟨front, middle, rfl, hkept⟩
  · exact absurd hmem List.not_mem_nil
  · refine ⟨front, middle, rfl, fun text t₁ hrun => ?_⟩
    have hfront : Guarded held (front ++ [.resolve tmp]) := by
      have hall := hguard held
      rw [List.append_cons front, List.append_assoc] at hall
      exact (guarded_append.mp hall).1
    have h₁ := h.run hfront hrun
    rw [stepsHeld_append] at h₁
    obtain ⟨p, hp⟩ := (h₁.tmp tmp).mpr List.mem_cons_self
    refine unevicted_of_place h₁.map hp ?_
    rw [List.mem_append, List.mem_singleton]
    rintro (hmem | rfl)
    · exact hkept hmem
    · exact huse

theorem temps_blockInit : Temps blockInit [] := by
  refine ⟨mapInv_blockInit, fun tmp => ⟨?_, fun hmem => absurd hmem List.not_mem_nil⟩⟩
  rintro ⟨p, hp⟩
  cases p <;> cases tmp <;> cases hp

end Calls

/-- **The register map between calls.** In whatever order registers are taken from the pools, after
every sequence of calls the map is in order, and no further call loses a temporary between bringing it
in and using it. -/
theorem reg_map_invariant (world : World) (t₀ t : TransState) (calls : List TranslateCall)
    (hproper : ∀ call ∈ calls, call.Proper)
    (hrun : runAll (callStep world) calls t₀.atBlock = some t) :
    RegMapOk t.regMap (∃ call ∈ calls, call.line.name ∈ blockEnds) ∧
      ∀ call : TranslateCall, call.Proper →
        KeepsTmps world call.offset call.steps { t with heap := call.heap } := by
  have hstart : Between False t₀.atBlock [] :=
    ⟨temps_blockInit, List.not_mem_nil, fun hmem => List.not_mem_nil hmem⟩
  obtain ⟨held, hlast⟩ := hstart.calls hproper hrun
  rw [false_or] at hlast
  refine ⟨hlast.regMapOk, fun call hcall => ?_⟩
  exact keepsTmps hlast.temps (translate_flows hcall call.blockEnd call.canCheck).guarded

/-- `PUSH [R14]` and `CALL [R15]`. -/
def pushCall : List TranslateCall :=
  [⟨{ name := "PUSH", args := [.mem 64 none (.id (.gpr .r14 .q))], l := 3 }, 0x401003, false, true,
      .fresh⟩,
    ⟨{ name := "CALL", args := [.mem 64 none (.id (.gpr .r15 .q))], l := 3 }, 0x401006, true, true,
      .fresh⟩]

theorem reg_map_invariant_pushCall : ∃ t, runAll (callStep .standard) pushCall
      TransState.start.atBlock = some t ∧
    RegMapOk t.regMap (∃ call ∈ pushCall, call.line.name ∈ blockEnds) ∧
      ∀ call ∈ pushCall, KeepsTmps .standard call.offset call.steps
        { t with heap := call.heap } := by
  have hproper : ∀ call ∈ pushCall, call.Proper := by
    simp [pushCall, TranslateCall.Proper, Expr.NoTmp, Expr.regs, memRegs, Addr.bases, Addr.indices,
      Addr.terms, Addr.base, Addr.scaled]
  have hruns : (runAll (callStep .standard) pushCall
      TransState.start.atBlock).isSome := by decide +kernel
  obtain ⟨t, ht⟩ := Option.isSome_iff_exists.mp hruns
  obtain ⟨hmap, hkeeps⟩ := reg_map_invariant _ _ t _ hproper ht
  exact ⟨t, ht, hmap, fun call hcall => hkeeps call (hproper call hcall)⟩

end UserspaceBypass
