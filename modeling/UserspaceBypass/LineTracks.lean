import UserspaceBypass.ControlFlow
import UserspaceBypass.MaskSafety
import UserspaceBypass.ProgramSpec

/-! One translated line next to the line of the program. The text of a line runs on into the text of
the next one, or jumps to a label; the line of the program goes on, goes to another block, goes
through an address, or hands over to the kernel. Whatever the program's line does, the text does the
same, and where control leaves the block every register is where the next block looks for it. -/

namespace UserspaceBypass

open StraightLine Liveness

section Views

variable {m : RegMap} {c c' : Machine}

/-- The registers that live in the frame between blocks. -/
def slotRegs : List Virt := userRegs ++ [.fs, .gs]

theorem mem_slotRegs {v : Virt} : v ∈ slotRegs ↔ v ≠ .ip ∧ v.isTmp = false ∧ v ≠ .sp ∧ v ≠ .bp := by
  cases v <;> decide

theorem slot_of_mem_slotRegs {v : Virt} (h : v ∈ slotRegs) : ∃ k, v.slot = some k := by
  cases v <;> first | exact ⟨_, rfl⟩ | exact absurd h (by decide)

/-- Where all of them agree with their slots, the map may be forgotten. -/
theorem same_blockInit (hm : MapInv m) (hsync : ∀ v ∈ slotRegs, Synced m c v) :
    (abs m c).Same (abs blockInit c) := by
  refine ⟨rfl, fun f hf => ?_⟩
  have hinit := mapInv_blockInit
  cases hv : f.virt with
  | none => exact (absRegs_plain hv).trans (absRegs_plain hv).symm
  | some v =>
      have hvalue : virtValue blockInit c v = virtValue m c v := by
        by_cases hsp : v = .sp
        · subst hsp
          rw [virtValue_resident hinit.inj c hinit.sp, virtValue_resident hm.inj c hm.sp]
        by_cases hbp : v = .bp
        · subst hbp
          rw [virtValue_resident hinit.inj c hinit.bp, virtValue_resident hm.inj c hm.bp]
        have hip : v ≠ .ip := fun h => family_virt_ne_ip f (h ▸ hv)
        have hmem := mem_slotRegs.mpr ⟨hip, isTmp_of_family hf hv, hsp, hbp⟩
        have habsent : ∀ p, blockInit p ≠ some v := by
          intro p hp
          cases p <;> cases hp
          · exact hsp rfl
          · exact hbp rfl
        rw [virtValue_absent c habsent]
        by_cases hres : m.Resident v
        · obtain ⟨p, hp⟩ := hres
          obtain ⟨k, hk⟩ := slot_of_mem_slotRegs hmem
          rw [virtValue_resident hm.inj c hp, hk, hsync v hmem p k hp hk]
          rfl
        · rw [virtValue_absent c fun p hp => hres ⟨p, hp⟩]
      exact (absRegs_virt hv).trans (hvalue.trans (absRegs_virt hv).symm)

/-- R14 and R15 hold nothing between blocks. -/
theorem abs_blockInit_setReg {p : Phys} (hp : blockInit p = none) (value : BitVec 64) :
    abs blockInit (c.setReg p value) = abs blockInit c := by
  refine congrArg (State.mk · _) (funext fun f => ?_)
  cases hv : f.virt with
  | none =>
      rw [absRegs_plain hv, absRegs_plain hv]
      refine Function.update_of_ne (fun hf => ?_) _ _
      exact phys_virt_ne_none p (hf ▸ hv)
  | some v =>
      rw [absRegs_virt hv, absRegs_virt hv, virtValue, virtValue]
      cases hinv : invMap blockInit v with
      | none => rfl
      | some q =>
          refine setReg_regs_ne c (fun hqp => ?_) value
          rw [← hqp, invMap_some hinv] at hp
          cases hp

theorem OnlyR15.abs_agrees (h : OnlyR15 c c') : State.Agrees noFlags (abs blockInit c) (abs blockInit c') where
  regs f hf := by
    cases hv : f.virt with
    | none =>
        have hne : f ≠ .gpr .r15 := by
          rintro rfl
          cases hv
        exact (absRegs_plain hv).trans ((h.regs f hne).trans (absRegs_plain hv).symm)
    | some v =>
        refine (absRegs_virt hv).trans (Eq.trans ?_ (absRegs_virt hv).symm)
        rw [virtValue, virtValue, h.frame]
        cases hinv : invMap blockInit v with
        | none => rfl
        | some q =>
            refine h.regs _ fun hq => ?_
            have hmap := invMap_some hinv
            cases q <;> cases hmap <;> cases hq
  mem := h.mem
  vec := h.vec
  flags _ hf := by cases hf

/-- After the flush, every register is where the next block looks for it. -/
theorem same_of_flush {isa : Isa} (hm : MapInv m) (hfs : Synced m c .fs) (hgs : Synced m c .gs)
    (h : execText isa (releaseConflict m true) c = some c') : (abs m c).Same (abs blockInit c') := by
  have hview := sameView_release hm.inj h
  refine hview.same.trans (same_blockInit hm fun v hv => ?_)
  rcases List.mem_append.mp hv with hv | hv
  · exact synced_of_release hm.inj h hv
  · rcases List.mem_pair.mp hv with rfl | rfl
    · exact hview.sync .fs (by decide) rfl hfs
    · exact hview.sync .gs (by decide) rfl hgs

end Views

section Segments

variable {isa : Isa} {world : World} {offset : Nat} {t t' : TransState} {text : List Asm}
  {c c' : Machine}

/-- FS and GS, which are never saved, agree with their slots. -/
structure SegSynced (m : RegMap) (c : Machine) : Prop where
  fs : Synced m c .fs
  gs : Synced m c .gs

theorem SegSynced.sameView {m m' : RegMap} (h : SegSynced m c) (hview : SameView m c m' c') :
    SegSynced m' c' :=
  ⟨hview.sync .fs (by decide) rfl h.fs, hview.sync .gs (by decide) rfl h.gs⟩

/-- No operand is a segment register. -/
def NoSegment (args : List Expr) : Prop := ∀ s, Expr.id (.seg s) ∉ args

def Step.NoSegment : Step → Prop
  | .normal _ args _ => UserspaceBypass.NoSegment args
  | _ => True

theorem ExprId.virt_seg {r : ExprId} {v : Virt} (hr : r.virt = some v) (hv : v = .fs ∨ v = .gs) :
    ∃ s, r = .seg s := by
  cases r with
  | gpr g width => cases g <;> cases hr <;> rcases hv with h | h <;> cases h
  | seg s => exact ⟨s, rfl⟩
  | tmp tmp => cases tmp <;> cases hr <;> rcases hv with h | h <;> cases h
  | high hb => cases hr
  | xmm k => cases hr
  | rip => cases hr; rcases hv with h | h <;> cases h
  | eip => cases hr; rcases hv with h | h <;> cases h

theorem not_mem_operandVirts {name : String} {args : List Expr} {canCheck : Bool} {heap : Heap}
    (h : NoSegment args) {v : Virt} (hv : v = .fs ∨ v = .gs) :
    v ∉ operandVirts (Call.of name args canCheck heap).args := by
  intro hmem
  obtain ⟨arg, harg, hvirt⟩ := List.mem_filterMap.mp hmem
  obtain ⟨arg', harg', rfl⟩ := List.mem_map.mp harg
  obtain ⟨e, he, heap', rfl⟩ := mem_purifyArgs harg'
  cases e with
  | id r =>
      obtain ⟨s, rfl⟩ := ExprId.virt_seg hvirt hv
      exact h s he
  | _ => cases hvirt

/-- No call of the translator has one either. -/
theorem Step.NoSegment.call {step : Step} (h : step.NoSegment) {heap : Heap} {call : Call}
    (hcall : step.call world offset heap = some call) {v : Virt} (hv : v = .fs ∨ v = .gs) :
    v ∉ operandVirts call.args := by
  cases step with
  | normal name args canCheck =>
      cases hcall
      exact not_mem_operandVirts h hv
  | moveStack bytes =>
      cases hcall
      exact not_mem_operandVirts (by simp [UserspaceBypass.NoSegment, rsp]) hv
  | returnAddress =>
      cases hcall
      exact not_mem_operandVirts (by simp [UserspaceBypass.NoSegment]) hv
  | pushInt n =>
      cases hcall
      exact not_mem_operandVirts (by simp [UserspaceBypass.NoSegment]) hv
  | _ => cases hcall

/-- The step masks no segment register. -/
def Step.MasksPlain (world : World) (offset : Nat) (step : Step) (t : TransState) : Prop :=
  ∀ call, step.call world offset t.heap = some call →
    ∀ r ∈ masked (toCheckRegs call.name call.args t.checked) call.canCheck, ∀ s, r ≠ .seg s

theorem SegSynced.step {step : Step} (hm : MapInv t.regMap) (henc : step.Encodable)
    (hno : step.NoSegment) (hmask : step.MasksPlain world offset t)
    (hrun : step.run world offset t = some (text, t')) (hexec : execText isa text c = some c')
    (h : SegSynced t.regMap c) : SegSynced t'.regMap c' := by
  cases hcall : step.call world offset t.heap with
  | none => exact h.sameView (Step.quiet hm henc hcall hrun hexec).1
  | some call =>
      obtain ⟨heap, ⟨st⟩⟩ := Step.stages hcall hm hrun
      have hsync : ∀ v, v = .fs ∨ v = .gs → v ≠ .ip → Synced t.regMap c v →
          Synced t'.regMap c' v := by
        intro v hv hip hs
        refine st.synced hm hexec hip (notWritten_of_not_mem (hno.call hcall hv)) ?_ hs
        intro r hr hvirt
        obtain ⟨s, hseg⟩ := ExprId.virt_seg hvirt hv
        exact hmask call hcall r hr s hseg
      exact ⟨hsync .fs (Or.inl rfl) (by decide) h.fs, hsync .gs (Or.inr rfl) (by decide) h.gs⟩

/-- Steps that mask nothing, each of them without segment operand. -/
def Step.isPlain : Step → Prop
  | .normal _ args canCheck => UserspaceBypass.NoSegment args ∧ canCheck = false
  | .jumpReg name _ => name = "JMP" ∨ name = "JMPF"
  | _ => True

theorem Step.isPlain.masks {step : Step} (h : step.isPlain) (t : TransState) :
    step.MasksPlain world offset t := by
  have hmask : ∀ toCheck : List ExprId, masked toCheck false = [] := fun toCheck => if_pos (Or.inr rfl)
  intro call hcall r hr
  cases step with
  | normal name args canCheck =>
      cases hcall
      obtain ⟨-, rfl⟩ := h
      rw [Call.of, hmask] at hr
      cases hr
  | moveStack bytes | returnAddress | pushInt n =>
      cases hcall
      rw [Call.of, hmask] at hr
      cases hr
  | _ => cases hcall

theorem SegSynced.steps {steps : List Step} (hm : MapInv t.regMap) (hplain : ∀ step ∈ steps, step.isPlain)
    (hrun : runSteps world offset steps t = some (text, t')) (hexec : execText isa text c = some c')
    (h : SegSynced t.regMap c) : SegSynced t'.regMap c' := by
  induction steps generalizing t text c with
  | nil =>
      cases hrun
      cases hexec
      exact h
  | cons step steps ih =>
      obtain ⟨hstep, hsteps⟩ := List.forall_mem_cons.mp hplain
      obtain ⟨text₁, t₁, text₂, hrun₁, hrun₂, rfl⟩ := runSteps_cons hrun
      obtain ⟨c₁, hexec₁, hexec₂⟩ := runAll_append_some.mp hexec
      have henc : step.Encodable := by
        cases step with
        | jumpReg name r => exact hstep
        | _ => trivial
      have hno : step.NoSegment := by
        cases step with
        | normal name args canCheck => exact hstep.1
        | _ => trivial
      exact ih (Step.mapInv hm hrun₁) hsteps hrun₂ hexec₂ (h.step hm henc hno (hstep.masks t) hrun₁ hexec₁)

end Segments

/-- What holds in front of a line when control gets there. -/
structure InBlock (marks : Marks) (t : TransState) (c : Machine) : Prop where
  temps : Temps t.regMap []
  seg : SegSynced t.regMap c
  clean : Clean marks t.regMap c

/-- Every register that lives in the frame between blocks is there. -/
def Settled (m : RegMap) (c : Machine) : Prop := ∀ v ∈ slotRegs, Synced m c v

theorem settled_of {m : RegMap} {c : Machine} (huser : ∀ v ∈ userRegs, Synced m c v)
    (hseg : SegSynced m c) : Settled m c := by
  intro v hv
  rcases List.mem_append.mp hv with hv | hv
  · exact huser v hv
  · rcases List.mem_pair.mp hv with rfl | rfl
    · exact hseg.fs
    · exact hseg.gs

/-- What the text of a line does, by what the line of the program does: `marks` are the marks behind
the line, and `live` the flags that are live at an address. -/
inductive Emitted.Tracks (isa : Isa) (live : Nat → Flag → Bool) (marks : Marks) (e : Emitted)
    (c : Machine) : Option (State × Control) → Prop
  | faults (run : ∀ next rest, runs isa next (e.text ++ rest) c = none) :
      Emitted.Tracks isa live marks e c none
  | next {s : State} {c' : Machine}
      (run : ∀ next rest, runs isa next (e.text ++ rest) c = runs isa next rest c')
      (inBlock : InBlock marks e.after c') (settled : e.blockEnd = true → Settled e.after.regMap c')
      (agrees : State.Agrees (live e.offset) (abs e.after.regMap c') s) :
      Emitted.Tracks isa live marks e c (some (s, .next))
  | block {s : State} {a : Nat} {c' : Machine}
      (run : ∀ next rest, runs isa next (e.text ++ rest) c = some (.loc a, c'))
      (agrees : State.Agrees (live a) (abs blockInit c') s) :
      Emitted.Tracks isa live marks e c (some (s, .block a))
  | through {s : State} {target : BitVec 64} {c' : Machine}
      (run : ∀ next rest, runs isa next (e.text ++ rest) c = some (.ij e.offset, c'))
      (r14 : c'.regs (.gpr .r14) = target) (agrees : State.Agrees noFlags (abs blockInit c') s) :
      Emitted.Tracks isa live marks e c (some (s, .through target))
  | out {s : State} {address : BitVec 64} {c' : Machine}
      (run : ∀ next rest, runs isa next (e.text ++ rest) c = some (.compSyscall, c'))
      (r14 : c'.regs (.gpr .r14) = address) (agrees : State.Agrees noFlags (abs blockInit c') s) :
      Emitted.Tracks isa live marks e c (some (s, .out address))

section Shapes

variable {isa : Isa} {use : RegUse} {world : World} {live : Nat → Flag → Bool} {marks marks' : Marks}
  {e : Emitted} {c : Machine} {front : List Step}

/-- A line that ends in the flush of the block. -/
theorem tracks_next (hisa : isa.Respects use) (hreg : e.Regular world)
    (hno : ∀ a ∈ e.line.args, a.NoTmp) (hname : e.line.name ∉ blockEnds)
    (hsteps : translate e.line e.blockEnd e.canCheck = front ++ [.release e.blockEnd])
    (htarget : NoTarget e.offset front) (hin : InBlock marks e.before c) {r : Option State}
    (hfront : ∀ text t, runSteps world e.offset front e.before = some (text, t) →
      (∀ c', execText isa text c = some c' → SegSynced t.regMap c') ∧
        Option.Rel (fun c' s => State.Agrees (live e.offset) (abs t.regMap c') s)
          (execText isa text c) r) :
    e.Tracks isa live (stepsMarks use world e.offset (translate e.line e.blockEnd e.canCheck)
      e.before marks) c (r.map fun s => (s, .next)) := by
  have hrun := hreg.run
  have hjump : ∀ a ∈ e.text, a.isJump = false := by
    refine noJump_of_noTarget hreg.map ?_ hrun
    rw [hsteps]
    exact List.forall_mem_append.mpr ⟨htarget, by simp [Step.target]⟩
  have hsplit := hrun
  rw [hsteps] at hsplit
  obtain ⟨text₁, t₁, text₂, hrun₁, hrun₂, htext⟩ := runSteps_append hsplit
  have hrelease : some (releaseConflict t₁.regMap e.blockEnd, t₁) = some (text₂, e.after) :=
    runSteps_singleton hrun₂
  obtain ⟨rfl, hafter⟩ := Prod.mk.inj (Option.some.inj hrelease)
  have hm₁ := runSteps_mapInv hreg.map hrun₁
  obtain ⟨hseg, hrel⟩ := hfront text₁ t₁ hrun₁
  generalize hexec₁ : execText isa text₁ c = result at hrel
  cases hrel with
  | none =>
      refine .faults fun next rest => ?_
      rw [runs_append hjump, htext, execText, runAll_append]
      have hnone : runAll (Asm.exec isa) text₁ c = none := hexec₁
      rw [hnone]
      rfl
  | @some c₁ s hagree =>
      obtain ⟨c', hexec₂, -, -⟩ := exec_release isa hm₁.inj e.blockEnd c₁
      have hexec : execText isa e.text c = some c' := by
        rw [htext]
        exact runAll_append_some.mpr ⟨c₁, hexec₁, hexec₂⟩
      have hview := sameView_release hm₁.inj hexec₂
      have hseg' : SegSynced e.after.regMap c' := hafter ▸ (hseg c₁ hexec₁).sameView hview
      refine .next (fun next rest => runs_append_some hjump hexec)
        ⟨hin.temps.line hno hname hrun, hseg', hin.clean.steps hisa hreg.map hrun hexec⟩ ?_ ?_
      · intro hend
        refine settled_of (fun v hv => ?_) hseg'
        rw [hend] at hexec₂
        exact hafter ▸ synced_of_release hm₁.inj hexec₂ hv
      · rw [← hafter]
        exact (hview.same.symm.agrees _).trans hagree

/-- A line that flushes and jumps to a label. -/
theorem tracks_block (hreg : e.Regular world) {a : Nat}
    (hsteps : translate e.line e.blockEnd e.canCheck = front ++ [.release true, .jumpLoc "JMP" a])
    (htarget : NoTarget e.offset front) {s : State}
    (hfront : ∀ text t, runSteps world e.offset front e.before = some (text, t) →
      ∃ c', execText isa text c = some c' ∧ SegSynced t.regMap c' ∧
        State.Agrees (live a) (abs t.regMap c') s) :
    e.Tracks isa live marks' c (some (s, .block a)) := by
  have hrun := hreg.run
  rw [hsteps] at hrun
  obtain ⟨text₁, t₁, text₂, hrun₁, hrun₂, htext⟩ := runSteps_append hrun
  have hm₁ := runSteps_mapInv hreg.map hrun₁
  have hrest : some (releaseConflict t₁.regMap true ++ [.jump "JMP" (.loc a)], t₁) =
      some (text₂, e.after) := hrun₂
  obtain ⟨rfl, -⟩ := Prod.mk.inj (Option.some.inj hrest)
  obtain ⟨c₁, hexec₁, hseg, hagree⟩ := hfront text₁ t₁ hrun₁
  obtain ⟨c', hexec₂, -, -⟩ := exec_release isa hm₁.inj true c₁
  have hjump : ∀ b ∈ text₁ ++ releaseConflict t₁.regMap true, b.isJump = false := by
    have hfront : NoTarget e.offset (front ++ [.release true]) :=
      List.forall_mem_append.mpr ⟨htarget, by simp [Step.target]⟩
    refine noJump_of_noTarget hreg.map hfront ((runSteps_append_some hrun₁
      (runSteps_some rfl rfl)).trans (by rw [List.append_nil]))
  have hruns : ∀ next rest, runs isa next (e.text ++ rest) c = some (.loc a, c') := by
    intro next rest
    rw [htext, ← List.append_assoc text₁]
    exact runs_jump hjump (runAll_append_some.mpr ⟨c₁, hexec₁, hexec₂⟩) _
  exact .block hruns (((same_of_flush hm₁ hseg.fs hseg.gs hexec₂).symm.agrees _).trans hagree)

/-- The flush and the move of the target, which is all that is in front of a jump to a ladder. -/
theorem exec_toTarget_same {m : RegMap} {r : ExprId} {f : Family} {target : String} (hm : MapInv m)
    (hr : r.full = some f) (h : reverseReg m r = some target) (hseg : SegSynced m c) :
    ∃ c', execText isa (toTarget m target) c = some c' ∧ c'.regs (.gpr .r14) = (abs m c).regs f ∧
      (abs m c).Same (abs blockInit c') := by
  obtain ⟨c', hexec, hr14, -, -⟩ := exec_toTarget isa hm hr h c
  refine ⟨c', hexec, hr14, ?_⟩
  obtain ⟨c₁, hexec₁, hexec₂⟩ := runAll_append_some.mp hexec
  have hflush := same_of_flush hm hseg.fs hseg.gs hexec₁
  split_ifs at hexec₂ with htarget
  · cases hexec₂
    exact hflush
  · rw [runAll_singleton, Asm.exec] at hexec₂
    obtain ⟨g, -, rfl⟩ := Option.map_eq_some_iff.mp hexec₂
    rw [abs_blockInit_setReg rfl]
    exact hflush

/-- A line that goes through its ladder. -/
theorem tracks_through (hreg : e.Regular world) {r : ExprId} {f : Family} (hr : r.full = some f)
    (hsteps : translate e.line e.blockEnd e.canCheck = front ++ [.jumpReg "JMP" r])
    (htarget : NoTarget e.offset front) {s : State} {target : BitVec 64}
    (hfront : ∀ text t, runSteps world e.offset front e.before = some (text, t) →
      ∃ c', execText isa text c = some c' ∧ SegSynced t.regMap c' ∧
        (abs t.regMap c').regs f = target ∧ State.Agrees noFlags (abs t.regMap c') s) :
    e.Tracks isa live marks' c (some (s, .through target)) := by
  have hrun := hreg.run
  rw [hsteps] at hrun
  obtain ⟨text₁, t₁, text₂, hrun₁, hrun₂, htext⟩ := runSteps_append hrun
  have hm₁ := runSteps_mapInv hreg.map hrun₁
  obtain ⟨src, hsrc, hpair⟩ := Option.map_eq_some_iff.mp (runSteps_singleton hrun₂)
  obtain ⟨rfl, -⟩ := Prod.mk.inj hpair
  obtain ⟨c₁, hexec₁, hseg, hvalue, hagree⟩ := hfront text₁ t₁ hrun₁
  obtain ⟨c', hexec₂, hr14, hsame⟩ := @exec_toTarget_same isa c₁ _ _ _ _ hm₁ hr hsrc hseg
  have hjump : ∀ b ∈ text₁ ++ toTarget t₁.regMap src, b.isJump = false := by
    refine List.forall_mem_append.mpr ⟨noJump_of_noTarget hreg.map htarget hrun₁, ?_⟩
    intro b hb
    rcases List.mem_append.mp hb with hb | hb
    · exact isJump_of_isMove (releaseConflict_isMove _ _ b hb)
    · split_ifs at hb
      · cases hb
      · rw [List.mem_singleton.mp hb]
        rfl
  have hruns : ∀ next rest, runs isa next (e.text ++ rest) c = some (.ij e.offset, c') := by
    intro next rest
    rw [htext, ← List.append_assoc text₁]
    exact runs_jump hjump (runAll_append_some.mpr ⟨c₁, hexec₁, hexec₂⟩) _
  exact .through hruns (hr14.trans hvalue) ((hsame.symm.agrees _).trans hagree)

end Shapes

section Ordinary

variable {isa : Isa} {ip : BitVec 64} {heap heap' : Heap}

/-- An operand that `arg_purify` resolves. -/
def Expr.Resolved : Expr → Prop
  | .id _ | .int _ | .mem _ _ _ => True
  | _ => False

/-- A printed operand that means what was decoded is what the processor sees. -/
theorem Expr.eval_printed {e : Expr} (hres : e.Resolved)
    (h : e.Denotes (Arg.printed heap' (argPurify e heap).1)) (read : ExprId → BitVec 64) :
    (Arg.printed heap' (argPurify e heap).1).eval read = e.operand read := by
  cases e with
  | id r => cases r <;> rfl
  | int n =>
      obtain ⟨m, hm, harg⟩ := h
      obtain rfl : n.printed heap' = m := Arg.int.inj hm
      have hn : n.printed heap' = n := congrArg (ExprInt.mk · n.size) harg
      exact congrArg Operand.int hn
  | mem size segm ptr =>
      obtain ⟨d, hd, hsize, haddr⟩ := h
      rw [hd, Arg.eval, hsize, haddr]
      rfl
  | _ => cases hres

/-- Writes go to the registers that were decoded. -/
theorem writeArgs_printed (args : List Expr) (heap heap' : Heap)
    (writes : List (Option (BitVec 64))) (regs : Regs) :
    writeArgs ((purifyArgs args heap).1.map (Arg.printed heap')) writes regs =
      writeArgs (args.map Expr.dest) writes regs := by
  induction args generalizing heap writes regs with
  | nil => rfl
  | cons e args ih =>
      cases writes with
      | nil => cases e <;> rfl
      | cons w writes =>
          cases e with
          | id r =>
              cases w with
              | none => exact ih _ _ _
              | some value => exact ih _ _ _
          | _ => exact ih _ _ _

theorem eval_purifyArgs {args : List Expr} (hres : ∀ e ∈ args, e.Resolved)
    (h : ∀ x ∈ args.zip ((purifyArgs args heap).1.map (Arg.printed heap')), x.1.Denotes x.2)
    (read : ExprId → BitVec 64) :
    ((purifyArgs args heap).1.map (Arg.printed heap')).map (Arg.eval read) =
      args.map (Expr.operand read) := by
  induction args generalizing heap with
  | nil => rfl
  | cons e args ih =>
      obtain ⟨he, hargs⟩ := List.forall_mem_cons.mp hres
      obtain ⟨hd, hds⟩ := List.forall_mem_cons.mp h
      exact congrArg₂ List.cons (e.eval_printed he hd read) (ih hargs hds)

/-- The printed instruction is the decoded one. -/
theorem execInst_printed {line : Line} {canCheck : Bool} (hres : ∀ e ∈ line.args, e.Resolved)
    (h : ∀ x ∈ (Step.normal (getInstName line) line.args canCheck).operands .standard heap,
      x.1.Denotes x.2) (s : State) :
    execInst isa ip (getInstName line) (Call.of (getInstName line) line.args canCheck heap).args s =
      line.execOrdinary isa ip s := by
  unfold execInst Line.execOrdinary Call.of
  dsimp only
  rw [eval_purifyArgs hres h]
  simp only [writeArgs_printed]

/-- A mask of a register with bit 63 clear changes flags only. -/
theorem State.mask_regs {s : State} {g : Gpr} (h : Clear s.regs (.gpr g .q)) :
    (s.mask isa ip (.gpr g .q)).regs = s.regs := by
  have hbit : (s.regs (.gpr g)).getLsbD 63 = false := (clear_iff rfl).mp h
  have hshift : ∀ x : BitVec 64, x.getLsbD 63 = false → (x <<< 1) >>> 1 = x := by
    intro x hx
    refine BitVec.eq_of_getLsbD_eq fun i hi => ?_
    rw [BitVec.getLsbD_ushiftRight, BitVec.getLsbD_shiftLeft]
    by_cases hlast : i = 63
    · rw [hlast, hx]
      rfl
    · have hlt : 1 + i < 64 := by omega
      have hsub : 1 + i - 1 = i := by omega
      simp only [hlt, hsub]
      simp
  have hq : ∀ regs : Regs, readReg ip regs (.gpr g .q) = regs (.gpr g) :=
    fun regs => Width.get_q _
  have hw : ∀ (regs : Regs) value, writeReg regs (.gpr g .q) value =
      Function.update regs (.gpr g) value := fun _ _ => rfl
  simp only [State.mask, State.shift, hq, hw, Function.update_self, Function.update_idem]
  rw [hshift _ hbit, Function.update_eq_self]

/-- The registers a line masks if it is an ordinary one. -/
def Emitted.masks (e : Emitted) : List ExprId :=
  let call := Call.of (getInstName e.line) e.line.args e.canCheck e.before.heap
  masked (toCheckRegs call.name call.args e.before.checked) e.canCheck

/-- The masks of a line change flags only, and only where no flag is live. -/
theorem masks_agree {live : Flag → Bool} {s s' : State} {rs : List ExprId}
    (hbase : ∀ r ∈ rs, ∃ g, r = .gpr g .q) (hclear : ∀ r ∈ rs, Clear s'.regs r)
    (hdead : rs ≠ [] → ∀ f, live f = false) (h : State.Agrees live s s') :
    State.Agrees live (rs.foldl (State.mask isa ip) s) s' := by
  induction rs generalizing s with
  | nil => exact h
  | cons r rs ih =>
      obtain ⟨⟨g, rfl⟩, hrest⟩ := List.forall_mem_cons.mp hbase
      obtain ⟨hr, hclear⟩ := List.forall_mem_cons.mp hclear
      have hdead := hdead (List.cons_ne_nil _ _)
      have hsame : s'.regs (.gpr g) = s.regs (.gpr g) := h.regs _ (by rintro t ⟨⟩)
      have hregs : (s.mask isa ip (.gpr g .q)).regs = s.regs := by
        refine State.mask_regs ((clear_iff rfl).mpr ?_)
        rw [← hsame]
        exact (clear_iff rfl).mp hr
      refine ih hrest hclear (fun _ => hdead) ⟨?_, h.mem, h.vec, fun f hf => ?_⟩
      · rw [hregs]
        exact h.regs
      · rw [hdead f] at hf
        cases hf

end Ordinary

/-- What an ordinary line needs: operands that are resolved and printed with their meaning, registers
that can be placed, and masks of 64-bit registers only. -/
structure Emitted.OrdinaryOk (world : World) (e : Emitted) : Prop where
  resolved : ∀ a ∈ e.line.args, a.Resolved
  ordinary : Ordinary (Call.of (getInstName e.line) e.line.args e.canCheck e.before.heap).args
  denotes : e.Denotes world
  base : ∀ r ∈ e.masks, ∃ g, r = .gpr g .q

theorem translate_ordinary {line : Line} (hspecial : line.name ∉ specialInstruction)
    (hbranch : ¬(line.name ∈ conditionalBranch ∨ line.name ∈ unconditionalBranch))
    (blockEnd canCheck : Bool) : translate line blockEnd canCheck =
      [.normal (getInstName line) line.args canCheck] ++ [.release blockEnd] := by
  rw [translate, if_neg hspecial, if_neg hbranch]
  rfl

theorem not_blockEnds {name : String} (hspecial : name ∉ specialInstruction)
    (hbranch : ¬(name ∈ conditionalBranch ∨ name ∈ unconditionalBranch)) : name ∉ blockEnds := by
  have hends : ∀ name ∈ ["CALL", "RET"], name ∈ specialInstruction := by decide
  intro hmem
  rcases List.mem_append.mp hmem with hmem | hmem
  · rcases List.mem_append.mp hmem with hmem | hmem
    · exact hspecial (hends name hmem)
    · exact hbranch (Or.inl hmem)
  · exact hbranch (Or.inr hmem)

section OrdinaryLine

variable {isa : Isa} {regUse : RegUse} {use : Access Line Flag} {world : World}
  {live : Nat → Flag → Bool} {marks : Marks} {e : Emitted} {c : Machine} {s : State}

theorem tracks_ordinary (hisa : isa.Respects regUse) (hobeys : isa.Obeys use)
    (hreg : e.Regular world) (hproper : e.line.Proper) (hno : NoSegment e.line.args)
    (hspecial : e.line.name ∉ specialInstruction)
    (hbranch : ¬(e.line.name ∈ conditionalBranch ∨ e.line.name ∈ unconditionalBranch))
    (hok : e.OrdinaryOk world) (hin : InBlock marks e.before c) {now : Flag → Bool}
    (hagree : State.Agrees now (abs e.before.regMap c) s)
    (hreads : ∀ f, use.reads e.line f = true → now f = true)
    (hflow : ∀ f, live e.offset f = true → now f = true ∨ use.writes e.line f = true)
    (hdead : e.masks ≠ [] → ∀ f, now f = false) (hclear : ∀ r ∈ e.masks, Clear s.regs r) :
    e.Tracks isa live (stepsMarks regUse world e.offset (translate e.line e.blockEnd e.canCheck)
      e.before marks) c
      ((e.line.execOrdinary isa (BitVec.ofNat 64 e.offset) s).map fun s' => (s', .next)) := by
  have hsteps := translate_ordinary hspecial hbranch e.blockEnd e.canCheck
  have hnoTmp : ∀ v, v.isTmp → ¬e.before.regMap.Resident v := by
    intro v hv hres
    obtain ⟨tmp, rfl⟩ := Virt.exists_tmp hv
    cases (hin.temps.tmp tmp).mp hres
  refine tracks_next hisa hreg hproper.noTmp (not_blockEnds hspecial hbranch) hsteps
    (by simp [NoTarget, Step.target]) hin fun text t hrun => ?_
  have hrun₁ := runSteps_singleton hrun
  have hplain : (Step.normal (getInstName e.line) e.line.args e.canCheck).Encodable := trivial
  refine ⟨fun c' hexec => ?_, ?_⟩
  · refine hin.seg.step hreg.map hplain hno ?_ hrun₁ hexec
    intro call hcall r hr s hs
    cases hcall
    obtain ⟨g, hg⟩ := hok.base r hr
    cases hg.symm.trans hs
  · obtain ⟨heap, ⟨st⟩⟩ := Step.stages rfl hreg.map hrun₁
    have hfaithful : ∀ x ∈ (Step.normal (getInstName e.line) e.line.args e.canCheck).operands
        .standard e.before.heap, x.1.Denotes x.2 := by
      intro x hx
      refine hok.denotes x ?_
      rw [Emitted.operands, hsteps]
      exact List.mem_append_left _ hx
    obtain ⟨hsp, hbp⟩ := st.recoverOk hreg.map hnoTmp hok.ordinary
    have heq : (execText isa text c).map (abs t.regMap) = execInst isa (BitVec.ofNat 64 e.offset)
        (getInstName e.line) (Call.of (getInstName e.line) e.line.args e.canCheck e.before.heap).args
        (e.masks.foldl (State.mask isa (BitVec.ofNat 64 e.offset)) (abs e.before.regMap c)) :=
      st.exec_eq isa hreg.map
        (fun v hv ht => absurd ht (by rw [hok.ordinary.noTmp v hv]; decide)) hsp hbp c
    have hmasked := @masks_agree isa (BitVec.ofNat 64 e.offset) _ _ _ _ hok.base hclear hdead hagree
    have hrel := e.line.execOrdinary_agrees hobeys hproper hmasked hreads (BitVec.ofNat 64 e.offset)
    rw [← execInst_printed hok.resolved hfaithful, ← heq] at hrel
    cases hexec : execText isa text c with
    | none =>
        rw [hexec] at hrel
        generalize e.line.execOrdinary isa _ s = r at hrel
        cases hrel
        exact .none
    | some c' =>
        rw [hexec] at hrel
        generalize e.line.execOrdinary isa _ s = r at hrel
        cases hrel with
        | some h => exact .some (h.mono fun f hf => Bool.or_eq_true_iff.mpr (hflow f hf))

end OrdinaryLine

theorem taken_abs (m : RegMap) (c : Machine) (name : String) : (abs m c).takes name = taken name c := rfl

section BranchLine

variable {isa : Isa} {regUse : RegUse} {use : Access Line Flag} {world : World}
  {live : Nat → Flag → Bool} {marks : Marks} {e : Emitted} {c : Machine} {s : State}

theorem translate_branch {line : Line}
    (hname : line.name ∈ conditionalBranch ∨ line.name ∈ unconditionalBranch) {arg : Expr}
    (hargs : line.args = [arg]) (blockEnd canCheck : Bool) :
    translate line blockEnd canCheck = processJump line.name arg := by
  rw [translate, if_neg (branch_not_special hname), if_pos hname, firstArg, hargs]

theorem tracks_branch (hisa : isa.Respects regUse) (hobeys : isa.Obeys use)
    (hreg : e.Regular world)
    (hname : e.line.name ∈ conditionalBranch ∨ e.line.name ∈ unconditionalBranch) {a : Nat}
    (hargs : e.line.args = [.loc a]) (hin : InBlock marks e.before c) {now : Flag → Bool}
    (hagree : State.Agrees now (abs e.before.regMap c) s)
    (hreads : ∀ f, use.reads e.line f = true → now f = true)
    (hblock : ∀ f, live a f = true → now f = true)
    (hnext : e.line.name ∈ conditionalBranch → ∀ f, live e.offset f = true → now f = true) :
    e.Tracks isa live (stepsMarks regUse world e.offset (translate e.line e.blockEnd e.canCheck)
      e.before marks) c (some (s, if s.takes e.line.name then .block a else .next)) := by
  have hrun := hreg.run
  rw [translate_branch hname hargs] at hrun
  have hpair : some (releaseConflict e.before.regMap true ++ [.jump e.line.name (.loc a)], e.before) =
      some (e.text, e.after) := hrun
  obtain ⟨htext, hafter⟩ := Prod.mk.inj (Option.some.inj hpair)
  have hm := hreg.map
  obtain ⟨c', hexec, hregs, henv⟩ := exec_release isa hm.inj true c
  have hview := sameView_release hm.inj hexec
  have hmove : ∀ b ∈ releaseConflict e.before.regMap true, b.isJump = false :=
    fun b hb => isJump_of_isMove (releaseConflict_isMove _ _ b hb)
  have hruns : ∀ next rest, runs isa next (e.text ++ rest) c =
      if taken e.line.name c' then some (.loc a, c') else runs isa next rest c' := by
    intro next rest
    rw [← htext, List.append_assoc, runs_append_some hmove hexec]
    rfl
  have htaken : taken e.line.name c' = s.takes e.line.name := by
    rcases hname with hcond | huncond
    · rw [← taken_abs e.before.regMap c' e.line.name]
      have hagree' := (hview.same.symm.agrees now).trans hagree
      exact (hobeys.taken e.line _ s hcond (hagree'.regs _ (by rintro t ⟨⟩))
        fun f hf => hagree'.flags f (hreads f hf)).symm
    · rcases List.mem_pair.mp huncond with h | h <;> rw [h] <;> rfl
  by_cases htakes : s.takes e.line.name = true
  · rw [if_pos htakes]
    rw [htakes] at htaken
    refine .block (fun next rest => by rw [hruns, if_pos htaken]) ?_
    exact ((same_of_flush hm hin.seg.fs hin.seg.gs hexec).symm.agrees _).trans (hagree.mono hblock)
  · rw [if_neg htakes]
    have hnot : ¬taken e.line.name c' = true := by rwa [htaken]
    have hcond : e.line.name ∈ conditionalBranch := by
      refine hname.resolve_right fun huncond => hnot ?_
      rcases List.mem_pair.mp huncond with h | h <;> rw [h] <;> rfl
    have hfall : execText isa e.text c = some c' := by
      rw [← htext]
      refine runAll_append_some.mpr ⟨c', hexec, ?_⟩
      rw [runAll_singleton, Asm.exec, if_neg]
      have hplain : ∀ name ∈ conditionalBranch, ¬(name = "JMP" ∨ name = "JMPF") := by decide
      exact hplain _ hcond
    have hseg : SegSynced e.after.regMap c' := hafter ▸ hin.seg.sameView hview
    refine .next (fun next rest => by rw [hruns, if_neg hnot])
      ⟨hafter ▸ hin.temps, hseg, hin.clean.steps hisa hm hreg.run hfall⟩ ?_ ?_
    · exact fun _ => settled_of (fun v hv => hafter ▸ synced_of_release hm.inj hexec hv) hseg
    · rw [← hafter]
      exact (hview.same.symm.agrees _).trans (hagree.mono (hnext hcond))

end BranchLine

section Plain

/-- The handlers mask nothing and have no segment operand of their own. -/
theorem processPush_plain {e : Expr} (h : ∀ s, e ≠ .id (.seg s)) :
    ∀ step ∈ processPush e, step.isPlain := by
  cases e with
  | id r =>
      have hr : ∀ s, r ≠ .seg s := fun s hs => h s (congrArg Expr.id hs)
      simp [processPush, Expr.size, Step.isPlain, NoSegment, Ne.symm (hr _)]
  | _ => simp [processPush, Expr.size, Step.isPlain, NoSegment]

theorem processPop_plain {e : Expr} (h : ∀ s, e ≠ .id (.seg s)) :
    ∀ step ∈ processPop e, step.isPlain := by
  cases e with
  | id r =>
      have hr : ∀ s, r ≠ .seg s := fun s hs => h s (congrArg Expr.id hs)
      simp [processPop, Expr.size, Step.isPlain, NoSegment, Ne.symm (hr _)]
  | _ => simp [processPop, Expr.size, Step.isPlain, NoSegment]

theorem StackOp.process_plain (op : StackOp) {e : Expr} (h : ∀ s, e ≠ .id (.seg s)) :
    ∀ step ∈ op.process e, step.isPlain := by
  cases op with
  | push => exact processPush_plain h
  | pop => exact processPop_plain h

theorem StackOp.process_target (op : StackOp) (offset : Nat) (e : Expr) :
    NoTarget offset (op.process e) := by
  cases op with
  | push => exact processPush_target offset e
  | pop => exact processPop_target offset e

theorem callFront_plain : ∀ step ∈ callFront, step.isPlain := by
  simp [callFront, Step.isPlain, NoSegment]

theorem callFront_target (offset : Nat) : NoTarget offset callFront := by
  simp [callFront, NoTarget, Step.target]

theorem loadTarget_plain (segm : Option Seg) (ptr : Addr) :
    ∀ step ∈ loadTarget segm ptr, step.isPlain := by
  simp [loadTarget, Step.isPlain, NoSegment]

theorem retFront_plain : ∀ step ∈ retFront, step.isPlain := by
  simp [retFront, Step.isPlain, NoSegment]

theorem leaveFront_plain : ∀ step ∈ leaveFront, step.isPlain := by
  refine List.forall_mem_cons.mpr ⟨⟨by simp [NoSegment, rsp, rbp], rfl⟩, processPop_plain ?_⟩
  intro s hs
  cases hs

theorem leaveFront_target (offset : Nat) : NoTarget offset leaveFront :=
  List.forall_mem_cons.mpr ⟨rfl, processPop_target offset _⟩

end Plain

section SpecialLine

variable {isa : Isa} {regUse : RegUse} {world : World} {live : Nat → Flag → Bool}
  {marks marks' : Marks} {e : Emitted} {c : Machine} {s : State} {now : Flag → Bool}

theorem InBlock.start (hin : InBlock marks e.before c) (hreg : e.Regular world) :
    ∃ stale, Start e.before stale := by
  obtain ⟨stale, hheap⟩ := hreg.heap
  exact ⟨stale, held_iff_temps.mpr hin.temps, hheap⟩

/-- A special instruction whose calls do what it does, and that goes on to the next line. -/
theorem tracks_implements (hisa : isa.Respects regUse) (hreg : e.Regular world)
    (hno : ∀ a ∈ e.line.args, a.NoTmp) (hname : e.line.name ∉ blockEnds) {front : List Step}
    (hsteps : translate e.line e.blockEnd e.canCheck = front ++ [.release e.blockEnd])
    (htarget : NoTarget e.offset front) (hplain : ∀ step ∈ front, step.isPlain)
    (hin : InBlock marks e.before c) {f : State → State}
    (himp : ∀ text t, runSteps world e.offset front e.before = some (text, t) →
      Implements isa text e.before.regMap t.regMap f)
    (hagree : State.Agrees (live e.offset) (f (abs e.before.regMap c)) s) :
    e.Tracks isa live (stepsMarks regUse world e.offset (translate e.line e.blockEnd e.canCheck)
      e.before marks) c (some (s, .next)) := by
  refine tracks_next (r := some s) hisa hreg hno hname hsteps htarget hin fun text t hrun => ?_
  obtain ⟨hexec, hsim⟩ := himp text t hrun
  obtain ⟨c', hc'⟩ := hexec c
  refine ⟨fun c₁ hc₁ => hin.seg.steps hreg.map hplain hrun hc₁, ?_⟩
  have hsame := hsim c c' hc'
  have hsome : execText isa text c = some c' := hc'
  rw [hsome]
  exact .some ((hsame.symm.agrees _).trans hagree)

theorem not_blockEnds_of_special {name : String}
    (h : name ∈ ["NOP", "ENDBR64", "PUSH", "POP", "LEAVE"]) : name ∉ blockEnds := by
  have hnone : ∀ name ∈ ["NOP", "ENDBR64", "PUSH", "POP", "LEAVE"], name ∉ blockEnds := by decide
  exact hnone name h

theorem tracks_nop (hisa : isa.Respects regUse) (hreg : e.Regular world)
    (hno : ∀ a ∈ e.line.args, a.NoTmp) (hname : e.line.name ∉ blockEnds)
    (hsteps : translate e.line e.blockEnd e.canCheck = [.nop, .release e.blockEnd])
    (hin : InBlock marks e.before c)
    (hagree : State.Agrees (live e.offset) (abs e.before.regMap c) s) :
    e.Tracks isa live (stepsMarks regUse world e.offset (translate e.line e.blockEnd e.canCheck)
      e.before marks) c (some (s, .next)) := by
  have hfront : translate e.line e.blockEnd e.canCheck = [.nop] ++ [.release e.blockEnd] := hsteps
  refine tracks_implements (f := id) hisa hreg hno hname hfront (by simp [NoTarget, Step.target])
    (by simp [Step.isPlain]) hin (fun text t hrun => ?_) hagree
  cases hrun
  refine ⟨fun c => ⟨c, rfl⟩, fun c c' hc' => ?_⟩
  cases hc'
  exact State.Same.refl _

/-- PUSH and POP of the operands that are handled. -/
theorem tracks_stack (hisa : isa.Respects regUse) (hwords : isa.Words) (hreg : e.Regular world)
    (hno : ∀ a ∈ e.line.args, a.NoTmp) {op : StackOp} {arg : Expr} (hname : e.line.name = op.mnemonic)
    (hplain : getInstName e.line = e.line.name) (hargs : e.line.args = [arg])
    (hlegal : op.Legal arg ∨ op.Legal16 arg) (hhandles : op.Handles e.before.heap arg)
    (hin : InBlock marks e.before c) (address : BitVec 64)
    (hagree : State.Agrees (live e.offset) (abs e.before.regMap c) s) :
    e.Tracks isa live (stepsMarks regUse world e.offset (translate e.line e.blockEnd e.canCheck)
      e.before marks) c
      (some ((Special.stack op arg).exec address (BitVec.ofNat 64 e.offset) s)) := by
  obtain ⟨stale, hstart⟩ := hin.start hreg
  have hends : e.line.name ∉ blockEnds := by
    refine not_blockEnds_of_special ?_
    rw [hname]
    cases op <;> decide
  have hseg : ∀ s, arg ≠ .id (.seg s) := by
    rintro s rfl
    cases op <;> cases hhandles
  have hsteps : translate e.line e.blockEnd e.canCheck = op.process arg ++ [.release e.blockEnd] :=
    translate_stack hname hplain hargs
  rcases hlegal with h64 | h16
  · have hsize : arg.size ≠ some 16 := by
      rw [h64.size]
      decide
    rw [Special.exec, if_neg hsize]
    have hsafe := StackOp.handles_safe h64 hhandles
    refine tracks_implements hisa hreg hno hends hsteps (op.process_target _ _)
      (op.process_plain hseg) hin (fun text t hrun => ?_) (hagree.stack h64)
    exact (StackOp.doesIff hwords.toMoves hstart h64 hrun).implements.mpr
      ⟨StackOp.executes hwords.toMoves hstart h64 hsafe hrun, hsafe.shape⟩
  · rw [Special.exec, if_pos h16.size]
    rcases h16.cases with ⟨g, rfl⟩ | ⟨segm, ptr, rfl, -⟩ | ⟨rfl, n, rfl, -⟩
    · obtain ⟨hg, hwidth⟩ : g ≠ .rsp ∧ (Width.w = .q ∨ op = .push) := by cases op <;> exact hhandles
      obtain rfl : op = .push := hwidth.resolve_left (by decide)
      refine tracks_implements hisa hreg hno hends hsteps (StackOp.push.process_target _ _)
        (StackOp.push.process_plain hseg) hin (fun text t hrun => ?_) (hagree.pushWord g)
      obtain ⟨hsim, hexec⟩ := sim_pushWord hwords hstart hrun
      refine ⟨hexec, hsim.mono fun s s' hs => ?_⟩
      rw [State.moveSp_regs, moveSp, Function.update_of_ne fun heq => hg (Family.gpr.inj heq)] at hs
      exact hs
    · cases op <;> cases hhandles.1
    · cases hhandles

theorem tracks_leave (hisa : isa.Respects regUse) (hwords : isa.Words) (hreg : e.Regular world)
    (hno : ∀ a ∈ e.line.args, a.NoTmp) (hname : e.line.name = "LEAVE")
    (hplain : getInstName e.line = e.line.name) (hin : InBlock marks e.before c)
    (address : BitVec 64) (hagree : State.Agrees (live e.offset) (abs e.before.regMap c) s) :
    e.Tracks isa live (stepsMarks regUse world e.offset (translate e.line e.blockEnd e.canCheck)
      e.before marks) c (some (Special.leave.exec address (BitVec.ofNat 64 e.offset) s)) := by
  obtain ⟨stale, hstart⟩ := hin.start hreg
  have hends : e.line.name ∉ blockEnds := not_blockEnds_of_special (by rw [hname]; decide)
  refine tracks_implements (f := fun s => (s.set (.gpr .rsp) (s.regs (.gpr .rbp))).pop
    (BitVec.ofNat 64 e.offset) (.id rbp)) hisa hreg hno hends (translate_leave hname hplain)
    (leaveFront_target _) leaveFront_plain hin (fun text t hrun => ?_) hagree.leave
  obtain ⟨text', t', hrun', himp⟩ := implements_leaveFront hwords.toMoves hstart world e.offset
    (BitVec.ofNat 64 e.offset)
  cases hrun.symm.trans hrun'
  exact himp

theorem tracks_ret (hwords : isa.Words) (hreg : e.Regular world) (hname : e.line.name = "RET")
    (hplain : getInstName e.line = e.line.name) (hin : InBlock marks e.before c)
    (address next : BitVec 64) (hagree : State.Agrees now (abs e.before.regMap c) s) :
    e.Tracks isa live marks' c (some ((Special.ret 0).exec address next s)) := by
  obtain ⟨stale, hstart⟩ := hin.start hreg
  refine tracks_through hreg rfl (translate_ret hname hplain)
    (by simp [retFront, NoTarget, Step.target]) fun text t hrun => ?_
  obtain ⟨text', t', hrun', -, hexec, hsim⟩ := ran_retFront hwords.toMoves hstart world e.offset
  cases hrun.symm.trans hrun'
  obtain ⟨c', hc'⟩ := hexec c
  obtain ⟨hsame, hvalue⟩ := hsim c c' hc'
  refine ⟨c', hc', hin.seg.steps hreg.map retFront_plain hrun hc', ?_, ?_⟩
  · rw [hvalue, State.sp, State.sp, hagree.gpr, hagree.mem]
  · exact (hsame.symm.agrees _).trans (hagree.noFlags.moveSp 8)

/-- JMP through a register or a memory operand. -/
theorem tracks_jump (hwords : isa.Words) (hreg : e.Regular world) (hname : e.line.name = "JMP")
    {arg : Expr} (hargs : e.line.args = [arg]) (hlegal : arg.Legal64)
    (hsafe : IndirectBranch.jmp.Safe world.resave e.offset e.before arg)
    (hin : InBlock marks e.before c) (hagree : State.Agrees now (abs e.before.regMap c) s) :
    e.Tracks isa live marks' c (some (s, .through (s.value (BitVec.ofNat 64 e.offset) arg))) := by
  obtain ⟨stale, hstart⟩ := hin.start hreg
  have hjump : e.line.name ∈ conditionalBranch ∨ e.line.name ∈ unconditionalBranch :=
    Or.inr (by rw [hname]; decide)
  have hsteps := translate_branch hjump hargs e.blockEnd e.canCheck
  rw [hname] at hsteps
  rw [hagree.value hlegal]
  rcases hlegal.cases with ⟨g, rfl⟩ | ⟨segm, ptr, rfl, hptr⟩
  · refine tracks_through hreg rfl (hsteps.trans (process_jmpReg g)) (by simp [NoTarget])
      fun text t hrun => ?_
    cases hrun
    exact ⟨c, rfl, hin.seg, (State.value_gpr _ _ _).symm, hagree.noFlags⟩
  · refine tracks_through hreg rfl (hsteps.trans (process_jmpMem segm ptr))
      (by simp [loadTarget, NoTarget, Step.target]) fun text t hrun => ?_
    obtain ⟨-, hfree, hintact, -⟩ := hsafe
    obtain ⟨-, hsim, hexec⟩ := ran_loadTarget hwords.toMoves hptr hstart.held (Or.inl rfl) hrun
    obtain ⟨c', hc'⟩ := hexec hfree c
    obtain ⟨hsame, hvalue⟩ := hsim c c' hc'
    refine ⟨c', hc', hin.seg.steps hreg.map (loadTarget_plain segm ptr) hrun hc', ?_, ?_⟩
    · rw [hvalue, (printedAt_eq_iff hptr hstart.heap).mpr hintact]
      rfl
    · exact (hsame.symm.agrees _).trans hagree.noFlags

/-- CALL pushes the address after it. -/
theorem tracks_callFront (hwords : isa.Words) (hreg : e.Regular world)
    (hsaves : IndirectBranch.SavesNext world.resave e.offset e.before.heap)
    (hin : InBlock marks e.before c) (hagree : State.Agrees now (abs e.before.regMap c) s)
    {text : List Asm} {t : TransState}
    (hrun : runSteps world e.offset callFront e.before = some (text, t)) :
    ∃ c', execText isa text c = some c' ∧ SegSynced t.regMap c' ∧
      State.Agrees now (abs t.regMap c') (s.push (BitVec.ofNat 64 e.offset)) := by
  obtain ⟨stale, hstart⟩ := hin.start hreg
  obtain ⟨-, -, hexec, hsim, -⟩ := ran_callFront hwords.toMoves hstart hrun
  obtain ⟨c', hc'⟩ := hexec c
  refine ⟨c', hc', hin.seg.steps hreg.map callFront_plain hrun hc', ?_⟩
  have hsame := hsim c c' hc'
  rw [returnAddress_eq hsaves] at hsame
  exact (hsame.symm.agrees _).trans (hagree.push _)

theorem tracks_callLoc (hwords : isa.Words) (hreg : e.Regular world) (hname : e.line.name = "CALL")
    (hplain : getInstName e.line = e.line.name) {a : Nat} (hargs : e.line.args = [.loc a])
    (hsaves : IndirectBranch.SavesNext world.resave e.offset e.before.heap)
    (hin : InBlock marks e.before c) (address : BitVec 64)
    (hagree : State.Agrees (live a) (abs e.before.regMap c) s) :
    e.Tracks isa live marks' c
      (some ((Special.call (.loc a)).exec address (BitVec.ofNat 64 e.offset) s)) :=
  tracks_block hreg (translate_call hname hplain hargs) (callFront_target _) fun _ _ hrun =>
    tracks_callFront hwords hreg hsaves hin hagree hrun

theorem tracks_callReg (hwords : isa.Words) (hreg : e.Regular world) (hname : e.line.name = "CALL")
    (hplain : getInstName e.line = e.line.name) {g : Gpr} (hargs : e.line.args = [.id (.gpr g .q)])
    (hsafe : IndirectBranch.call.Safe world.resave e.offset e.before (.id (.gpr g .q)))
    (hin : InBlock marks e.before c) (address : BitVec 64)
    (hagree : State.Agrees now (abs e.before.regMap c) s) :
    e.Tracks isa live marks' c
      (some ((Special.call (.id (.gpr g .q))).exec address (BitVec.ofNat 64 e.offset) s)) := by
  obtain ⟨hg, -, hsaves⟩ := hsafe
  refine tracks_through hreg rfl (translate_call hname hplain hargs) (callFront_target _)
    fun text t hrun => ?_
  obtain ⟨c', hc', hseg, hpushed⟩ := tracks_callFront hwords hreg hsaves hin hagree.noFlags hrun
  refine ⟨c', hc', hseg, ?_, hpushed⟩
  have hne : g ≠ .rsp := fun heq => hg (by rw [heq]; rfl)
  rw [State.value_gpr, ← hpushed.gpr, State.push_gpr hne]

/-- The stub of SYSCALL flushes nothing: the registers must be in their slots already. -/
theorem tracks_syscall (hreg : e.Regular world) (hname : e.line.name = "SYSCALL")
    (hplain : getInstName e.line = e.line.name) {address : Nat} (hoffset : e.offset = address + 2)
    (hsaved : ∀ v ∈ userRegs, v ∉ marks.dirty) (hin : InBlock marks e.before c) (next : BitVec 64)
    (hagree : State.Agrees now (abs e.before.regMap c) s) :
    e.Tracks isa live marks' c (some (Special.syscall.exec (BitVec.ofNat 64 address) next s)) := by
  have hrun := hreg.run
  rw [translate_stub hplain (Or.inl ⟨hname, rfl⟩)] at hrun
  have hpair : some ([.movabs .p14 (e.offset - 2)] ++ [.jump "JMP" .compSyscall], e.before) =
      some (e.text, e.after) := hrun
  obtain ⟨htext, -⟩ := Prod.mk.inj (Option.some.inj hpair)
  have haddress : e.offset - 2 = address := by omega
  rw [haddress] at htext
  have hsettled : Settled e.before.regMap c :=
    settled_of (fun v hv => hin.clean v hv (hsaved v hv)) hin.seg
  refine @Emitted.Tracks.out isa live marks' e c s _ (c.setReg .p14 (BitVec.ofNat 64 address))
    (fun next rest => ?_) ?_ ?_
  · rw [← htext]
    exact runs_jump (by simp [Asm.isJump]) rfl _
  · exact setReg_regs_self c .p14 _
  · rw [abs_blockInit_setReg rfl]
    exact ((same_blockInit hreg.map hsettled).symm.agrees _).trans hagree.noFlags

end SpecialLine

/-- The lines that are translated with their meaning. `marks` are those in front of the line: at SYSCALL
none of R12 to R15 may wait for a flush. -/
inductive Emitted.Supported (world : World) (marks : Marks) (e : Emitted) : Prop
  | special (sp : Special) (decodes : sp.Decodes e.line)
      (handled : sp.Handled world.resave e.offset e.line e.before)
      (plain : sp = .endbr64 → getInstName e.line = e.line.name)
      (saved : sp = .syscall → ∀ v ∈ userRegs, v ∉ marks.dirty)
  | branch (name : e.line.name ∈ conditionalBranch ∨ e.line.name ∈ unconditionalBranch) (a : Nat)
      (args : e.line.args = [.loc a])
  | jump (name : e.line.name = "JMP") (arg : Expr) (args : e.line.args = [arg]) (legal : arg.Legal64)
      (safe : IndirectBranch.jmp.Safe world.resave e.offset e.before arg)
  | ordinary (plain : e.line.IsOrdinary) (segment : NoSegment e.line.args) (ok : e.OrdinaryOk world)

/-- The address of the line itself. -/
def Emitted.address (e : Emitted) : Nat := e.offset - e.line.l

/-- `live` is right about the line: it has what the line reads, and what is live behind it and not
written by it; and where the line masks registers no flag is live. -/
structure Emitted.Flow (use : Access Line Flag) (live : Nat → Flag → Bool) (e : Emitted) : Prop where
  reads : ∀ f, use.reads e.line f = true → live e.address f = true
  targets : ∀ a ∈ e.line.targets e.address, ∀ f, live a f = true →
    live e.address f = true ∨ e.line.IsOrdinary ∧ use.writes e.line f = true
  masks : e.line.IsOrdinary → e.masks ≠ [] → ∀ f, live e.address f = false

section AnyLine

variable {isa : Isa} {regUse : RegUse} {use : Access Line Flag} {world : World}
  {live : Nat → Flag → Bool} {marks : Marks} {e : Emitted} {c : Machine} {s : State}

theorem Line.exec_special {line : Line} {sp : Special} (h : sp.Decodes line) (address : Nat)
    (s : State) : line.exec isa address s =
      some (sp.exec (BitVec.ofNat 64 address) (BitVec.ofNat 64 (address + line.l)) s) := by
  rw [Line.exec, if_pos h.special, h.line_special]
  rfl

theorem Line.targets_special {line : Line} {sp : Special} (h : sp.Decodes line) (address : Nat) :
    line.targets address = match sp with
      | .call (.loc a) => [a]
      | .call _ | .ret _ | .syscall | .invlpg => []
      | _ => [address + line.l] := by
  rw [Line.targets, if_pos h.special, h.line_special]
  cases sp with
  | call target => cases target <;> rfl
  | _ => rfl

theorem Emitted.Flow.special (h : e.Flow use live) {sp : Special} (hdec : sp.Decodes e.line)
    {a : Nat} (ha : a ∈ e.line.targets e.address) (f : Flag) (hf : live a f = true) :
    live e.address f = true :=
  (h.targets a ha f hf).resolve_right fun hordinary => hordinary.1.1 hdec.special

theorem tracks_special (hisa : isa.Respects regUse) (hwords : isa.Words) (hreg : e.Regular world)
    (hno : ∀ a ∈ e.line.args, a.NoTmp) {sp : Special} (hdec : sp.Decodes e.line)
    (hhandled : sp.Handled world.resave e.offset e.line e.before)
    (hendbr : sp = .endbr64 → getInstName e.line = e.line.name)
    (hsaved : sp = .syscall → ∀ v ∈ userRegs, v ∉ marks.dirty) (hin : InBlock marks e.before c)
    (haddress : e.address + e.line.l = e.offset) (hflow : e.Flow use live)
    (hagree : State.Agrees (live e.address) (abs e.before.regMap c) s) :
    e.Tracks isa live (stepsMarks regUse world e.offset (translate e.line e.blockEnd e.canCheck)
      e.before marks) c (e.line.exec isa e.address s) := by
  have hname := hdec.name
  have hform := hdec.form
  have htargets := Line.targets_special hdec e.address
  rw [Line.exec_special hdec, haddress]
  rw [haddress] at htargets
  have hagree' : ∀ a ∈ e.line.targets e.address, State.Agrees (live a) (abs e.before.regMap c) s :=
    fun a ha => hagree.mono (hflow.special hdec ha)
  rw [htargets] at hagree'
  cases sp with
  | nop =>
      refine tracks_nop hisa hreg hno ?_ (translate_nop hname) hin (hagree' _ (List.mem_singleton_self _))
      exact not_blockEnds_of_special (by rw [hname]; decide)
  | endbr64 =>
      refine tracks_nop hisa hreg hno ?_ (translate_endbr64 hname (hendbr rfl)) hin
        (hagree' _ (List.mem_singleton_self _))
      exact not_blockEnds_of_special (by rw [hname]; decide)
  | call target =>
      obtain ⟨hargs, hlegal | ⟨a, rfl⟩⟩ := hform
      · rcases hlegal.cases with ⟨g, rfl⟩ | ⟨segm, ptr, rfl, -⟩
        · exact tracks_callReg hwords hreg hname hhandled.1 hargs hhandled.2.1 hin _ hagree
        · cases hhandled.2.2
      · exact tracks_callLoc hwords hreg hname hhandled.1 hargs hhandled.2 hin _
          (hagree' _ (List.mem_singleton_self _))
  | ret release =>
      obtain ⟨hplain, rfl⟩ := hhandled
      exact tracks_ret hwords hreg hname hplain hin _ _ hagree
  | stack op arg =>
      exact tracks_stack hisa hwords hreg hno hname hhandled.1 hform.1 hform.2 hhandled.2 hin _
        (hagree' _ (List.mem_singleton_self _))
  | leave =>
      exact tracks_leave hisa hwords hreg hno hname hhandled hin _ (hagree' _ (List.mem_singleton_self _))
  | syscall =>
      have hoffset : e.offset = e.address + 2 := by rw [← haddress, hhandled.2]
      exact tracks_syscall hreg hname hhandled.1 hoffset (hsaved rfl) hin _ hagree
  | pushf => cases hhandled
  | popf => cases hhandled
  | invlpg => cases hhandled

theorem Line.exec_branch {line : Line}
    (hname : line.name ∈ conditionalBranch ∨ line.name ∈ unconditionalBranch) (address : Nat) (s : State) :
    line.exec isa address s = match line.args with
      | [.loc a] => some (s, if s.takes line.name then .block a else .next)
      | [target] => some (s, .through (s.value (BitVec.ofNat 64 (address + line.l)) target))
      | _ => none := by
  unfold Line.exec
  exact (if_neg (branch_not_special hname)).trans (if_pos hname)

theorem Emitted.Flow.branch (h : e.Flow use live)
    (hname : e.line.name ∈ conditionalBranch ∨ e.line.name ∈ unconditionalBranch)
    {a : Nat} (ha : a ∈ e.line.targets e.address) (f : Flag) (hf : live a f = true) :
    live e.address f = true :=
  (h.targets a ha f hf).resolve_right fun hordinary => hordinary.1.2 hname

/-- **One line.** Whatever the line of the program does, its text does the same. -/
theorem line_tracks (hisa : isa.Respects regUse) (hwords : isa.Words) (hobeys : isa.Obeys use)
    (hreg : e.Regular world) (hproper : e.line.Proper) (hsupported : e.Supported world marks)
    (hin : InBlock marks e.before c) (haddress : e.address + e.line.l = e.offset)
    (hflow : e.Flow use live)
    (hagree : State.Agrees (live e.address) (abs e.before.regMap c) s)
    (hclear : e.line.IsOrdinary → ∀ r ∈ e.masks, Clear s.regs r) :
    e.Tracks isa live (stepsMarks regUse world e.offset (translate e.line e.blockEnd e.canCheck)
      e.before marks) c (e.line.exec isa e.address s) := by
  cases hsupported with
  | special sp hdec hhandled hendbr hsaved =>
      exact tracks_special hisa hwords hreg hproper.noTmp hdec hhandled hendbr hsaved hin haddress hflow hagree
  | branch hname a hargs =>
      have htargets : e.line.targets e.address =
          if e.line.name ∈ conditionalBranch then [a, e.offset] else [a] := by
        rw [Line.targets, if_neg (branch_not_special hname), if_pos hname, hargs, haddress]
      have hblock : a ∈ e.line.targets e.address := by
        rw [htargets]
        split_ifs <;> exact List.mem_cons_self
      rw [Line.exec_branch hname, hargs]
      refine tracks_branch hisa hobeys hreg hname hargs hin hagree hflow.reads
        (hflow.branch hname hblock) fun hcond => hflow.branch hname ?_
      rw [htargets, if_pos hcond]
      exact List.mem_cons_of_mem _ (List.mem_singleton_self _)
  | jump hname arg hargs hlegal hsafe =>
      have hbranch : e.line.name ∈ conditionalBranch ∨ e.line.name ∈ unconditionalBranch :=
        Or.inr (by rw [hname]; decide)
      rw [Line.exec_branch hbranch, hargs, haddress]
      have htracks := @tracks_jump isa _ live _ (stepsMarks regUse world e.offset
        (translate e.line e.blockEnd e.canCheck) e.before marks) _ _ _ _ hwords hreg hname _ hargs
        hlegal hsafe hin hagree
      rcases hlegal.cases with ⟨g, rfl⟩ | ⟨segm, ptr, rfl, -⟩ <;> exact htracks
  | ordinary hplain hsegment hok =>
      rw [Line.exec, if_neg hplain.1, if_neg hplain.2, haddress]
      refine tracks_ordinary hisa hobeys hreg hproper hsegment hplain.1 hplain.2 hok hin hagree
        hflow.reads (fun f hf => ?_) (hflow.masks hplain) (hclear hplain)
      have hnext : e.offset ∈ e.line.targets e.address := by
        rw [Line.targets, if_neg hplain.1, if_neg hplain.2, haddress]
        exact List.mem_singleton_self _
      exact (hflow.targets _ hnext f hf).imp_right And.right

end AnyLine

end UserspaceBypass
