import UserspaceBypass.BlockDirty

/-! Ways out of a translated block. The next block starts from `block_init`, and the exit stub of
`wrapper.S` saves R12 to R15 from their slots, RSP from R13 and RBP from R12. So whatever the program
has in R12 to R15 must be in the slots when control leaves. A jump to a label, an indirect jump and a
last line that ends in `release_conflict` see to that; the stubs of SYSCALL and INVLPG, and a last
line that emits nothing, leave the slots as they are. -/

namespace UserspaceBypass

open StraightLine

/-- The machine `c'` outside the block holds, where the next block or the exit stub looks for them,
the values of the configuration `m`, `c` that control leaves from: each register of `written` in its
slot, RSP in R13 and RBP in R12. -/
structure Published (written : Virt → Prop) (m : RegMap) (c c' : Machine) : Prop where
  slot : ∀ v ∈ userRegs, written v → ∀ k, v.slot = some k → c'.frame k = virtValue m c v
  sp : c'.regs (.gpr .r13) = virtValue m c .sp
  bp : c'.regs (.gpr .r12) = virtValue m c .bp

/-- The jumps that come with a flush. -/
def Step.flushes : Step → Bool
  | .stub _ => false
  | _ => true

/-- The last line ends in `release_conflict`, or in a jump to a label after it. -/
def endsFlushed (steps : List Step) : Bool :=
  match steps.getLast? with
  | some (.release true) => true
  | some (.jumpLoc _ _) => true
  | _ => false

/-- Does running off the end of the block come with a flush? A block without lines has nothing to
flush. -/
def fallFlushes (emitted : List Emitted) : Bool :=
  emitted.getLast?.all fun e => endsFlushed (translate e.line e.blockEnd e.canCheck)

/-- Control leaves the block in a configuration `m`, `c₁`: at a jump, which is reached in `c₂`, or at
the end. The marks are those of the way there. -/
inductive LeavesAt (isa : Isa) (use : RegUse) (world : World) (emitted : List Emitted)
    (last : TransState) (c : Machine) : Bool → Marks → RegMap → Machine → Machine → Prop
  | jump {i : Nat} {e : Emitted} {c₀ c₁ c₂ : Machine} {steps rest : List Step} {step : Step}
      {text₁ before after : List Asm} {t₁ t₂ : TransState} {name : String} {target : Label}
      (line : emitted[i]? = some e)
      (run : execText isa ((emitted.take i).flatMap Emitted.text) c = some c₀)
      (split : translate e.line e.blockEnd e.canCheck = steps ++ step :: rest)
      (trans : runSteps world e.offset steps e.before = some (text₁, t₁))
      (exec : execText isa text₁ c₀ = some c₁)
      (emit : step.run world e.offset t₁ = some (before ++ .jump name target :: after, t₂))
      (reach : execText isa before c₁ = some c₂) :
      LeavesAt isa use world emitted last c step.flushes
        (stepsMarks use world e.offset steps e.before
          (linesMarks use world (emitted.take i) .start)) t₁.regMap c₁ c₂
  | fall {c' : Machine} (run : execText isa (emitted.flatMap Emitted.text) c = some c') :
      LeavesAt isa use world emitted last c (fallFlushes emitted)
        (linesMarks use world emitted .start) last.regMap c' c'

/-- What `Published` says about one slot, when the slots are not touched on the way out. -/
theorem slot_current_iff {m : RegMap} (hm : m.Injective) {c : Machine} {v : Virt} :
    (∀ k, v.slot = some k → c.frame k = virtValue m c v) ↔ Synced m c v := by
  constructor
  · intro h p k hp hk
    rw [h k hk, virtValue_resident hm c hp]
  · intro h k hk
    by_cases hres : m.Resident v
    · obtain ⟨p, hp⟩ := hres
      rw [virtValue_resident hm c hp, h p k hp hk]
    · rw [virtValue_absent c fun p hp => hres ⟨p, hp⟩, hk]
      rfl

/-- An exit that changes no slot, and none of R12 and R13. -/
theorem published_iff_synced {written : Virt → Prop} {m : RegMap} (hm : MapInv m) {c c' : Machine}
    (hframe : c'.frame = c.frame)
    (hregs : ∀ p : Phys, p ≠ .p14 → c'.regs (.gpr p.gpr) = c.regs (.gpr p.gpr)) :
    Published written m c c' ↔ ∀ v ∈ userRegs, written v → Synced m c v := by
  constructor
  · intro h v hv hw
    refine (slot_current_iff hm.inj).mp fun k hk => ?_
    rw [← hframe]
    exact h.slot v hv hw k hk
  · intro h
    refine ⟨fun v hv hw k hk => ?_, ?_, ?_⟩
    · rw [hframe]
      exact (slot_current_iff hm.inj).mpr (h v hv hw) k hk
    · rw [virtValue_resident hm.inj c hm.sp]
      exact hregs .p13 (by decide)
    · rw [virtValue_resident hm.inj c hm.bp]
      exact hregs .p12 (by decide)

variable {isa : Isa} {use : RegUse} {world : World} {offset : Nat}

/-- The only element with a property stands last. -/
theorem append_singleton_split {α : Type*} {p : α → Bool} {l before after : List α} {b x : α}
    (hl : ∀ y ∈ l, p y = false) (hx : p x = true) (h : l ++ [b] = before ++ x :: after) :
    before = l ∧ x = b := by
  induction l generalizing before with
  | nil =>
      rcases List.cons_eq_append_iff.mp h with ⟨rfl, hcons⟩ | ⟨rest, -, hrest⟩
      · exact ⟨rfl, (List.cons.inj hcons).1⟩
      · simp at hrest
  | cons y l ih =>
      rcases List.cons_eq_append_iff.mp h with ⟨rfl, hcons⟩ | ⟨rest, rfl, hrest⟩
      · obtain ⟨rfl, -⟩ := List.cons.inj hcons
        rw [hl x List.mem_cons_self] at hx
        cases hx
      · obtain ⟨rfl, hb⟩ := ih (fun z hz => hl z (List.mem_cons_of_mem _ hz)) hrest
        exact ⟨rfl, hb⟩

def Step.isLabelJump : Step → Bool
  | .jumpLoc _ _ => true
  | _ => false

theorem NoTarget.isLabelJump {steps : List Step} (h : NoTarget 0 steps) :
    ∀ step ∈ steps, step.isLabelJump = false := by
  intro step hstep
  have htarget := h step hstep
  cases step <;> first | rfl | cases htarget

/-- A line jumps to a label only as the last thing it does, and right after a flush. -/
def LabelLast (steps : List Step) : Prop :=
  (∀ step ∈ steps, step.isLabelJump = false) ∨ ∃ front name address,
    steps = front ++ [.release true, .jumpLoc name address] ∧
      ∀ step ∈ front, step.isLabelJump = false

theorem processJump_labelLast (name : String) (e : Expr) : LabelLast (processJump name e) := by
  cases e with
  | loc address => exact Or.inr ⟨[], name, address, rfl, by simp⟩
  | _ => exact Or.inl (by simp [processJump, Step.isLabelJump])

theorem firstArg_labelLast {line : Line} {f : Expr → List Step} (h : ∀ e, LabelLast (f e)) :
    LabelLast (firstArg line f) := by
  unfold firstArg
  split
  · exact Or.inl (by simp [Step.isLabelJump])
  · exact h _

theorem translate_labelLast (line : Line) (blockEnd canCheck : Bool) :
    LabelLast (translate line blockEnd canCheck) := by
  obtain ⟨front, tail, heq, hfront, htail⟩ := translate_tail line blockEnd canCheck 0
  have hlast : LabelLast tail := by
    cases htail with
    | call _ => exact firstArg_labelLast (processJump_labelLast _)
    | branch _ => exact firstArg_labelLast (processJump_labelLast _)
    | _ => exact Or.inl (by simp [Step.isLabelJump])
  rw [heq]
  rcases hlast with hno | ⟨front', name, address, rfl, hfront'⟩
  · exact Or.inl (List.forall_mem_append.mpr ⟨hfront.isLabelJump, hno⟩)
  · exact Or.inr ⟨front ++ front', name, address, (List.append_assoc ..).symm,
      List.forall_mem_append.mpr ⟨hfront.isLabelJump, hfront'⟩⟩

/-- A call of `process_normal` does not leave the block. -/
theorem Step.noJump_of_call {step : Step} {t t' : TransState} {text : List Asm} {call : Call}
    (hcall : step.call world offset t.heap = some call) (hm : MapInv t.regMap)
    (h : step.run world offset t = some (text, t')) : ∀ a ∈ text, a.isJump = false := by
  obtain ⟨heap, ⟨st⟩⟩ := Step.stages hcall hm h
  obtain ⟨htext, hbefore, hafter⟩ := st.around_inst
  rw [htext]
  refine List.forall_mem_append.mpr ⟨fun a ha => isJump_of_isMove (hbefore a ha), ?_⟩
  exact List.forall_mem_cons.mpr ⟨rfl, fun a ha => isJump_of_isMove (hafter a ha)⟩

/-- The steps that can leave the block, with what they emit in front of the jump. -/
theorem Step.jump_cases {step : Step} {t t' : TransState} {before after : List Asm} {name : String}
    {target : Label} (hm : MapInv t.regMap)
    (h : step.run world offset t = some (before ++ .jump name target :: after, t')) :
    (∃ r src, step = .jumpReg name r ∧ target = .ij offset ∧
      before = releaseConflict t.regMap true ++ if src = "R14" then [] else [.moveTarget src]) ∨
    (∃ address, step = .jumpLoc name address ∧ target = .loc address ∧ before = []) ∨
    step = .stub target ∧ name = "JMP" ∧ before = [.movabs .p14 (offset - 2)] := by
  have hmem : Asm.jump name target ∈ before ++ .jump name target :: after := by simp
  cases hcall : step.call world offset t.heap with
  | some call => exact absurd (Step.noJump_of_call hcall hm h _ hmem) (by simp [Asm.isJump])
  | none =>
      cases step with
      | jumpReg n r =>
          obtain ⟨src, -, heq⟩ := Option.map_eq_some_iff.mp h
          obtain ⟨htext, -⟩ := Prod.mk.inj heq
          have hno : ∀ a ∈ releaseConflict t.regMap true ++
              (if src = "R14" then [] else [.moveTarget src]), a.isJump = false := by
            refine List.forall_mem_append.mpr
              ⟨fun a ha => isJump_of_isMove (releaseConflict_isMove _ _ a ha), ?_⟩
            split_ifs <;> simp [Asm.isJump]
          obtain ⟨hbefore, hjump⟩ := append_singleton_split hno rfl htext
          obtain ⟨rfl, htarget⟩ := Asm.jump.inj hjump
          exact Or.inl ⟨r, src, rfl, htarget, hbefore⟩
      | jumpLoc n address =>
          obtain ⟨htext, -⟩ := Prod.mk.inj (Option.some.inj h)
          obtain ⟨hbefore, hjump⟩ :=
            append_singleton_split (p := Asm.isJump) (l := []) (by simp) rfl htext
          obtain ⟨rfl, htarget⟩ := Asm.jump.inj hjump
          exact Or.inr (Or.inl ⟨address, rfl, htarget, hbefore⟩)
      | stub stub =>
          obtain ⟨htext, -⟩ := Prod.mk.inj (Option.some.inj h)
          obtain ⟨hbefore, hjump⟩ :=
            append_singleton_split (p := Asm.isJump) (l := [_]) (by simp [Asm.isJump]) rfl htext
          obtain ⟨hname, htarget⟩ := Asm.jump.inj hjump
          exact Or.inr (Or.inr ⟨congrArg Step.stub htarget.symm, hname, hbefore⟩)
      | resolve tmp =>
          obtain ⟨r, hres, heq⟩ := Option.map_eq_some_iff.mp h
          rw [← (Prod.mk.inj heq).1] at hmem
          exact absurd (isJump_of_isMove (resolveLoop_isMove hres _ hmem)) (by simp [Asm.isJump])
      | release blockEnd =>
          rw [← (Prod.mk.inj (Option.some.inj h)).1] at hmem
          exact absurd (isJump_of_isMove (releaseConflict_isMove _ _ _ hmem)) (by simp [Asm.isJump])
      | releaseTmp =>
          rw [← (Prod.mk.inj (Option.some.inj h)).1] at hmem
          cases hmem
      | nop =>
          rw [← (Prod.mk.inj (Option.some.inj h)).1] at hmem
          simp at hmem
      | raise => cases h
      | _ => cases hcall

/-- An indirect jump flushes, then overwrites R14. -/
theorem published_jumpReg {written : Virt → Prop} {m : RegMap} (hm : MapInv m) {src : String}
    {c c' : Machine} (h : execText isa (releaseConflict m true ++
      if src = "R14" then [] else [.moveTarget src]) c = some c') : Published written m c c' := by
  obtain ⟨c₁, hrelease, hmove⟩ := runAll_append_some.mp h
  obtain ⟨_, hexec, hregs, -, hin, -⟩ := exec_releaseConflict isa hm.inj c
  obtain rfl := Option.some.inj (hrelease.symm.trans hexec)
  have htarget : c'.frame = c₁.frame ∧
      ∀ p : Phys, p ≠ .p14 → c'.regs (.gpr p.gpr) = c₁.regs (.gpr p.gpr) := by
    split_ifs at hmove
    · cases hmove
      exact ⟨rfl, fun _ _ => rfl⟩
    · rw [runAll_singleton] at hmove
      obtain ⟨g, -, rfl⟩ := Option.map_eq_some_iff.mp hmove
      refine ⟨rfl, fun p hp => Function.update_of_ne (fun heq => hp ?_) _ _⟩
      exact Phys.gpr_injective (Family.gpr.inj heq)
  refine ⟨fun v hv _ k hk => ?_, ?_, ?_⟩
  · rw [htarget.1]
    exact hin v k hk (userRegs_flushed hv)
  · rw [virtValue_resident hm.inj c hm.sp, ← hregs]
    exact htarget.2 .p13 (by decide)
  · rw [virtValue_resident hm.inj c hm.bp, ← hregs]
    exact htarget.2 .p12 (by decide)

/-- After the flush that ends a line, all of R12 to R15 agree with their slots. -/
theorem synced_of_flush {front : List Step} {t t' : TransState} {text : List Asm}
    (hm : MapInv t.regMap) (hrun : runSteps world offset (front ++ [.release true]) t = some (text, t'))
    {c c' : Machine} (hexec : execText isa text c = some c') :
    ∀ v ∈ userRegs, Synced t'.regMap c' v := by
  obtain ⟨text₁, t₁, text₂, hfront, hrelease, rfl⟩ := runSteps_append hrun
  obtain ⟨c₁, -, hexec₂⟩ := runAll_append_some.mp hexec
  cases runSteps_singleton hrelease
  exact fun v hv => synced_of_release (runSteps_mapInv hm hfront).inj hexec₂ hv

theorem synced_of_endsFlushed {line : Line} {blockEnd canCheck : Bool} {t t' : TransState}
    {text : List Asm} (hm : MapInv t.regMap)
    (hends : endsFlushed (translate line blockEnd canCheck) = true)
    (hrun : runSteps world offset (translate line blockEnd canCheck) t = some (text, t'))
    {c c' : Machine} (hexec : execText isa text c = some c') :
    ∀ v ∈ userRegs, Synced t'.regMap c' v := by
  have hlabel := translate_labelLast line blockEnd canCheck
  revert hends hrun hlabel
  generalize translate line blockEnd canCheck = steps
  intro hends hrun hlabel
  unfold endsFlushed at hends
  split at hends
  · rename_i hlast
    obtain ⟨front, rfl⟩ := List.getLast?_eq_some_iff.mp hlast
    exact synced_of_flush hm hrun hexec
  · rename_i name address hlast
    rcases hlabel with hno | ⟨front, name', address', rfl, -⟩
    · exact absurd (hno _ (List.mem_of_getLast? hlast)) (by simp [Step.isLabelJump])
    · rw [List.append_cons] at hrun
      obtain ⟨text₁, t₁, text₂, hfront, hjump, rfl⟩ := runSteps_append hrun
      obtain ⟨c₁, hexec₁, hexec₂⟩ := runAll_append_some.mp hexec
      cases runSteps_singleton hjump
      rw [runAll_singleton, Asm.exec] at hexec₂
      split_ifs at hexec₂
      cases hexec₂
      exact synced_of_flush hm hfront hexec₁
  · cases hends

theorem synced_of_fall {address : Nat} {block : Block} {t last : TransState}
    {emitted : List Emitted} (hrun : translateBlock world address block t = some (emitted, last))
    {c c' : Machine} (hexec : execText isa (emitted.flatMap Emitted.text) c = some c')
    (hflush : fallFlushes emitted = true) : ∀ v ∈ userRegs, Synced last.regMap c' v := by
  obtain ⟨hlines, hlast⟩ := translateLines_run hrun
  obtain ⟨hmaps, -⟩ := translateLines_mapInv mapInv_blockInit hrun
  rcases List.eq_nil_or_concat emitted with rfl | ⟨front, e, rfl⟩
  · rw [← hlast]
    exact synced_blockInit c'
  · simp only [fallFlushes, List.concat_eq_append, List.getLast?_concat, Option.map_some,
      Option.getD_some, Option.all_some] at hflush hlast
    rw [List.concat_eq_append] at hlines hmaps hexec
    rw [List.flatMap_append, List.flatMap_singleton] at hexec
    obtain ⟨c₁, -, hexec₂⟩ := runAll_append_some.mp hexec
    have he : e ∈ front ++ [e] := by simp
    rw [← hlast]
    exact synced_of_endsFlushed (hmaps e he) hflush (hlines e he) hexec₂

/-- Wherever control leaves a translated block, RSP and RBP are in R13 and R12. Registers among R12 to
R15 are in their slots exactly if this exit comes with a flush, or each of them agrees with its slot
already. -/
theorem published_iff_flushed_or_synced {address : Nat} {block : Block} {t last : TransState}
    {emitted : List Emitted} (hrun : translateBlock world address block t = some (emitted, last))
    {c c₁ c₂ : Machine} {flushes : Bool} {marks : Marks} {m : RegMap}
    (hexit : LeavesAt isa use world emitted last c flushes marks m c₁ c₂) (written : Virt → Prop) :
    Published written m c₁ c₂ ↔
      flushes = true ∨ ∀ v ∈ userRegs, written v → Synced m c₁ v := by
  obtain ⟨hmaps, hlast⟩ := translateLines_mapInv mapInv_blockInit hrun
  cases hexit with
  | fall hexec =>
      rw [published_iff_synced hlast rfl fun _ _ => rfl]
      refine ⟨Or.inr, fun h => h.elim (fun hflush v hv _ => ?_) id⟩
      exact synced_of_fall hrun hexec hflush v hv
  | @jump i e _ _ _ _ _ _ _ _ _ _ _ _ _ line run split trans exec emit reach =>
      have hbefore := hmaps _ (List.mem_of_getElem? line)
      have hm := runSteps_mapInv hbefore trans
      rcases Step.jump_cases hm emit with
        ⟨r, src, rfl, -, rfl⟩ | ⟨a, rfl, -, rfl⟩ | ⟨rfl, -, rfl⟩
      · exact iff_of_true (published_jumpReg hm reach) (Or.inl rfl)
      · cases reach
        rw [published_iff_synced hm rfl fun _ _ => rfl]
        refine iff_of_true (fun v hv _ => ?_) (Or.inl rfl)
        rcases translate_labelLast _ _ _ with hno | ⟨front, n', a', heq, hfront⟩
        · rw [split] at hno
          exact absurd (hno _ (List.mem_append_right _ List.mem_cons_self)) (by simp [Step.isLabelJump])
        · rw [heq, List.append_cons] at split
          have hall : ∀ step ∈ front ++ [.release true], step.isLabelJump = false :=
            List.forall_mem_append.mpr ⟨hfront, by simp [Step.isLabelJump]⟩
          obtain ⟨rfl, -⟩ := append_singleton_split hall rfl split
          exact synced_of_flush hbefore trans exec v hv
      · cases reach
        have hframe : (c₁.setReg .p14 (BitVec.ofNat 64 (e.offset - 2))).frame = c₁.frame := rfl
        refine (published_iff_synced hm hframe fun p hp => ?_).trans
          ⟨Or.inr, fun h => h.resolve_left (by simp [Step.flushes])⟩
        refine Function.update_of_ne (fun heq => hp ?_) _ _
        exact Phys.gpr_injective (Family.gpr.inj heq)

theorem LeavesAt.clean (hisa : isa.Respects use) {address : Nat} {block : Block}
    {t last : TransState} {emitted : List Emitted}
    (hrun : translateBlock world address block t = some (emitted, last))
    {c c₁ c₂ : Machine} {flushes : Bool} {marks : Marks} {m : RegMap}
    (hexit : LeavesAt isa use world emitted last c flushes marks m c₁ c₂) : Clean marks m c₁ := by
  obtain ⟨hmaps, -⟩ := translateLines_mapInv mapInv_blockInit hrun
  obtain ⟨hfront, hlast⟩ := Clean.lines hisa mapInv_blockInit (clean_start c) hrun
  cases hexit with
  | fall hexec => exact hlast _ hexec
  | jump line run split trans exec emit reach =>
      have hbefore := hmaps _ (List.mem_of_getElem? line)
      exact (hfront _ _ _ line run).steps hisa hbefore trans exec

/-- **Ways out of a block.** In every run of a translated block, wherever control leaves it, the
registers among R12 to R15 that the block has written are in their slots, RSP is in R13 and RBP in
R12, provided that the exit comes with a flush or none of the written registers is dirty there. -/
theorem block_exit_publishes (hisa : isa.Respects use) {address : Nat} {block : Block}
    {t last : TransState} {emitted : List Emitted}
    (hrun : translateBlock world address block t = some (emitted, last))
    {c c₁ c₂ : Machine} {flushes : Bool} {marks : Marks} {m : RegMap}
    (hexit : LeavesAt isa use world emitted last c flushes marks m c₁ c₂)
    (hsaved : flushes = true ∨ ∀ v ∈ userRegs, v ∈ marks.written → v ∉ marks.dirty) :
    Published (· ∈ marks.written) m c₁ c₂ := by
  refine (published_iff_flushed_or_synced hrun hexit _).mpr (hsaved.imp_right fun hclean v hv hw => ?_)
  exact hexit.clean hisa hrun v hv (hclean v hv hw)

/-- An instruction set in which only a 64-bit move between registers does anything. -/
def copyIsa : Isa where
  exec name operands _ env :=
    match name, operands with
    | "MOV", [.reg 64 _, .reg 64 value] => some ⟨[some value], fun _ => none, env⟩
    | _, _ => some ⟨[], fun _ => none, env⟩
  shiftFlags _ _ flags := flags

/-- The move writes its first operand. -/
def copyUse : RegUse where
  operand name k := name = "MOV" && k = 0
  hidden _ _ := false

theorem copyIsa_respects : copyIsa.Respects copyUse := by
  constructor
  · intro name operands hidden env e he k value hk
    unfold copyIsa at he
    dsimp only at he
    split at he <;> cases he
    · cases k with
      | zero => rfl
      | succ k => simp at hk
    · simp at hk
  · intro name operands hidden env e he g value hg
    unfold copyIsa at he
    dsimp only at he
    split at he <;> cases he <;> cases hg

/-- `MOV dst, src` -/
def movReg (dst src : Gpr) : Line :=
  { name := "MOV", args := [.id (.gpr dst .q), .id (.gpr src .q)], l := 3 }

def syscallLine : Line := { name := "SYSCALL", args := [], l := 2 }

/-- RAX is 5, everything else 0. -/
def raxMachine : Machine where
  regs f := if f = .gpr .rax then 5 else 0
  env := { flags := fun _ => false, mem := fun _ => 0, vec := fun _ => 0 }
  frame _ := 0

/-- The map with R15 resident. -/
def r15Resident : RegMap := Function.update blockInit .p15 (some .r15)

/-- The code of `MOV R15, RAX`, `SYSCALL`. -/
def r15Syscall : List Emitted :=
  [⟨movReg .r15 .rax, 0x401003, false, false, .start,
      [.load .p15 .r15, .inst "MOV" [.reg (.gpr .r15 .q), .reg (.gpr .rax .q)]],
      ⟨r15Resident, [], .fresh, 1⟩⟩,
    ⟨syscallLine, 0x401005, true, false, ⟨r15Resident, [], .fresh, 1⟩,
      [.movabs .p14 0x401003, .jump "JMP" .compSyscall], ⟨r15Resident, [], .fresh, 1⟩⟩]

theorem translate_r15Syscall :
    translateBlock .standard 0x401000
      ⟨[movReg .r15 .rax, syscallLine], []⟩ .start =
        some (r15Syscall, ⟨r15Resident, [], .fresh, 1⟩) := by
  have hflags : checkFlagDefUse [movReg .r15 .rax, syscallLine] = [false, false] := by
    decide
  rw [translateBlock, hflags]
  exact translateLines_step rfl rfl rfl (translateLines_step rfl rfl rfl rfl)

/-- R15 is written and then SYSCALL leaves: the exit stub finds the value from before the block. -/
theorem syscall_exit_loses_r15 :
    ¬∀ emitted last flushes marks m c₁ c₂, translateBlock .standard 0x401000
        ⟨[movReg .r15 .rax, syscallLine], []⟩ .start = some (emitted, last) →
      LeavesAt copyIsa copyUse .standard emitted last raxMachine flushes marks m
        c₁ c₂ → Published (· ∈ marks.written) m c₁ c₂ := by
  intro h
  have hrun : ∃ c₁, execText copyIsa ((r15Syscall.take 1).flatMap Emitted.text) raxMachine =
      some c₁ ∧ c₁.frame 10 ≠ virtValue r15Resident c₁ .r15 := ⟨_, rfl, by decide⟩
  obtain ⟨c₁, hc₁, hstale⟩ := hrun
  have hline : r15Syscall[1]? = r15Syscall.getLast? := rfl
  have hsteps : translate syscallLine true false = [] ++ [.stub .compSyscall] := rfl
  have hemit : (Step.stub .compSyscall).run .standard 0x401005
      ⟨r15Resident, [], .fresh, 1⟩ = some ([.movabs .p14 0x401003] ++ [.jump "JMP" .compSyscall],
        ⟨r15Resident, [], .fresh, 1⟩) := rfl
  have hpublished :=
    h _ _ _ _ _ _ _ translate_r15Syscall (.jump hline hc₁ hsteps rfl rfl hemit rfl)
  have hwritten : .r15 ∈ (linesMarks copyUse .standard (r15Syscall.take 1)
    .start).written := by decide +kernel
  exact hstale (hpublished.slot .r15 (by decide) hwritten 10 rfl)

/-- The code of `MOV R15, RAX` alone. -/
def r15Fall : List Emitted :=
  [⟨movReg .r15 .rax, 0x401003, true, false, .start, [.load .p15 .r15,
    .inst "MOV" [.reg (.gpr .r15 .q), .reg (.gpr .rax .q)], .store (some .r15) .p15],
    ⟨r15Resident, [], .fresh, 1⟩⟩]

/-- The same move at the end of a block that falls through is published. -/
theorem block_exit_publishes_r15 :
    ∃ c' marks, translateBlock .standard 0x401000 ⟨[movReg .r15 .rax], []⟩ .start =
        some (r15Fall, ⟨r15Resident, [], .fresh, 1⟩) ∧
      LeavesAt copyIsa copyUse .standard r15Fall ⟨r15Resident, [], .fresh, 1⟩
        raxMachine true marks r15Resident c' c' ∧
      .r15 ∈ marks.written ∧ Published (· ∈ marks.written) r15Resident c' c' := by
  have hflags : checkFlagDefUse [movReg .r15 .rax] = [false] := by
    decide
  have hrun : translateBlock .standard 0x401000 ⟨[movReg .r15 .rax], []⟩ .start =
      some (r15Fall, ⟨r15Resident, [], .fresh, 1⟩) := by
    rw [translateBlock, hflags]
    exact translateLines_step rfl rfl rfl rfl
  obtain ⟨c', hexec⟩ : ∃ c', execText copyIsa (r15Fall.flatMap Emitted.text) raxMachine =
    some c' := ⟨_, rfl⟩
  have hexit : LeavesAt copyIsa copyUse .standard r15Fall
      ⟨r15Resident, [], .fresh, 1⟩ raxMachine true
      (linesMarks copyUse .standard r15Fall .start) r15Resident c' c' :=
    .fall hexec
  exact ⟨c', _, hrun, hexit, by decide +kernel,
    block_exit_publishes copyIsa_respects hrun hexit (Or.inl rfl)⟩

end UserspaceBypass
