import UserspaceBypass.BlockExit
import UserspaceBypass.FileRun

/-! Control flow between emitted blocks. The text of a line is code without jumps, and behind it the
jump the line makes, if the translator handles the line. Running off the end of a block leads to the
next label of the file, which is the next key of the dictionary; that is the fall-through successor
only if the block has one and no other block starts inside it. -/

namespace UserspaceBypass

open StraightLine Layout

/-- The label of a target; what is no label is looked up in the ladder of the line. -/
def Expr.goal (offset : Nat) : Expr → Label
  | .loc a => .loc a
  | _ => .ij offset

def Line.goal (line : Line) (offset : Nat) : Label :=
  line.args.head?.elim (.ij offset) (Expr.goal offset)

/-- The jump of a line: the mnemonic that decides whether it is taken, and the label it goes to. -/
def Line.jump (line : Line) (offset : Nat) : Option (String × Label) :=
  if line.name = "CALL" then some ("JMP", line.goal offset)
  else if line.name ∈ conditionalBranch ∨ line.name ∈ unconditionalBranch then
    some (line.name, line.goal offset)
  else if line.name = "RET" then some ("JMP", .ij offset)
  else if line.name = "SYSCALL" then some ("JMP", .compSyscall)
  else if line.name = "INVLPG" then some ("JMP", .illInst)
  else none

/-- The text of a line is code without jumps, and behind it the jump of the line. -/
def Emitted.Jumps (e : Emitted) : Prop :=
  ∃ body, (∀ a ∈ body, a.isJump = false) ∧
    e.text = body ++ (e.line.jump e.offset).toList.map fun j => .jump j.1 j.2

/-- The text of a line without its jump. -/
def Emitted.body (e : Emitted) : List Asm := e.text.filter fun a => !a.isJump

/-- The targets `process_jump` knows. -/
def Expr.isTarget : Expr → Bool
  | .loc _ | .mem _ _ _ | .id _ => true
  | _ => false

/-- A jump the translator handles: no prefix shows in the name of a special instruction, and a target
is a label, or in a register or in memory. -/
structure Line.Handled (line : Line) : Prop where
  plain : line.name ∈ ["CALL", "RET", "SYSCALL", "INVLPG"] → getInstName line = line.name
  target : line.name = "CALL" ∨ line.name ∈ conditionalBranch ∨ line.name ∈ unconditionalBranch →
    ∃ e ∈ line.args.head?, e.isTarget = true

section Jumps

variable {world : World} {offset : Nat} {line : Line}

/-- The jump of a step. -/
def Step.jump (offset : Nat) : Step → Option (String × Label)
  | .jumpReg name _ => some (name, .ij offset)
  | .jumpLoc name address => some (name, .loc address)
  | .stub target => some ("JMP", target)
  | _ => none

theorem Step.target_eq (step : Step) (offset : Nat) :
    step.target offset = (step.jump offset).map Prod.snd := by
  cases step <;> rfl

theorem NoTarget.jump_eq_none {steps : List Step} (h : NoTarget offset steps) :
    ∀ step ∈ steps, step.jump offset = none := by
  intro step hstep
  have htarget := h step hstep
  rwa [step.target_eq, Option.map_eq_none_iff] at htarget

/-- Every step that jumps makes the jump of the line. -/
def StepsJump (line : Line) (offset : Nat) (steps : List Step) : Prop :=
  ∀ step ∈ steps, ∀ j, step.jump offset = some j → line.jump offset = some j

theorem NoTarget.stepsJump {steps : List Step} (h : NoTarget offset steps) :
    StepsJump line offset steps := by
  intro step hstep j hj
  rw [h.jump_eq_none step hstep] at hj
  cases hj

theorem processJump_jump {name : String} (e : Expr) :
    ∀ step ∈ processJump name e, ∀ j, step.jump offset = some j → j = (name, e.goal offset) := by
  cases e <;> simp [processJump, Step.jump, Expr.goal, eq_comm]

theorem firstArg_jump {name : String} :
    ∀ step ∈ firstArg line (processJump name), ∀ j, step.jump offset = some j →
      j = (name, line.goal offset) := by
  unfold firstArg Line.goal
  cases line.args with
  | nil => simp [Step.jump]
  | cons e rest => exact processJump_jump e

theorem Line.jump_call (h : line.name = "CALL") :
    line.jump offset = some ("JMP", line.goal offset) := if_pos h

theorem Line.jump_branch (h : line.name ∈ conditionalBranch ∨ line.name ∈ unconditionalBranch) :
    line.jump offset = some (line.name, line.goal offset) := by
  have hcall : line.name ≠ "CALL" := by
    intro hname
    rw [hname] at h
    exact absurd h (by decide)
  rw [Line.jump, if_neg hcall, if_pos h]

theorem Line.jump_ret (h : line.name = "RET") : line.jump offset = some ("JMP", .ij offset) := by
  simp [Line.jump, h, conditionalBranch, unconditionalBranch]

theorem Line.jump_syscall (h : line.name = "SYSCALL") :
    line.jump offset = some ("JMP", .compSyscall) := by
  simp [Line.jump, h, conditionalBranch, unconditionalBranch]

theorem Line.jump_invlpg (h : line.name = "INVLPG") :
    line.jump offset = some ("JMP", .illInst) := by
  simp [Line.jump, h, conditionalBranch, unconditionalBranch]

/-- What a jump says about its line. -/
theorem Line.jump_cases {name : String} {target : Label} (h : line.jump offset = some (name, target)) :
    (line.name = "CALL" ∨ line.name ∈ conditionalBranch ∨ line.name ∈ unconditionalBranch) ∧
        target = line.goal offset ∨
      line.name = "RET" ∧ target = .ij offset ∨ line.name = "SYSCALL" ∧ target = .compSyscall ∨
        line.name = "INVLPG" ∧ target = .illInst := by
  rw [Line.jump] at h
  split_ifs at h with hcall hbranch hret hsyscall hinvlpg <;>
    obtain ⟨-, rfl⟩ := Prod.mk.inj (Option.some.inj h)
  · exact Or.inl ⟨Or.inl hcall, rfl⟩
  · exact Or.inl ⟨Or.inr hbranch, rfl⟩
  · exact Or.inr (Or.inl ⟨hret, rfl⟩)
  · exact Or.inr (Or.inr (Or.inl ⟨hsyscall, rfl⟩))
  · exact Or.inr (Or.inr (Or.inr ⟨hinvlpg, rfl⟩))

theorem Line.goal_cases (line : Line) (offset : Nat) :
    (∃ a rest, line.args = .loc a :: rest ∧ line.goal offset = .loc a) ∨
      (∀ a rest, line.args ≠ .loc a :: rest) ∧ line.goal offset = .ij offset := by
  rw [Line.goal]
  cases line.args with
  | nil => exact Or.inr ⟨by simp, rfl⟩
  | cons e rest =>
      cases e with
      | loc a => exact Or.inl ⟨a, rest, rfl, rfl⟩
      | _ => exact Or.inr ⟨by simp, rfl⟩

/-- Whatever the translator emits, no line makes another jump than its own. -/
theorem translate_stepsJump (line : Line) (blockEnd canCheck : Bool) (offset : Nat) :
    StepsJump line offset (translate line blockEnd canCheck) := by
  obtain ⟨front, tail, heq, hfront, htail⟩ := translate_tail line blockEnd canCheck offset
  rw [heq]
  refine List.forall_mem_append.mpr ⟨hfront.stepsJump, ?_⟩
  cases htail with
  | none => simp
  | call hcall =>
      intro step hstep j hj
      rw [firstArg_jump step hstep j hj, Line.jump_call hcall]
  | branch hbranch =>
      intro step hstep j hj
      rw [firstArg_jump step hstep j hj, Line.jump_branch hbranch]
  | ret hret => simp [Step.jump, Line.jump_ret hret]
  | syscall hsyscall => simp [Step.jump, Line.jump_syscall hsyscall]
  | invlpg hinvlpg => simp [Step.jump, Line.jump_invlpg hinvlpg]

/-- A jump in the text of a list of steps belongs to one of them. -/
theorem runSteps_jump {steps : List Step} {t t' : TransState} {text : List Asm}
    (hm : MapInv t.regMap) (h : runSteps world offset steps t = some (text, t')) {name : String}
    {target : Label} (hjump : .jump name target ∈ text) :
    ∃ step ∈ steps, step.jump offset = some (name, target) := by
  induction steps generalizing t text with
  | nil =>
      cases h
      cases hjump
  | cons step steps ih =>
      obtain ⟨text₁, t₁, text₂, hstep, hrest, rfl⟩ := Trans.andThen_some h
      rcases List.mem_append.mp hjump with hjump | hjump
      · obtain ⟨before, after, rfl⟩ := List.append_of_mem hjump
        refine ⟨step, List.mem_cons_self, ?_⟩
        rcases Step.jump_cases hm hstep with ⟨r, src, rfl, rfl, -⟩ | ⟨a, rfl, rfl, -⟩ | ⟨rfl, rfl, -⟩
        · rfl
        · rfl
        · rfl
      · obtain ⟨step', hmem, htarget⟩ := ih (Step.mapInv hm hstep) hrest hjump
        exact ⟨step', List.mem_cons_of_mem _ hmem, htarget⟩

theorem noJump_of_noTarget {steps : List Step} {t t' : TransState} {text : List Asm}
    (hm : MapInv t.regMap) (h : NoTarget offset steps)
    (hrun : runSteps world offset steps t = some (text, t')) : ∀ a ∈ text, a.isJump = false := by
  intro a ha
  cases a with
  | jump name target =>
      obtain ⟨step, hstep, hjump⟩ := runSteps_jump hm hrun ha
      rw [h.jump_eq_none step hstep] at hjump
      cases hjump
  | _ => rfl

theorem branch_not_special {name : String}
    (h : name ∈ conditionalBranch ∨ name ∈ unconditionalBranch) : name ∉ specialInstruction := by
  have hnone : ∀ name ∈ conditionalBranch ++ unconditionalBranch, name ∉ specialInstruction := by
    decide
  exact hnone name (List.mem_append.mpr h)

/-- The steps of a line: none of them jumps, or the last one makes the jump of the line. -/
def JumpsLast (line : Line) (offset : Nat) (steps : List Step) : Prop :=
  ∃ front tail, steps = front ++ tail ∧ NoTarget offset front ∧
    tail.map (Step.jump offset) = (line.jump offset).toList.map some

theorem JumpsLast.append {front steps : List Step} (hfront : NoTarget offset front)
    (h : JumpsLast line offset steps) : JumpsLast line offset (front ++ steps) := by
  obtain ⟨front', tail, rfl, hfront', htail⟩ := h
  exact ⟨front ++ front', tail, (List.append_assoc ..).symm,
    List.forall_mem_append.mpr ⟨hfront, hfront'⟩, htail⟩

/-- A call or branch ends in what `process_jump` makes of its first argument. -/
theorem translate_firstArg (hname : line.name = "CALL" ∨ line.name ∈ conditionalBranch ∨
      line.name ∈ unconditionalBranch) (hplain : line.name = "CALL" → getInstName line = line.name)
    (blockEnd canCheck : Bool) (offset : Nat) : ∃ front name,
      translate line blockEnd canCheck = front ++ firstArg line (processJump name) ∧
        NoTarget offset front ∧ line.jump offset = some (name, line.goal offset) := by
  rcases hname with hcall | hbranch
  · refine ⟨.resolve .t2 :: .returnAddress :: processPush (.id (.tmp .t2)), "JMP", ?_, ?_,
      Line.jump_call hcall⟩
    · simp [translate, specialInstDispatch, specialInstruction, hplain hcall, hcall]
    · exact List.forall_mem_cons.mpr ⟨rfl, List.forall_mem_cons.mpr ⟨rfl, processPush_target _ _⟩⟩
  · refine ⟨[], line.name, ?_, by simp [NoTarget], Line.jump_branch hbranch⟩
    rw [translate, if_neg (branch_not_special hbranch), if_pos hbranch, List.nil_append]

/-- A line that ends in its jump is handled. -/
theorem Emitted.Jumps.handled {e : Emitted} (h : e.Jumps) (hm : MapInv e.before.regMap)
    (hrun : runSteps world e.offset (translate e.line e.blockEnd e.canCheck) e.before =
      some (e.text, e.after)) : e.line.Handled := by
  have hnot : (e.line.jump e.offset).isSome → ∀ steps,
      translate e.line e.blockEnd e.canCheck = steps → ¬NoTarget e.offset steps := by
    rintro hsome steps rfl hnone
    obtain ⟨j, hj⟩ := Option.isSome_iff_exists.mp hsome
    obtain ⟨body, -, htext⟩ := h
    rw [hj] at htext
    have hjump := noJump_of_noTarget hm hnone hrun (.jump j.1 j.2) (by rw [htext]; simp)
    cases hjump
  have hplain : e.line.name ∈ ["CALL", "RET", "SYSCALL", "INVLPG"] →
      getInstName e.line = e.line.name := by
    intro hname
    by_contra hplain
    have hspecial : ∀ name ∈ ["CALL", "RET", "SYSCALL", "INVLPG"],
        name ∈ specialInstruction ∧ name ≠ "NOP" := by decide
    have hsome : (e.line.jump e.offset).isSome := by
      simp only [List.mem_cons, List.not_mem_nil, or_false] at hname
      rcases hname with hname | hname | hname | hname
      · rw [Line.jump_call hname]; rfl
      · rw [Line.jump_ret hname]; rfl
      · rw [Line.jump_syscall hname]; rfl
      · rw [Line.jump_invlpg hname]; rfl
    obtain ⟨hmem, hnop⟩ := hspecial _ hname
    exact hnot hsome [] (translate_prefixed hmem hnop hplain _ _) (by simp [NoTarget])
  refine ⟨hplain, fun hname => ?_⟩
  obtain ⟨front, name, hsteps, hfront, hjump⟩ := translate_firstArg hname
    (fun hcall => hplain (by rw [hcall]; decide)) e.blockEnd e.canCheck e.offset
  cases hargs : e.line.args with
  | nil =>
      rw [hsteps, firstArg, hargs] at hrun
      obtain ⟨text₁, t₁, text₂, -, hraise, -⟩ := runSteps_append hrun
      cases hraise
  | cons arg rest =>
      refine ⟨arg, rfl, ?_⟩
      by_contra htarget
      have hnil : firstArg e.line (processJump name) = [] := by
        rw [firstArg, hargs]
        cases arg <;> first | rfl | exact absurd rfl htarget
      rw [hnil, List.append_nil] at hsteps
      exact hnot (by rw [hjump]; rfl) _ hsteps hfront

end Jumps

/-- The place of an emitted line in its block. -/
theorem translateLines_mem {world : World} {lines : List Line} {offset : Nat} {canCheck : List Bool}
    {t t' : TransState} {emitted : List Emitted}
    (h : translateLines world lines offset canCheck t = some (emitted, t')) {e : Emitted}
    (he : e ∈ emitted) : ∃ before after, lines = before ++ e.line :: after ∧
      e.offset = offset + (before.map Line.l).sum + e.line.l := by
  induction lines generalizing offset canCheck t emitted with
  | nil =>
      cases h
      cases he
  | cons line lines ih =>
      obtain ⟨heap, flag, text, after, rest, -, -, -, hrest, rfl⟩ := translateLines_cons h
      rcases List.mem_cons.mp he with rfl | he
      · exact ⟨[], lines, rfl, by simp⟩
      · obtain ⟨before, after, rfl, hoffset⟩ := ih hrest he
        refine ⟨line :: before, after, rfl, ?_⟩
        rw [hoffset, List.map_cons, List.sum_cons]
        omega

theorem translateLines_ends {world : World} {lines : List Line} {offset : Nat}
    {canCheck : List Bool} {t t' : TransState} {emitted : List Emitted}
    (h : translateLines world lines offset canCheck t = some (emitted, t')) :
    emitted.map (fun e => (e.offset, e.line)) = Block.ends offset lines := by
  induction lines generalizing offset canCheck t emitted with
  | nil =>
      cases h
      rfl
  | cons line lines ih =>
      obtain ⟨heap, flag, text, after, rest, -, -, -, hrest, rfl⟩ := translateLines_cons h
      rw [List.map_cons, ih hrest]
      rfl

section Run

variable {isa : Isa} {world : World} {next next' : Option Label} {own : List Emitted}

end Run

section File

variable {world : World} {dict : BlockDict} {emitted : List (Nat × List Emitted)}
  {last : TransState} {address : Nat} {block : Block}

/-- Every jump in the text of a block is the jump of one of its lines. -/
theorem translateBlock_jumps {t t' : TransState} {own : List Emitted}
    (hrun : translateBlock world address block t = some (own, t')) {name : String} {target : Label}
    (hjump : .jump name target ∈ emittedText own) :
    ∃ e ∈ own, e.line.jump e.offset = some (name, target) := by
  obtain ⟨e, he, htext⟩ := List.mem_flatMap.mp hjump
  have hm := (translateLines_mapInv mapInv_blockInit hrun).1 e he
  obtain ⟨step, hstep, hj⟩ := runSteps_jump hm ((translateLines_run hrun).1 e he) htext
  exact ⟨e, he, translate_stepsJump e.line e.blockEnd e.canCheck e.offset step hstep _ hj⟩

theorem address_lt_end (hmem : (address, block) ∈ dict.items)
    (hend : block.endFrom address ∈ block.bto) : address < block.endFrom address := by
  have hlines : block.lines ≠ [] := fun h => by
    rw [dict.undecoded _ hmem h] at hend
    cases hend
  obtain ⟨line, lines, heq⟩ := List.exists_cons_of_ne_nil hlines
  have hpos := dict.positive _ hmem line (heq ▸ List.mem_cons_self)
  rw [Block.endFrom, heq, List.map_cons, List.sum_cons]
  omega

/-- The code of a block in the file, and the label behind it: the next block, or what the file has
behind the blocks. -/
theorem jitFile_block
    (hrun : translateBlocks world (sortedBlocks dict.items) .start = some (emitted, last))
    (hmem : (address, block) ∈ dict.items) (entry : Nat) (jumpTable : List (Nat × List Nat))
    (callees : List Nat) :
    ∃ before own after t t', emitted = before ++ (address, own) :: after ∧
      translateBlock world address block t = some (own, t') ∧
      codeAt (jitFile entry emitted jumpTable callees) (.loc address) = emittedText own ∧
      nextLabel (jitFile entry emitted jumpTable callees) (.loc address) =
        ((after.map Prod.fst).map Label.loc ++ (makeJumpTable jumpTable ++
          makeCalleeTable callees ++ wrapperLabels).map Prod.fst).head? := by
  obtain ⟨before, own, after, t, t', heq, hown⟩ :=
    translateBlocks_split hrun (mem_sortedBlocks.mpr hmem)
  refine ⟨before, own, after, t, t', heq, hown, ?_⟩
  have hfresh : Label.loc address ∉ (before.map fun b => (Label.loc b.1, emittedText b.2)).map
      Prod.fst := by
    have hsorted := dict.sorted_keys
    rw [← translateBlocks_keys hrun, heq, List.map_append] at hsorted
    intro hin
    obtain ⟨b, hb, hlabel⟩ := List.mem_map.mp (List.map_map ▸ hin)
    have hlt := (List.pairwise_append.mp hsorted).2.2 b.1 (List.mem_map_of_mem hb) address (by simp)
    exact absurd (Label.loc.inj hlabel) (ne_of_lt hlt)
  have hfile : jitFile entry emitted jumpTable callees =
      [Asm.jump "JMP" (.loc entry)].map .code ++
        sections ((before.map fun b => (Label.loc b.1, emittedText b.2)) ++
          (.loc address, emittedText own) :: (after.map (fun b => (.loc b.1, emittedText b.2)) ++
            (makeJumpTable jumpTable ++ makeCalleeTable callees ++ wrapperLabels))) := by
    simp only [jitFile, heq, List.map_append, List.map_cons, List.append_assoc, List.cons_append]
  rw [hfile, codeAt_sections hfresh, nextLabel_sections hfresh, List.map_append, List.map_map,
    List.map_map]
  exact ⟨rfl, rfl⟩

/-- The fall-through successor stands behind its block if no block starts between them. -/
theorem nextLabel_iff
    (hrun : translateBlocks world (sortedBlocks dict.items) .start = some (emitted, last))
    (hmem : (address, block) ∈ dict.items) (hend : block.endFrom address ∈ block.bto) {entry : Nat}
    {jumpTable : List (Nat × List Nat)} {callees : List Nat} :
    nextLabel (jitFile entry emitted jumpTable callees) (.loc address) =
        some (.loc (block.endFrom address)) ↔
      ∀ k ∈ dict.keys, ¬(address < k ∧ k < block.endFrom address) := by
  obtain ⟨before, own, after, -, -, heq, -, -, hnext⟩ :=
    jitFile_block hrun hmem entry jumpTable callees
  have hkeys : (sortedBlocks dict.items).map Prod.fst =
      before.map Prod.fst ++ address :: after.map Prod.fst := by
    rw [← translateBlocks_keys hrun, heq, List.map_append, List.map_cons]
  have hsorted := dict.sorted_keys
  have hlt := address_lt_end hmem hend
  have hkey := dict.mem_sorted_keys.mpr (dict.closed _ hmem _ hend)
  simp only [← dict.mem_sorted_keys]
  rw [hkeys] at hsorted hkey ⊢
  have hhead : (after.map Prod.fst).head? = some (block.endFrom address) ↔
      ∀ k ∈ before.map Prod.fst ++ address :: after.map Prod.fst,
        ¬(address < k ∧ k < block.endFrom address) := by
    rw [head_after_iff hsorted]
    exact ⟨fun h => h.2.2, fun h => ⟨hkey, hlt, h⟩⟩
  rw [← hhead, hnext]
  cases hafter : after.map Prod.fst with
  | cons k rest => simp
  | nil =>
      -- the successor would be a key not above the address
      obtain ⟨-, -, hbefore⟩ := List.pairwise_append.mp hsorted
      rw [hafter] at hkey hbefore
      rcases List.mem_append.mp hkey with h | h
      · exact absurd (hbefore _ h address (by simp)) (lt_asymm hlt)
      · exact absurd (List.mem_singleton.mp h) (ne_of_gt hlt)

end File

end UserspaceBypass
