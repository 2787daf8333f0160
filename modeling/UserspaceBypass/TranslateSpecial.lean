import UserspaceBypass.TranslateNormal

/-! `special_inst.py` and `translation.py`: instructions that use the stack or leave the block. Their
handlers only string together calls of `process_normal`, `conflict_resolve` and `release_conflict`
with a few fixed lines, so each handler is the list of these calls, and running a list joins the
texts in order. -/

namespace UserspaceBypass

def specialInstruction : List String :=
  ["NOP", "CALL", "RET", "POP", "PUSH", "LEAVE", "PUSHF", "POPF", "ENDBR64", "SYSCALL", "INVLPG"]

/-- One call a handler makes. `moveStack` is `LEA RSP, [RSP + bytes]`, `returnAddress` the `MOVABS` of
the address after a CALL, `pushInt` the `MOV` of a pushed constant, which is read back from its
printed form and made again with 32 bits; `stub` puts the address of the line into R14 and jumps;
`raise` is an `IndexError` on missing arguments. -/
inductive Step where
  | normal (name : String) (args : List Expr) (canCheck : Bool)
  | moveStack (bytes : Int)
  | returnAddress
  | pushInt (n : ExprInt)
  | resolve (tmp : Tmp)
  | release (blockEnd : Bool)
  | releaseTmp
  | jumpReg (name : String) (r : ExprId)
  | jumpLoc (name : String) (address : Nat)
  | stub (target : Label)
  | nop
  | raise

def rsp : ExprId := .gpr .rsp .q

def rbp : ExprId := .gpr .rbp .q

/-- `ExprInt(value, size)` for a constant the translator makes. -/
def World.make (world : World) (n : ExprInt) (heap : Heap) : Heap :=
  if world.resave then Function.update heap n n.arg else heap

/-- `process_normal` with constants made for the call. -/
def processMade (world : World) (made : List ExprInt) (name : String) (args : List Expr)
    (offset : Nat) : Trans := fun t =>
  processNormal world name args offset false { t with heap := made.foldr world.make t.heap }

/-- The number a pushed constant prints as, with 32 bits. -/
def pushedInt (n : ExprInt) (heap : Heap) : ExprInt := ⟨heap n % 2 ^ 32, 32⟩

/-- The indirect branch of `process_jump`: flush, move the target to R14, jump to the ladder. -/
def jumpThrough (name : String) (r : ExprId) (offset : Nat) : Trans := fun t =>
  (reverseReg t.regMap r).map fun target =>
    (releaseConflict t.regMap true ++ (if target = "R14" then [] else [.moveTarget target]) ++
      [.jump name (.ij offset)], t)

/-- `offset` is the address after the line. -/
def Step.run (world : World) (offset : Nat) : Step → Trans
  | .normal name args canCheck => processNormal world name args offset canCheck
  | .moveStack bytes =>
      let d := makeMemDict 64 rsp bytes
      processMade world d.im.toList "LEA" [.id rsp, .dict d] offset
  | .returnAddress =>
      processMade world [⟨offset, 64⟩] "MOVABS" [.id (.tmp .t2), .int ⟨offset, 64⟩] offset
  | .pushInt n => fun t =>
      let arg := pushedInt n t.heap
      processMade world [arg] ("MOV" ++ im64Abs (.int arg))
        [.dict (makeMemDict arg.size rsp 0), .int arg] offset t
  | .resolve tmp => fun t =>
      (conflictResolve (world.order t.calls) t.regMap [tmp.virt] 0).map fun r =>
        (r.1, { t with regMap := r.2, calls := t.calls + 1 })
  | .release blockEnd => fun t => some (releaseConflict t.regMap blockEnd, t)
  | .releaseTmp => fun t => some ([], { t with regMap := releaseTmpConflict t.regMap })
  | .jumpReg name r => jumpThrough name r offset
  | .jumpLoc name address => fun t => some ([.jump name (.loc address)], t)
  | .stub target => fun t => some ([.movabs .p14 (offset - 2), .jump "JMP" target], t)
  | .nop => fun t => some ([.nop], t)
  | .raise => fun _ => none

def runSteps (world : World) (offset : Nat) : List Step → Trans
  | [] => fun t => some ([], t)
  | step :: steps => (step.run world offset).andThen (runSteps world offset steps)

def processPush (arg : Expr) : List Step :=
  match arg.size with
  | none => [.raise]
  | some size =>
      .moveStack (-(size / 8 : Nat)) ::
        match arg with
        | .mem _ _ _ =>
            [.resolve .t1, .normal "MOV" [.id (.tmp .t1), arg] false,
              .normal "MOV" [.dict (makeMemDict 64 rsp 0), .id (.tmp .t1)] false, .releaseTmp]
        | .int n => [.pushInt n]
        | _ => [.normal ("MOV" ++ im64Abs arg) [.dict (makeMemDict size rsp 0), arg] false]

def processPop (arg : Expr) : List Step :=
  match arg.size with
  | none => [.raise]
  | some size =>
      (match arg with
        | .mem _ _ _ =>
            [.resolve .t1, .normal "MOV" [.id (.tmp .t1), .dict (makeMemDict 64 rsp 0)] false,
              .normal "MOV" [arg, .id (.tmp .t1)] false, .releaseTmp]
        | _ => [.normal "MOV" [arg, .dict (makeMemDict 64 rsp 0)] false]) ++
        [.moveStack (size / 8 : Nat)]

/-- An argument that is neither label, memory nor register is reported and emits nothing. -/
def processJump (name : String) : Expr → List Step
  | .loc address => [.release true, .jumpLoc name address]
  | .mem size segm ptr =>
      [.resolve .t2, .normal "MOV" [.id (.tmp .t2), .mem size segm ptr] false,
        .jumpReg name (.tmp .t2)]
  | .id r => [.jumpReg name r]
  | _ => []

/-- `f(args[0])` -/
def firstArg (line : Line) (f : Expr → List Step) : List Step :=
  match line.args with
  | [] => [.raise]
  | arg :: _ => f arg

/-- The name with its prefixes is compared, so that a prefixed special instruction emits nothing;
NOP alone is recognised without them. -/
def specialInstDispatch (line : Line) (blockEnd : Bool) : List Step :=
  let name := getInstName line
  if name = "ENDBR64" ∨ line.name = "NOP" then [.nop, .release blockEnd]
  else if name = "CALL" then
    .resolve .t2 :: .returnAddress :: processPush (.id (.tmp .t2)) ++
      firstArg line (processJump "JMP")
  else if name = "PUSH" then firstArg line processPush ++ [.release blockEnd]
  else if name = "POP" then firstArg line processPop ++ [.release blockEnd]
  else if name = "RET" then
    .resolve .t2 :: processPop (.id (.tmp .t2)) ++ processJump "JMP" (.id (.tmp .t2))
  else if name = "LEAVE" then
    .normal "MOV" [.id rsp, .id rbp] false :: processPop (.id rbp) ++ [.release blockEnd]
  else if name = "SYSCALL" then [.stub .compSyscall]
  else if name = "INVLPG" then [.stub .illInst]
  else []

/-- `translate`: the calls for one line. -/
def translate (line : Line) (blockEnd canCheck : Bool) : List Step :=
  if line.name ∈ specialInstruction then specialInstDispatch line blockEnd
  else if line.name ∈ conditionalBranch ∨ line.name ∈ unconditionalBranch then
    firstArg line (processJump line.name)
  else [.normal (getInstName line) line.args canCheck, .release blockEnd]

theorem getInstName_blank (line : Line) :
    getInstName line = line.name ∨ ' ' ∈ (getInstName line).toList := by
  unfold getInstName
  dsimp only
  split_ifs <;> first | exact Or.inl rfl | exact Or.inr (by simp)

/-- A prefix shows in the name as a blank, so that a name without one is the mnemonic. -/
theorem name_of_getInstName {line : Line} {name : String} (h : getInstName line = name)
    (hname : name ∈ specialInstruction) : line.name = name := by
  have hblank : ∀ name ∈ specialInstruction, ' ' ∉ name.toList := by decide
  rcases getInstName_blank line with hplain | hprefixed
  · exact hplain.symm.trans h
  · rw [h] at hprefixed
    exact absurd hprefixed (hblank name hname)

/-- The forms a translated line can take, by its mnemonic. -/
theorem translate_named {line : Line} {blockEnd canCheck : Bool} {P : List Step → Prop}
    (nop : P [.nop, .release blockEnd])
    (call : line.name = "CALL" → P (.resolve .t2 :: .returnAddress ::
      processPush (.id (.tmp .t2)) ++ firstArg line (processJump "JMP")))
    (push : P (firstArg line processPush ++ [.release blockEnd]))
    (pop : P (firstArg line processPop ++ [.release blockEnd]))
    (ret : line.name = "RET" → P (.resolve .t2 :: processPop (.id (.tmp .t2)) ++
      processJump "JMP" (.id (.tmp .t2))))
    (leave : P (.normal "MOV" [.id rsp, .id rbp] false :: processPop (.id rbp) ++
      [.release blockEnd]))
    (syscall : line.name = "SYSCALL" → P [.stub .compSyscall])
    (invlpg : line.name = "INVLPG" → P [.stub .illInst])
    (dropped : P [])
    (jump : line.name ∈ conditionalBranch ∨ line.name ∈ unconditionalBranch →
      P (firstArg line (processJump line.name)))
    (normal : line.name ∉ specialInstruction →
      ¬(line.name ∈ conditionalBranch ∨ line.name ∈ unconditionalBranch) →
      P [.normal (getInstName line) line.args canCheck, .release blockEnd]) :
    P (translate line blockEnd canCheck) := by
  unfold translate
  split_ifs with hspecial hbranch
  · unfold specialInstDispatch
    dsimp only
    split_ifs with _ hcall _ _ hret _ hsyscall hinvlpg
    · exact nop
    · exact call (name_of_getInstName hcall (by decide))
    · exact push
    · exact pop
    · exact ret (name_of_getInstName hret (by decide))
    · exact leave
    · exact syscall (name_of_getInstName hsyscall (by decide))
    · exact invlpg (name_of_getInstName hinvlpg (by decide))
    · exact dropped
  · exact jump hbranch
  · exact normal hspecial hbranch

/-- The forms a translated line can take. -/
theorem translate_cases {line : Line} {blockEnd canCheck : Bool} {P : List Step → Prop}
    (nop : P [.nop, .release blockEnd])
    (call : P (.resolve .t2 :: .returnAddress :: processPush (.id (.tmp .t2)) ++
      firstArg line (processJump "JMP")))
    (push : P (firstArg line processPush ++ [.release blockEnd]))
    (pop : P (firstArg line processPop ++ [.release blockEnd]))
    (ret : P (.resolve .t2 :: processPop (.id (.tmp .t2)) ++ processJump "JMP" (.id (.tmp .t2))))
    (leave : P (.normal "MOV" [.id rsp, .id rbp] false :: processPop (.id rbp) ++
      [.release blockEnd]))
    (stub : ∀ target, P [.stub target])
    (dropped : P [])
    (jump : line.name ∈ conditionalBranch ∨ line.name ∈ unconditionalBranch →
      P (firstArg line (processJump line.name)))
    (normal : line.name ∉ specialInstruction →
      ¬(line.name ∈ conditionalBranch ∨ line.name ∈ unconditionalBranch) →
      P [.normal (getInstName line) line.args canCheck, .release blockEnd]) :
    P (translate line blockEnd canCheck) :=
  translate_named nop (fun _ => call) push pop (fun _ => ret) leave (fun _ => stub _)
    (fun _ => stub _) dropped jump normal

/-- A prefix that shows in the name makes the translator emit nothing. -/
theorem translate_prefixed {line : Line} (hspecial : line.name ∈ specialInstruction)
    (hnop : line.name ≠ "NOP") (hchanged : getInstName line ≠ line.name) (blockEnd canCheck : Bool) :
    translate line blockEnd canCheck = [] := by
  have hne : ∀ name ∈ specialInstruction, getInstName line ≠ name := by
    intro name hname heq
    exact hchanged (heq.trans (name_of_getInstName heq hname).symm)
  rw [translate, if_pos hspecial, specialInstDispatch]
  simp only [hne _ (by decide : "ENDBR64" ∈ specialInstruction), hnop, or_self, if_false,
    hne _ (by decide : "CALL" ∈ specialInstruction), hne _ (by decide : "PUSH" ∈ specialInstruction),
    hne _ (by decide : "POP" ∈ specialInstruction), hne _ (by decide : "RET" ∈ specialInstruction),
    hne _ (by decide : "LEAVE" ∈ specialInstruction),
    hne _ (by decide : "SYSCALL" ∈ specialInstruction),
    hne _ (by decide : "INVLPG" ∈ specialInstruction)]

/-- The label a step jumps to, if it does. -/
def Step.target (offset : Nat) : Step → Option Label
  | .jumpReg _ _ => some (.ij offset)
  | .jumpLoc _ address => some (.loc address)
  | .stub target => some target
  | _ => none

/-- None of the steps jumps. -/
abbrev NoTarget (offset : Nat) (steps : List Step) : Prop :=
  ∀ step ∈ steps, step.target offset = none

theorem processPush_target (offset : Nat) (e : Expr) : NoTarget offset (processPush e) := by
  cases e <;> simp [NoTarget, processPush, Expr.size, Step.target]

theorem processPop_target (offset : Nat) (e : Expr) : NoTarget offset (processPop e) := by
  cases e <;> simp [NoTarget, processPop, Expr.size, Step.target]

theorem firstArg_target {offset : Nat} {line : Line} {f : Expr → List Step}
    (h : ∀ e, NoTarget offset (f e)) : NoTarget offset (firstArg line f) := by
  unfold firstArg
  split
  · simp [NoTarget, Step.target]
  · exact h _

/-- What a line ends in that transfers control. -/
inductive TransferTail (line : Line) : List Step → Prop
  | none : TransferTail line []
  | call (name : line.name = "CALL") : TransferTail line (firstArg line (processJump "JMP"))
  | branch (name : line.name ∈ conditionalBranch ∨ line.name ∈ unconditionalBranch) :
      TransferTail line (firstArg line (processJump line.name))
  | ret (name : line.name = "RET") : TransferTail line [.jumpReg "JMP" (.tmp .t2)]
  | syscall (name : line.name = "SYSCALL") : TransferTail line [.stub .compSyscall]
  | invlpg (name : line.name = "INVLPG") : TransferTail line [.stub .illInst]

/-- Control is transferred only at the end. -/
def TransfersLast (line : Line) (offset : Nat) (steps : List Step) : Prop :=
  ∃ front tail, steps = front ++ tail ∧ NoTarget offset front ∧ TransferTail line tail

theorem translate_tail (line : Line) (blockEnd canCheck : Bool) (offset : Nat) :
    TransfersLast line offset (translate line blockEnd canCheck) := by
  have hrelease : NoTarget offset [.release blockEnd] := by simp [NoTarget, Step.target]
  have hplain : ∀ steps, NoTarget offset steps → TransfersLast line offset steps :=
    fun steps h => ⟨steps, [], (List.append_nil _).symm, h, .none⟩
  have hnil : NoTarget offset [] := by simp [NoTarget]
  apply translate_named (P := TransfersLast line offset)
  · exact hplain _ (List.forall_mem_cons.mpr ⟨rfl, hrelease⟩)
  · intro hcall
    refine ⟨_, _, rfl, ?_, .call hcall⟩
    exact List.forall_mem_cons.mpr ⟨rfl, List.forall_mem_cons.mpr ⟨rfl, processPush_target _ _⟩⟩
  · exact hplain _ (List.forall_mem_append.mpr ⟨firstArg_target (processPush_target _), hrelease⟩)
  · exact hplain _ (List.forall_mem_append.mpr ⟨firstArg_target (processPop_target _), hrelease⟩)
  · intro hret
    exact ⟨_, _, rfl, List.forall_mem_cons.mpr ⟨rfl, processPop_target _ _⟩, .ret hret⟩
  · exact hplain _ (List.forall_mem_cons.mpr
      ⟨rfl, List.forall_mem_append.mpr ⟨processPop_target _ _, hrelease⟩⟩)
  · exact fun hsyscall => ⟨[], _, rfl, hnil, .syscall hsyscall⟩
  · exact fun hinvlpg => ⟨[], _, rfl, hnil, .invlpg hinvlpg⟩
  · exact hplain _ hnil
  · exact fun hbranch => ⟨[], _, rfl, hnil, .branch hbranch⟩
  · exact fun _ _ => hplain _ (List.forall_mem_cons.mpr ⟨rfl, hrelease⟩)

end UserspaceBypass
