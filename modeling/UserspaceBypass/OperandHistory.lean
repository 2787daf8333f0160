import UserspaceBypass.OperandMeaning
import UserspaceBypass.SimulateNormal
import UserspaceBypass.TranslateBlock

/-! Operands over a whole run. A constant that some line used as an odd scale stays changed for every
later line, so what a line prints depends on the lines before it. `stale` collects these constants,
call by call, and a run prints every operand as it was decoded exactly if no line uses one of them. -/

namespace UserspaceBypass

def spoilArgs (args : List Expr) (stale : Finset ExprInt) : Finset ExprInt :=
  args.foldl (fun stale e => e.spoil stale) stale

/-- No scale is stale when its operand is purified. -/
def ScalesFresh : List Expr → Finset ExprInt → Prop
  | [], _ => True
  | e :: es, stale => (∀ n ∈ e.scale, n ∉ stale) ∧ ScalesFresh es (e.spoil stale)

/-- No constant of the operands of one `process_normal` is stale. All are printed after the last
operand is purified, so that an odd scale also spoils the constants of its own line. -/
def ArgsFresh (args : List Expr) (stale : Finset ExprInt) : Prop :=
  ScalesFresh args stale ∧ ∀ e ∈ args, ∀ n ∈ e.constants, n ∉ spoilArgs args stale

instance decidableScalesFresh : ∀ args stale, Decidable (ScalesFresh args stale)
  | [], _ => isTrue trivial
  | e :: es, stale =>
      have := decidableScalesFresh es (e.spoil stale)
      inferInstanceAs (Decidable ((∀ n ∈ e.scale, n ∉ stale) ∧ ScalesFresh es (e.spoil stale)))

instance (args : List Expr) (stale : Finset ExprInt) : Decidable (ArgsFresh args stale) :=
  inferInstanceAs (Decidable (_ ∧ _))

/-- The stale constants after constant `n` is made. -/
def World.remake (world : World) (n : ExprInt) (stale : Finset ExprInt) : Finset ExprInt :=
  if world.resave then stale.erase n else stale

namespace Step

/-- The constants a call makes. -/
def made (offset : Nat) (heap : Heap) : Step → List ExprInt
  | .moveStack bytes => (makeMemDict 64 rsp bytes).im.toList
  | .returnAddress => [⟨offset, 64⟩]
  | .pushInt n => [pushedInt n heap]
  | _ => []

def heapAfter (world : World) (offset : Nat) (step : Step) (heap : Heap) : Heap :=
  match step with
  | .normal _ args _ => (purifyArgs args heap).2
  | _ => (step.made offset heap).foldr world.make heap

/-- The decoded operands that reach `make_inst`, each with what is printed for it. -/
def operands (world : World) (heap : Heap) : Step → List (Expr × Arg)
  | .normal _ args _ =>
      let r := purifyArgs args heap
      args.zip (r.1.map (Arg.printed r.2))
  | .pushInt n =>
      let m := pushedInt n heap
      [(.int n, .int (m.printed (world.make m heap)))]
  | _ => []

def staleAfter (world : World) (offset : Nat) (step : Step) (stale : Finset ExprInt) :
    Finset ExprInt :=
  match step with
  | .normal _ args _ => spoilArgs args stale
  | _ => (step.made offset .fresh).foldr world.remake stale

/-- No constant the call prints is stale, and a pushed constant fits into 32 bits. -/
def Fresh (world : World) (stale : Finset ExprInt) : Step → Prop
  | .normal _ args _ => ArgsFresh args stale
  | .pushInt n => n ∉ stale ∧ n.arg < 2 ^ 32 ∧ ⟨n.arg, 32⟩ ∉ world.remake ⟨n.arg, 32⟩ stale
  | _ => True

instance (world : World) (stale : Finset ExprInt) : ∀ step, Decidable (Fresh world stale step)
  | .normal _ args _ => inferInstanceAs (Decidable (ArgsFresh args stale))
  | .pushInt _ => inferInstanceAs (Decidable (_ ∧ _ ∧ _))
  | .moveStack _ | .returnAddress | .resolve _ | .release _ | .releaseTmp | .jumpReg _ _
  | .jumpLoc _ _ | .stub _ | .nop | .raise => isTrue trivial

/-- Every operand of the call has the property. -/
def Each (P : Expr → Prop) : Step → Prop
  | .normal _ args _ => ∀ e ∈ args, P e
  | _ => True

abbrev Decoded (step : Step) : Prop := step.Each Expr.Decoded

end Step

theorem subset_spoil (e : Expr) (stale : Finset ExprInt) : stale ⊆ e.spoil stale := by
  unfold Expr.spoil
  split
  · split
    · exact Finset.subset_insert _ _
    · exact Finset.Subset.refl _
  · exact Finset.Subset.refl _

theorem subset_spoilArgs (args : List Expr) (stale : Finset ExprInt) :
    stale ⊆ spoilArgs args stale := by
  induction args generalizing stale with
  | nil => exact Finset.Subset.refl _
  | cons e args ih => exact (subset_spoil e stale).trans (ih (e.spoil stale))

namespace Heap.Matches

variable {heap : Heap} {stale : Finset ExprInt}

theorem update (h : heap.Matches stale) (n : ExprInt) :
    Heap.Matches (Function.update heap n n.arg) (stale.erase n) := by
  refine ⟨fun m hm => h.odd m (Finset.mem_of_mem_erase hm), ?_, ?_⟩
  · intro m hm
    rw [Function.update_of_ne (Finset.ne_of_mem_erase hm)]
    exact h.low m (Finset.mem_of_mem_erase hm)
  · intro m hm
    by_cases hmn : m = n
    · rw [hmn, Function.update_self]
    · rw [Function.update_of_ne hmn]
      exact h.same m fun hmem => hm (Finset.mem_erase.mpr ⟨hmn, hmem⟩)

theorem make (h : heap.Matches stale) (world : World) (n : ExprInt) :
    (world.make n heap).Matches (world.remake n stale) := by
  unfold World.make World.remake
  split
  · exact h.update n
  · exact h

theorem foldr_make (h : heap.Matches stale) (world : World) (made : List ExprInt) :
    Heap.Matches (made.foldr world.make heap) (made.foldr world.remake stale) := by
  induction made with
  | nil => exact h
  | cons n made ih => exact ih.make world n

theorem purifyArgs (h : heap.Matches stale) {args : List Expr} (hdec : ∀ e ∈ args, e.Decoded) :
    (purifyArgs args heap).2.Matches (spoilArgs args stale) := by
  induction args generalizing heap stale with
  | nil => exact h
  | cons e args ih =>
      exact ih (h.argPurify (hdec e List.mem_cons_self))
        fun e' he' => hdec e' (List.mem_cons_of_mem _ he')

end Heap.Matches

/-- The operands of one `process_normal`, printed under a heap in which at least their own scales
are stale. -/
theorem denotes_args_iff {args : List Expr} (hdec : ∀ e ∈ args, e.Decoded) {heap heap' : Heap}
    {stale stale' : Finset ExprInt} (h : heap.Matches stale) (h' : heap'.Matches stale')
    (hsub : spoilArgs args stale ⊆ stale') :
    (∀ x ∈ args.zip ((purifyArgs args heap).1.map (Arg.printed heap')), x.1.Denotes x.2) ↔
      ScalesFresh args stale ∧ ∀ e ∈ args, ∀ n ∈ e.constants, n ∉ stale' := by
  induction args generalizing heap stale with
  | nil => simp [purifyArgs, ScalesFresh]
  | cons e args ih =>
      have he := hdec e List.mem_cons_self
      have hargs := fun e' he' => hdec e' (List.mem_cons_of_mem _ he')
      have hfirst := Expr.denotes_iff he h h' ((subset_spoilArgs args (e.spoil stale)).trans hsub)
      have hrest := ih hargs (h.argPurify he) hsub
      simp only [purifyArgs, List.map_cons, List.zip_cons_cons, List.forall_mem_cons, hfirst, hrest,
        ScalesFresh]
      tauto

theorem Heap.Matches.le_arg {heap : Heap} {stale : Finset ExprInt} (h : heap.Matches stale)
    (n : ExprInt) : heap n ≤ n.arg := by
  by_cases hn : n ∈ stale
  · rw [h.low n hn]
    exact Nat.sub_le _ _
  · rw [h.same n hn]

/-- A pushed constant: the number read back has to be the decoded one, to fit into 32 bits, and to
be printed as it is. -/
theorem pushInt_denotes_iff {heap : Heap} {stale : Finset ExprInt} (h : heap.Matches stale)
    (world : World) (n : ExprInt) :
    (world.make (pushedInt n heap) heap) (pushedInt n heap) = n.arg ↔
      (Step.pushInt n).Fresh world stale := by
  have hmake := h.make world (pushedInt n heap)
  have hprinted : (world.make (pushedInt n heap) heap) (pushedInt n heap) ≤ heap n % 2 ^ 32 :=
    hmake.le_arg _
  have hmod : heap n % 2 ^ 32 ≤ heap n := Nat.mod_le _ _
  constructor
  · intro heq
    have hn : n ∉ stale := h.eq_arg_iff.mp (Nat.le_antisymm (h.le_arg n) (by omega))
    have hlt : n.arg < 2 ^ 32 := by
      have := Nat.mod_lt (heap n) (show 2 ^ 32 > 0 by decide)
      omega
    have hpushed : pushedInt n heap = ⟨n.arg, 32⟩ := by
      rw [pushedInt, h.same n hn, Nat.mod_eq_of_lt hlt]
    rw [hpushed] at heq hmake
    exact ⟨hn, hlt, hmake.eq_arg_iff.mp heq⟩
  · rintro ⟨hn, hlt, hnot⟩
    have hpushed : pushedInt n heap = ⟨n.arg, 32⟩ := by
      rw [pushedInt, h.same n hn, Nat.mod_eq_of_lt hlt]
    rw [hpushed] at hmake ⊢
    exact hmake.eq_arg_iff.mpr hnot

namespace Step

variable {heap : Heap} {stale : Finset ExprInt} {step : Step} {steps : List Step}

theorem denotes_iff (world : World) (hdec : step.Decoded) (h : heap.Matches stale) :
    (∀ x ∈ step.operands world heap, x.1.Denotes x.2) ↔ step.Fresh world stale := by
  cases step with
  | normal name args canCheck =>
      exact denotes_args_iff hdec h (h.purifyArgs hdec) (Finset.Subset.refl _)
  | pushInt n =>
      rw [← pushInt_denotes_iff h]
      simp [operands, Expr.Denotes, ExprInt.printed]
  | _ => simp [operands, Fresh]

end Step

/-- The operands printed by a list of calls. -/
def stepsOperands (world : World) (offset : Nat) : List Step → Heap → List (Expr × Arg)
  | [], _ => []
  | step :: steps, heap =>
      step.operands world heap ++ stepsOperands world offset steps (step.heapAfter world offset heap)

def stepsHeap (world : World) (offset : Nat) (steps : List Step) (heap : Heap) : Heap :=
  steps.foldl (fun heap step => step.heapAfter world offset heap) heap

def stepsStale (world : World) (offset : Nat) (steps : List Step) (stale : Finset ExprInt) :
    Finset ExprInt :=
  steps.foldl (fun stale step => step.staleAfter world offset stale) stale

def StepsFresh (world : World) (offset : Nat) : List Step → Finset ExprInt → Prop
  | [], _ => True
  | step :: steps, stale =>
      step.Fresh world stale ∧ StepsFresh world offset steps (step.staleAfter world offset stale)

instance decidableStepsFresh (world : World) (offset : Nat) :
    ∀ steps stale, Decidable (StepsFresh world offset steps stale)
  | [], _ => isTrue trivial
  | step :: steps, stale =>
      have := decidableStepsFresh world offset steps (step.staleAfter world offset stale)
      inferInstanceAs (Decidable (step.Fresh world stale ∧ StepsFresh world offset steps _))

theorem processPurified_heap {world : World} {name : String} {args : List Arg} {offset : Nat}
    {canCheck : Bool} {t t' : TransState} {text : List Asm}
    (h : processPurified world name args offset canCheck t = some (text, t')) :
    t'.heap = t.heap := by
  rw [processPurified] at h
  split_ifs at h
  · obtain ⟨inst, -, heq⟩ := Option.map_eq_some_iff.mp h
    obtain ⟨-, rfl⟩ := Prod.mk.inj heq
    rfl
  · simp only [Option.bind_eq_bind, Option.pure_def, Option.bind_eq_some_iff, Option.some.injEq]
      at h
    obtain ⟨⟨pre, m⟩, -, args', -, toCheck', -, inst, -, heq⟩ := h
    obtain ⟨-, rfl⟩ := Prod.mk.inj heq
    rfl

theorem processMade_heap {world : World} {made : List ExprInt} {name : String} {args : List Expr}
    {offset : Nat} {t t' : TransState} {text : List Asm}
    (h : processMade world made name args offset t = some (text, t')) :
    t'.heap = (purifyArgs args (made.foldr world.make t.heap)).2 :=
  processPurified_heap h

theorem Step.run_heap {world : World} {offset : Nat} {step : Step} {t t' : TransState}
    {text : List Asm} (h : step.run world offset t = some (text, t')) :
    t'.heap = step.heapAfter world offset t.heap := by
  cases step with
  | normal name args canCheck => exact processPurified_heap h
  | moveStack bytes => exact processMade_heap h
  | returnAddress => exact processMade_heap h
  | pushInt n => exact processMade_heap h
  | resolve v =>
      obtain ⟨r, -, heq⟩ := Option.map_eq_some_iff.mp h
      obtain ⟨-, rfl⟩ := Prod.mk.inj heq
      rfl
  | jumpReg name r =>
      obtain ⟨target, -, heq⟩ := Option.map_eq_some_iff.mp h
      obtain ⟨-, rfl⟩ := Prod.mk.inj heq
      rfl
  | raise => cases h
  | _ =>
      cases h
      rfl

theorem runSteps_heap {world : World} {offset : Nat} {steps : List Step} {t t' : TransState}
    {text : List Asm} (h : runSteps world offset steps t = some (text, t')) :
    t'.heap = stepsHeap world offset steps t.heap := by
  induction steps generalizing t text with
  | nil =>
      cases h
      rfl
  | cons step steps ih =>
      obtain ⟨text₁, t₁, text₂, hstep, hrest, rfl⟩ := Trans.andThen_some h
      rw [ih hrest, Step.run_heap hstep]
      rfl

/-- A line as the disassembler makes it; the line the loop repairs is `LEA RDX, [RDI * 3]`. -/
structure Line.Decoded (line : Line) : Prop where
  operands : ∀ e ∈ line.args, e.Decoded
  patched : line.b = patchedBytes → patchedNode line = some ⟨3, 64⟩

section Each

variable {P : Expr → Prop} {line : Line}

/-- Every operand of every call of a list has the property. -/
abbrev AllEach (P : Expr → Prop) (steps : List Step) : Prop := ∀ step ∈ steps, step.Each P

theorem firstArg_each (h : ∀ e ∈ line.args, P e) {f : Expr → List Step}
    (hf : ∀ e, P e → AllEach P (f e)) : AllEach P (firstArg line f) := by
  unfold firstArg
  cases hargs : line.args with
  | nil => simp [AllEach, Step.Each]
  | cons e args => exact hf e (h e (by simp [hargs]))

theorem processPush_each (hid : ∀ r, P (.id r)) (hdict : ∀ d, P (.dict d)) (e : Expr) (h : P e) :
    AllEach P (processPush e) := by
  cases e <;> simp_all [AllEach, processPush, Expr.size, Step.Each]

theorem processPop_each (hid : ∀ r, P (.id r)) (hdict : ∀ d, P (.dict d)) (e : Expr) (h : P e) :
    AllEach P (processPop e) := by
  cases e <;> simp_all [AllEach, processPop, Expr.size, Step.Each]

theorem processJump_each (hid : ∀ r, P (.id r)) (name : String) (e : Expr) (h : P e) :
    AllEach P (processJump name e) := by
  cases e <;> simp_all [AllEach, processJump, Step.Each]

/-- The operands of the calls for a line are those of the line, registers, and dictionaries made by the
translator. -/
theorem translate_each (h : ∀ e ∈ line.args, P e) (hid : ∀ r, P (.id r)) (hdict : ∀ d, P (.dict d))
    (blockEnd canCheck : Bool) : AllEach P (translate line blockEnd canCheck) := by
  have hrelease : AllEach P [.release blockEnd] := by simp [AllEach, Step.Each]
  have hpush := processPush_each hid hdict
  have hpop := processPop_each hid hdict
  apply translate_cases
  · exact List.forall_mem_cons.mpr ⟨trivial, hrelease⟩
  · exact List.forall_mem_append.mpr
      ⟨List.forall_mem_cons.mpr ⟨trivial, List.forall_mem_cons.mpr
        ⟨trivial, hpush _ (hid _)⟩⟩, firstArg_each h (processJump_each hid _)⟩
  · exact List.forall_mem_append.mpr ⟨firstArg_each h hpush, hrelease⟩
  · exact List.forall_mem_append.mpr ⟨firstArg_each h hpop, hrelease⟩
  · exact List.forall_mem_append.mpr
      ⟨List.forall_mem_cons.mpr ⟨trivial, hpop _ (hid _)⟩, processJump_each hid _ _ (hid _)⟩
  · refine List.forall_mem_append.mpr ⟨List.forall_mem_cons.mpr ⟨?_, hpop _ (hid _)⟩, hrelease⟩
    simp [Step.Each, hid]
  · simp [AllEach, Step.Each]
  · simp [AllEach]
  · intro _
    exact firstArg_each h (processJump_each hid _)
  · exact fun _ _ => List.forall_mem_cons.mpr ⟨h, hrelease⟩

theorem translate_decoded (h : line.Decoded) (blockEnd canCheck : Bool) :
    AllEach Expr.Decoded (translate line blockEnd canCheck) :=
  translate_each h.operands (fun _ => trivial) (fun _ => trivial) blockEnd canCheck

end Each

/-- The calls for a line, up to the flags that do not matter to its constants. -/
def Line.calls (line : Line) : List Step := translate line false false

/-- A call without its flags. -/
def Step.plain : Step → Step
  | .normal name args _ => .normal name args false
  | .release _ => .release false
  | step => step

/-- The stale constants once the repair of the loop is done. -/
def patchStale (line : Line) (stale : Finset ExprInt) : Finset ExprInt :=
  if line.b = patchedBytes then stale.erase ⟨3, 64⟩ else stale

theorem Heap.Matches.miasmPatch {heap heap' : Heap} {stale : Finset ExprInt}
    (h : heap.Matches stale) {line : Line} (hdec : line.Decoded)
    (hpatch : miasmPatch line heap = some heap') : heap'.Matches (patchStale line stale) := by
  unfold UserspaceBypass.miasmPatch at hpatch
  unfold patchStale
  split_ifs at hpatch ⊢ with hb
  · rw [hdec.patched hb] at hpatch
    cases hpatch
    exact h.update ⟨3, 64⟩
  · cases hpatch
    exact h

def lineStale (world : World) (stale : Finset ExprInt) (x : Nat × Line) : Finset ExprInt :=
  stepsStale world x.1 x.2.calls (patchStale x.2 stale)

/-- No line uses a constant that an earlier line, or the line itself, has made stale. -/
def LinesFresh (world : World) : List (Nat × Line) → Finset ExprInt → Prop
  | [], _ => True
  | x :: xs, stale =>
      StepsFresh world x.1 x.2.calls (patchStale x.2 stale) ∧
        LinesFresh world xs (lineStale world stale x)

instance decidableLinesFresh (world : World) : ∀ xs stale, Decidable (LinesFresh world xs stale)
  | [], _ => isTrue trivial
  | x :: xs, stale =>
      have := decidableLinesFresh world xs (lineStale world stale x)
      inferInstanceAs (Decidable (StepsFresh world x.1 _ _ ∧ LinesFresh world xs _))

/-- The operands of a line that are printed, as decoded and as printed. -/
def Emitted.operands (world : World) (e : Emitted) : List (Expr × Arg) :=
  stepsOperands world e.offset (translate e.line e.blockEnd e.canCheck) e.before.heap

/-- Every operand of the line is printed with the meaning it was decoded with. -/
def Emitted.Denotes (world : World) (e : Emitted) : Prop :=
  ∀ x ∈ e.operands world, x.1.Denotes x.2

end UserspaceBypass
