import UserspaceBypass.TranslateSpecial

/-! The emission loop of `dis_assem`: blocks in address order, each from a fresh register map, each
line with the flag answer popped for it. The heap of constants and the count of resolved conflicts
live through the whole run. The file is kept as a list of emitted lines, each with the state it was
translated in. -/

namespace UserspaceBypass

/-- A decoded block: its lines, and the addresses of its successors. -/
structure Block where
  lines : List Line
  bto : List Nat

/-- The lines of a block with the addresses behind them. -/
def Block.ends (address : Nat) : List Line → List (Nat × Line)
  | [] => []
  | line :: lines => (address + line.l, line) :: Block.ends (address + line.l) lines

/-- The bytes of `LEA RDX, [RDI + RDI*2]`. -/
def patchedBytes : List Nat := [0x48, 0x8d, 0x14, 0x7f]

/-- `line.args[1]._ptr._args[1]`, where it is a constant. -/
def patchedNode (line : Line) : Option ExprInt :=
  match line.args with
  | _ :: .mem _ none (.times _ (.int n)) :: _ => some n
  | _ :: .mem _ none (.add (_ :: .int n :: _)) :: _ => some n
  | _ :: .mem _ (some _) (.int n) :: _ => some n
  | _ => none

/-- The repair of the loop: that one line gets its scale set back to 3. -/
def miasmPatch (line : Line) (heap : Heap) : Option Heap :=
  if line.b = patchedBytes then (patchedNode line).map fun n => Function.update heap n 3
  else some heap

/-- A translated line: the address after it, the state `translate` was called in, and its text. -/
structure Emitted where
  line : Line
  offset : Nat
  blockEnd : Bool
  canCheck : Bool
  before : TransState
  text : List Asm
  after : TransState

/-- The loop over the lines of a block; `canCheck` is the list that is popped from its end. -/
def translateLines (world : World) :
    List Line → Nat → List Bool → TransState → Option (List Emitted × TransState)
  | [], _, _, t => some ([], t)
  | line :: lines, offset, canCheck, t => do
      let heap ← miasmPatch line t.heap
      let flag ← canCheck.getLast?
      let before : TransState := { t with heap := heap }
      let next := offset + line.l
      let (text, after) ← runSteps world next (translate line lines.isEmpty flag) before
      let (rest, last) ← translateLines world lines next canCheck.dropLast after
      return (⟨line, next, lines.isEmpty, flag, before, text, after⟩ :: rest, last)

def translateBlock (world : World) (address : Nat) (block : Block) (t : TransState) :
    Option (List Emitted × TransState) :=
  translateLines world block.lines address (checkFlagDefUse block.lines) t.atBlock

/-- The loop over `sorted(block_dict.items())`. -/
def translateBlocks (world : World) :
    List (Nat × Block) → TransState → Option (List (Nat × List Emitted) × TransState)
  | [], t => some ([], t)
  | (address, block) :: blocks, t => do
      let (emitted, t') ← translateBlock world address block t
      let (rest, last) ← translateBlocks world blocks t'
      return ((address, emitted) :: rest, last)

/-- The state a run starts in. -/
def TransState.start : TransState := ⟨blockInit, [], .fresh, 0⟩

theorem translateLines_cons {world : World} {line : Line} {lines : List Line} {offset : Nat}
    {canCheck : List Bool} {t t' : TransState} {emitted : List Emitted}
    (h : translateLines world (line :: lines) offset canCheck t = some (emitted, t')) :
    ∃ heap flag text after rest, miasmPatch line t.heap = some heap ∧
      canCheck.getLast? = some flag ∧
      runSteps world (offset + line.l) (translate line lines.isEmpty flag)
        { t with heap := heap } = some (text, after) ∧
      translateLines world lines (offset + line.l) canCheck.dropLast after = some (rest, t') ∧
      emitted = ⟨line, offset + line.l, lines.isEmpty, flag, { t with heap := heap }, text, after⟩ ::
        rest := by
  simp only [translateLines, Option.bind_eq_bind, Option.pure_def, Option.bind_eq_some_iff,
    Option.some.injEq] at h
  obtain ⟨heap, hheap, flag, hflag, ⟨text, after⟩, htext, ⟨rest, last⟩, hrest, heq⟩ := h
  obtain ⟨rfl, rfl⟩ := Prod.mk.inj heq
  exact ⟨heap, flag, text, after, rest, hheap, hflag, htext, hrest, rfl⟩

theorem translateLines_run {world : World} {lines : List Line} {offset : Nat} {canCheck : List Bool}
    {t t' : TransState} {emitted : List Emitted}
    (h : translateLines world lines offset canCheck t = some (emitted, t')) :
    (∀ e ∈ emitted, runSteps world e.offset (translate e.line e.blockEnd e.canCheck) e.before =
      some (e.text, e.after)) ∧ (emitted.getLast?.map Emitted.after).getD t = t' := by
  induction lines generalizing offset canCheck t emitted with
  | nil =>
      cases h
      exact ⟨by simp, rfl⟩
  | cons line lines ih =>
      obtain ⟨heap, flag, text, after, rest, -, -, hsteps, hrest, rfl⟩ := translateLines_cons h
      obtain ⟨hlines, hlast⟩ := ih hrest
      refine ⟨List.forall_mem_cons.mpr ⟨hsteps, hlines⟩, ?_⟩
      rw [List.getLast?_cons, Option.map_some, Option.getD_some]
      cases hrest' : rest.getLast? with
      | none => simpa [hrest'] using hlast
      | some e => simpa [hrest'] using hlast

/-- The loop, one line at a time. -/
theorem translateLines_step {world : World} {line : Line} {lines : List Line} {offset : Nat}
    {canCheck : List Bool} {t after t' : TransState} {heap : Heap} {flag : Bool} {text : List Asm}
    {rest : List Emitted} (hheap : miasmPatch line t.heap = some heap)
    (hflag : canCheck.getLast? = some flag)
    (htext : runSteps world (offset + line.l) (translate line lines.isEmpty flag)
      { t with heap := heap } = some (text, after))
    (hrest : translateLines world lines (offset + line.l) canCheck.dropLast after =
      some (rest, t')) :
    translateLines world (line :: lines) offset canCheck t =
      some (⟨line, offset + line.l, lines.isEmpty, flag, { t with heap := heap }, text, after⟩ ::
        rest, t') := by
  simp only [translateLines, hheap, hflag, htext, hrest, Option.bind_eq_bind, Option.bind_some,
    Option.pure_def]

theorem translateBlocks_cons {world : World} {address : Nat} {block : Block}
    {blocks : List (Nat × Block)} {t t' : TransState} {emitted : List (Nat × List Emitted)}
    (h : translateBlocks world ((address, block) :: blocks) t = some (emitted, t')) :
    ∃ first t₁ rest, translateBlock world address block t = some (first, t₁) ∧
      translateBlocks world blocks t₁ = some (rest, t') ∧ emitted = (address, first) :: rest := by
  simp only [translateBlocks, Option.bind_eq_bind, Option.pure_def, Option.bind_eq_some_iff,
    Option.some.injEq] at h
  obtain ⟨⟨first, t₁⟩, hfirst, ⟨rest, last⟩, hrest, heq⟩ := h
  obtain ⟨rfl, rfl⟩ := Prod.mk.inj heq
  exact ⟨first, t₁, rest, hfirst, hrest, rfl⟩

end UserspaceBypass
