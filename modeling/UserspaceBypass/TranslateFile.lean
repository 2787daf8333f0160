import UserspaceBypass.LibLayout
import UserspaceBypass.TranslateBlock
import Mathlib.Data.List.Sort

/-! The file `jit.S` as `dis_assem` writes it and `wrapper.S` includes it: a jump to the entry, the
blocks in address order, the ladders of the indirect jumps, the stubs of the missing callees, and
behind them the wrapper's own labels. No jump is emitted from a block to the one it falls through to;
that is left to the order of the file. -/

namespace UserspaceBypass

open Layout

/-- `block_dict` and what the disassembler guarantees about it: instructions have bytes, a block that
could not be decoded has no successors, a branch to a label has it among them, and every successor is
a block. -/
structure BlockDict where
  items : List (Nat × Block)
  nodup : (items.map Prod.fst).Nodup
  positive : ∀ b ∈ items, ∀ line ∈ b.2.lines, 0 < line.l
  undecoded : ∀ b ∈ items, b.2.lines = [] → b.2.bto = []
  branch : ∀ b ∈ items, ∀ line ∈ b.2.lines,
    line.name ∈ conditionalBranch ∨ line.name ∈ unconditionalBranch →
      ∀ a, (∃ rest, line.args = .loc a :: rest) → a ∈ b.2.bto
  closed : ∀ b ∈ items, ∀ s ∈ b.2.bto, s ∈ items.map Prod.fst

/-- `sorted(block_dict.items())` -/
def sortedBlocks (blocks : List (Nat × Block)) : List (Nat × Block) :=
  blocks.insertionSort fun a b => a.1 ≤ b.1

theorem mem_sortedBlocks {blocks : List (Nat × Block)} {b : Nat × Block} :
    b ∈ sortedBlocks blocks ↔ b ∈ blocks :=
  List.mem_insertionSort _

/-- The address behind the last line of a block. -/
def Block.endFrom (block : Block) (address : Nat) : Nat := address + (block.lines.map Line.l).sum

def emittedText (emitted : List Emitted) : List Asm := emitted.flatMap Emitted.text

/-- The comparisons under `ij_<offset>`. -/
def ladder (offset : Nat) (targets : List Nat) : List Asm :=
  (targets.flatMap fun target => [.movabs .p15 target,
    .inst "CMP" [.reg (.gpr .r14 .q), .reg (.gpr .r15 .q)], .jump "JZ" (.loc target)]) ++
    [.movabs .p15 offset, .jump "JMP" .ijFailed]

def makeJumpTable (jumpTable : List (Nat × List Nat)) : List (Label × List Asm) :=
  jumpTable.map fun entry => (.ij entry.1, ladder entry.1 entry.2)

def calleeStub (offset : Nat) : List Asm := [.movabs .p14 offset, .setIj 1, .jump "JMP" .exit]

def makeCalleeTable (callees : List Nat) : List (Label × List Asm) :=
  callees.map fun callee => (.loc callee, calleeStub callee)

/-- The labels of `wrapper.S` behind the included file. -/
def wrapperLabels : List (Label × List Asm) :=
  [(.compSyscall, [.setIj 0, .jump "JMP" .exit]), (.ijFailed, [.saveIj .p15, .jump "JMP" .exit]),
    (.segError, [.jump "JMP" .exit]), (.segError2, [.inst "POPF" [], .jump "JMP" .exit]),
    (.exit, [])]

/-- The file, where the exit code itself is left out. -/
def jitFile (entry : Nat) (emitted : List (Nat × List Emitted)) (jumpTable : List (Nat × List Nat))
    (callees : List Nat) : List (Item Label Asm) :=
  [Asm.jump "JMP" (.loc entry)].map .code ++
    sections (emitted.map (fun b => (.loc b.1, emittedText b.2)) ++ makeJumpTable jumpTable ++
      makeCalleeTable callees ++ wrapperLabels)

namespace BlockDict

variable (dict : BlockDict)

def keys : List Nat := dict.items.map Prod.fst

theorem sorted_keys : ((sortedBlocks dict.items).map Prod.fst).Pairwise (· < ·) := by
  have hmap : (sortedBlocks dict.items).map Prod.fst = dict.keys.insertionSort (· ≤ ·) :=
    List.map_insertionSort _ _ _ _ fun _ _ _ _ => Iff.rfl
  rw [hmap]
  have hle := List.pairwise_insertionSort (· ≤ ·) dict.keys
  have hne : (dict.keys.insertionSort (· ≤ ·)).Nodup :=
    (List.perm_insertionSort _ _).nodup_iff.mpr dict.nodup
  exact (hle.and hne).imp fun h => lt_of_le_of_ne h.1 h.2

theorem mem_sorted_keys {k : Nat} : k ∈ (sortedBlocks dict.items).map Prod.fst ↔ k ∈ dict.keys :=
  ((List.perm_insertionSort _ _).map Prod.fst).mem_iff

end BlockDict

theorem translateBlocks_keys {world : World} {blocks : List (Nat × Block)} {t t' : TransState}
    {emitted : List (Nat × List Emitted)}
    (h : translateBlocks world blocks t = some (emitted, t')) :
    emitted.map Prod.fst = blocks.map Prod.fst := by
  induction blocks generalizing t emitted with
  | nil =>
      cases h
      rfl
  | cons b blocks ih =>
      obtain ⟨first, t₁, rest, -, hrest, rfl⟩ := translateBlocks_cons h
      rw [List.map_cons, List.map_cons, ih hrest]

/-- The block behind each part of the file. -/
theorem translateBlocks_mem {world : World} {blocks : List (Nat × Block)} {t t' : TransState}
    {emitted : List (Nat × List Emitted)} (h : translateBlocks world blocks t = some (emitted, t'))
    {b : Nat × List Emitted} (hb : b ∈ emitted) :
    ∃ block t₁ t₂, (b.1, block) ∈ blocks ∧ translateBlock world b.1 block t₁ = some (b.2, t₂) := by
  induction blocks generalizing t emitted with
  | nil =>
      cases h
      cases hb
  | cons part blocks ih =>
      obtain ⟨first, t₁, rest, hfirst, hrest, rfl⟩ := translateBlocks_cons h
      rcases List.mem_cons.mp hb with rfl | hb
      · exact ⟨part.2, t, t₁, List.mem_cons_self, hfirst⟩
      · obtain ⟨block, t₂, t₃, hmem, hblock⟩ := ih hrest hb
        exact ⟨block, t₂, t₃, List.mem_cons_of_mem _ hmem, hblock⟩

/-- Each block of the dictionary with its place in the file. -/
theorem translateBlocks_split {world : World} {blocks : List (Nat × Block)} {t t' : TransState}
    {emitted : List (Nat × List Emitted)} (h : translateBlocks world blocks t = some (emitted, t'))
    {address : Nat} {block : Block} (hmem : (address, block) ∈ blocks) :
    ∃ before own after t₁ t₂, emitted = before ++ (address, own) :: after ∧
      translateBlock world address block t₁ = some (own, t₂) := by
  induction blocks generalizing t emitted with
  | nil => cases hmem
  | cons b blocks ih =>
      obtain ⟨first, t₁, rest, hfirst, hrest, rfl⟩ := translateBlocks_cons h
      rcases List.mem_cons.mp hmem with rfl | hmem
      · exact ⟨[], first, rest, t, t₁, rfl, hfirst⟩
      · obtain ⟨before, own, after, t₂, t₃, rfl, hown⟩ := ih hrest hmem
        exact ⟨(b.1, first) :: before, own, after, t₂, t₃, rfl, hown⟩

end UserspaceBypass
