import UserspaceBypass.ControlFlow
import UserspaceBypass.IndirectJump

/-! The second half of `dis_assem`, from the dictionary of blocks on: `find` completes the jump table
and lists the missing callees, the blocks are translated in address order, and the ladders and stubs
are appended. -/

namespace UserspaceBypass

open Layout

/-- `jit.S` inside `wrapper.S`; `none` is a Python exception on the way. -/
def emitFile (world : World) (entry : Nat) (blocks : List (Nat × Block))
    (jumpTable : List (Nat × List Nat)) : Option (List (Item Label Asm)) := do
  let sites ← find blocks jumpTable
  let (emitted, _) ← translateBlocks world (sortedBlocks blocks) .start
  return jitFile entry emitted sites.jumpTable sites.missing

/-- The addresses that get a label: blocks, and callees of direct CALL lines. -/
def Known (blocks : List (Nat × Block)) (a : Nat) : Prop :=
  a ∈ Dict.keys blocks ∨ ∃ e ∈ allEnds blocks, e.2.callee = some a

theorem emitFile_some {world : World} {entry : Nat} {blocks : List (Nat × Block)}
    {seed : List (Nat × List Nat)} {file : List (Item Label Asm)}
    (h : emitFile world entry blocks seed = some file) :
    ∃ sites emitted last, find blocks seed = some sites ∧
      translateBlocks world (sortedBlocks blocks) .start = some (emitted, last) ∧
      file = jitFile entry emitted sites.jumpTable sites.missing := by
  simp only [emitFile, Option.bind_eq_bind, Option.pure_def, Option.bind_eq_some_iff,
    Option.some.injEq] at h
  obtain ⟨sites, hfind, ⟨emitted, last⟩, hrun, rfl⟩ := h
  exact ⟨sites, emitted, last, hfind, hrun, rfl⟩

section Jit

variable (entry : Nat) (emitted : List (Nat × List Emitted)) (jumpTable : List (Nat × List Nat))
  (callees : List Nat)

theorem labels_jitFile : labels (jitFile entry emitted jumpTable callees) =
    (Dict.keys emitted).map .loc ++ (Dict.keys jumpTable).map .ij ++ callees.map .loc ++
      wrapperLabels.map Prod.fst := by
  rw [jitFile, labels_code, labels_sections]
  simp only [makeJumpTable, makeCalleeTable, Dict.keys, List.map_append, List.map_map]
  rfl

theorem text_jitFile : text (jitFile entry emitted jumpTable callees) =
    [.jump "JMP" (.loc entry)] ++ ((emitted.flatMap fun b => emittedText b.2) ++
      (jumpTable.flatMap fun e => ladder e.1 e.2) ++ callees.flatMap calleeStub ++
      wrapperLabels.flatMap Prod.snd) := by
  rw [jitFile, text_code, text_sections]
  simp only [makeJumpTable, makeCalleeTable, List.flatMap_append, List.flatMap_map]

end Jit

section Labels

variable {world : World} {blocks : List (Nat × Block)} {seed : List (Nat × List Nat)}
  {sites : Sites} {emitted : List (Nat × List Emitted)} {last : TransState}

theorem keys_perm (hrun : translateBlocks world (sortedBlocks blocks) .start = some (emitted, last)) :
    (Dict.keys emitted).Perm (Dict.keys blocks) := by
  rw [Dict.keys, translateBlocks_keys hrun]
  exact (List.perm_insertionSort _ _).map _

variable (hfind : find blocks seed = some sites)
  (hrun : translateBlocks world (sortedBlocks blocks) .start = some (emitted, last)) (entry : Nat)

include hfind hrun

theorem loc_mem_labels {a : Nat} :
    .loc a ∈ labels (jitFile entry emitted sites.jumpTable sites.missing) ↔ Known blocks a := by
  have hmissing := (find_grows hfind).missing a
  have hwrapper : Label.loc a ∉ wrapperLabels.map Prod.fst := by simp [wrapperLabels]
  simp only [labels_jitFile, List.mem_append, List.mem_map, Label.loc.injEq, exists_eq_right,
    reduceCtorEq, and_false, exists_false, or_false, hwrapper, (keys_perm hrun).mem_iff, hmissing,
    List.not_mem_nil, false_or, Known]
  tauto

end Labels

section Lines

variable {world : World} {blocks : List (Nat × Block)} {emitted : List (Nat × List Emitted)}
  {last : TransState}

/-- The emitted lines are lines of the dictionary. -/
theorem emitted_mem_allEnds
    (hrun : translateBlocks world (sortedBlocks blocks) .start = some (emitted, last))
    {b : Nat × List Emitted} (hb : b ∈ emitted) {e : Emitted} (he : e ∈ b.2) :
    (e.offset, e.line) ∈ allEnds blocks := by
  obtain ⟨block, t₁, t₂, hblock, hown⟩ := translateBlocks_mem hrun hb
  refine List.mem_flatMap.mpr ⟨(b.1, block), mem_sortedBlocks.mp hblock, ?_⟩
  rw [← translateLines_ends hown]
  exact List.mem_map_of_mem he

end Lines

end UserspaceBypass
