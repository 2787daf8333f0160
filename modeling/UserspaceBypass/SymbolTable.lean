import UserspaceBypass.DisAssem
import UserspaceBypass.LibText
import UserspaceBypass.LineStart

/-! The symbols of the assembled file. Label and slot names are put together from text in the
translator, in the ladders and in the stubs, and have to meet their definitions in `jit.S`,
`wrapper.S` and `asm_head.h`. The object file is never linked, so that nothing reports a name without
a definition. The operands of instructions are not looked at here. -/

namespace UserspaceBypass

open Layout Text

section Names

/-- The fixed part of a label's name. -/
def Label.stem : Label → String
  | .loc _ => "loc_"
  | .ij _ => "ij_"
  | .compSyscall => "comp_syscall"
  | .ijFailed => "ij_failed"
  | .segError => "seg_error"
  | .segError2 => "seg_error2"
  | .exit => "exit"
  | .illInst => "ill_inst"

/-- The address in a label's name. -/
def Label.digits : Label → List Char
  | .loc a | .ij a => Nat.toDigits 16 a
  | _ => []

def Label.name (l : Label) : List Char := l.stem.toList ++ l.digits

end Names

section Defined

variable {file : List (Item Label Asm)}

end Defined

section Slots

variable {world : World} {offset : Nat}

end Slots

section File

variable {world : World} {entry : Nat} {blocks : List (Nat × Block)} {seed : List (Nat × List Nat)}
  {sites : Sites} {emitted : List (Nat × List Emitted)} {last : TransState}

/-- The text of the file part by part, where the fixed parts are in order. -/
theorem forall_text_jitFile {P : Asm → Prop} {jumpTable : List (Nat × List Nat)} {callees : List Nat}
    (hentry : P (.jump "JMP" (.loc entry))) (hstubs : ∀ callee, ∀ a ∈ calleeStub callee, P a)
    (hwrapper : ∀ part ∈ wrapperLabels, ∀ a ∈ part.2, P a) :
    (∀ a ∈ text (jitFile entry emitted jumpTable callees), P a) ↔
      (∀ b ∈ emitted, ∀ a ∈ emittedText b.2, P a) ∧ ∀ e ∈ jumpTable, ∀ a ∈ ladder e.1 e.2, P a := by
  simp only [text_jitFile, List.forall_mem_append, List.forall_mem_flatMap, List.forall_mem_singleton]
  exact ⟨fun h => h.2.1.1, fun h => ⟨hentry, ⟨⟨h, fun callee _ => hstubs callee⟩, hwrapper⟩⟩⟩

end File

end UserspaceBypass
