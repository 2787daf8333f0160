import UserspaceBypass.LibLiveness
import UserspaceBypass.TranslateBlock

/-! Where `check_flag_def_use` lets an address mask clobber the flags. The scan answers for a line
what the nearest line from there on says that matches one of the two mnemonic lists, and takes a
match in the first list for a full definition of the flags. That is sound exactly where such lines,
and those in front of them, behave as the scan assumes. -/

namespace UserspaceBypass

open Liveness

/-- The mnemonic matches `ops_def_flags`. -/
def definesFlags (line : Line) : Bool := checkInList (getInstName line) opsDefFlags

/-- The mnemonic matches `ops_use_flags`. -/
def usesFlags (line : Line) : Bool := checkInList (getInstName line) opsUseFlags

/-- One round of the backward scan. -/
def scanLine (line : Line) (canCheck : Bool) : Bool :=
  if definesFlags line then true else if usesFlags line then false else canCheck

/-- The answer of the scan for the first of the lines. -/
def canCheckFrom (lines : List Line) : Bool := lines.foldr scanLine false

theorem checkFlagLoop_eq (lines : List Line) (canCheck : Bool) (ret : List Bool) :
    checkFlagLoop lines canCheck ret = ret ++ checkFlagLoop lines canCheck [] := by
  induction lines generalizing canCheck ret with
  | nil => simp [checkFlagLoop]
  | cons line lines ih =>
      rw [checkFlagLoop, checkFlagLoop, ih _ (ret ++ _), ih _ ([] ++ _)]
      simp

theorem checkFlagLoop_concat (lines : List Line) (line : Line) (canCheck : Bool) :
    checkFlagLoop (lines ++ [line]) canCheck [] =
      checkFlagLoop lines canCheck [] ++
        [scanLine line (lines.foldl (fun c l => scanLine l c) canCheck)] := by
  induction lines generalizing canCheck with
  | nil => rfl
  | cons l lines ih =>
      rw [List.cons_append, checkFlagLoop, checkFlagLoop, checkFlagLoop_eq, checkFlagLoop_eq lines,
        ih]
      simp only [List.append_assoc, List.foldl_cons]
      rfl

/-- The scan appends its answers from the last line to the first. -/
theorem checkFlagDefUse_cons (line : Line) (lines : List Line) :
    checkFlagDefUse (line :: lines) = checkFlagDefUse lines ++ [canCheckFrom (line :: lines)] := by
  rw [checkFlagDefUse, List.reverse_cons, checkFlagLoop_concat, List.foldl_reverse]
  rfl

/-- The answer that is popped after `i` others. -/
def popAt (ret : List Bool) (i : Nat) : Option Bool := (List.dropLast^[i] ret).getLast?

/-- Popping from the end gives every line its own answer. -/
theorem popAt_checkFlagDefUse (lines : List Line) (i : Nat) :
    popAt (checkFlagDefUse lines) i =
      if i < lines.length then some (canCheckFrom (lines.drop i)) else none := by
  induction lines generalizing i with
  | nil =>
      have hnil : List.dropLast^[i] ([] : List Bool) = [] := by
        induction i with
        | zero => rfl
        | succ i ih => rw [Function.iterate_succ_apply, List.dropLast_nil, ih]
      rw [popAt, checkFlagDefUse, List.reverse_nil, checkFlagLoop, hnil]
      simp
  | cons line lines ih =>
      rw [checkFlagDefUse_cons]
      cases i with
      | zero => simp [popAt]
      | succ i =>
          rw [popAt, Function.iterate_succ_apply, List.dropLast_concat, ← popAt, ih]
          simp

/-- What the scan takes for granted at each line it answers `True` for: the line reads no status
flag, and if it matches `ops_def_flags`, the flags it leaves alone are overwritten further on. -/
def ScanSound (use : Access Line Flag) (lines : List Line) : Prop :=
  ∀ i line, lines[i]? = some line → canCheckFrom (lines.drop i) = true →
    (∀ f, use.reads line f = false) ∧
      (definesFlags line = true → ∀ f, use.writes line f = false → use.Overwritten lines (i + 1) f)

theorem ScanSound.drop {use : Access Line Flag} {lines : List Line} (h : ScanSound use lines)
    (k : Nat) : ScanSound use (lines.drop k) := by
  intro i line hline hcheck
  rw [List.getElem?_drop] at hline
  rw [List.drop_drop] at hcheck
  obtain ⟨hreads, hdef⟩ := h (k + i) line hline hcheck
  refine ⟨hreads, fun hd f hf => ?_⟩
  have hover := hdef hd f hf
  rw [Access.overwritten_iff] at hover ⊢
  rwa [List.drop_drop, ← Nat.add_assoc]

theorem ScanSound.dead {use : Access Line Flag} {lines : List Line} (h : ScanSound use lines)
    (hcheck : canCheckFrom lines = true) (f : Flag) : use.dead f lines = true := by
  induction lines with
  | nil => simp [canCheckFrom] at hcheck
  | cons line lines ih =>
      obtain ⟨hreads, hdef⟩ := h 0 line rfl hcheck
      refine Access.dead_cons.mpr ⟨hreads f, ?_⟩
      by_cases hd : definesFlags line = true
      · by_cases hw : use.writes line f = true
        · exact Or.inl hw
        · exact Or.inr ((use.overwritten_iff _ _ _).mp (hdef hd f (by simpa using hw)))
      · -- the line matches no list, so the answer is that of the next line
        have hnext : canCheckFrom lines = true := by
          rw [canCheckFrom, List.foldr_cons, scanLine, if_neg hd] at hcheck
          split_ifs at hcheck
          exact hcheck
        exact Or.inr (ih (h.drop 1) hnext)

theorem scanSound_iff (use : Access Line Flag) (lines : List Line) :
    (∀ i, popAt (checkFlagDefUse lines) i = some true → ∀ f, use.Overwritten lines i f) ↔
      ScanSound use lines := by
  constructor
  · intro h i line hline hcheck
    have hlt : i < lines.length := (List.getElem?_eq_some_iff.mp hline).1
    have hpop : popAt (checkFlagDefUse lines) i = some true := by
      rw [popAt_checkFlagDefUse, if_pos hlt, hcheck]
    have hdrop : lines.drop i = line :: lines.drop (i + 1) := by
      rw [List.drop_eq_getElem_cons hlt, (List.getElem?_eq_some_iff.mp hline).2]
    have hdead : ∀ f, use.reads line f = false ∧
        (use.writes line f = true ∨ use.dead f (lines.drop (i + 1)) = true) := by
      intro f
      have hover := h i hpop f
      rwa [Access.overwritten_iff, hdrop, Access.dead_cons] at hover
    refine ⟨fun f => (hdead f).1, fun _ f hw => ?_⟩
    rw [Access.overwritten_iff]
    exact (hdead f).2.resolve_left (by simp [hw])
  · intro h i hpop f
    rw [popAt_checkFlagDefUse] at hpop
    split_ifs at hpop
    rw [Access.overwritten_iff]
    exact (h.drop i).dead (Option.some.inj hpop) f

/-- **Flag safety of the inserted masks.** The scan lets a mask clobber the flags only where all of
them are overwritten before they are read, exactly if the lines are as it takes for granted. Then no
flag values at all in front of such a line change what the program observes. -/
theorem flag_masks_sound_iff (use : Access Line Flag) (lines : List Line) :
    ((∀ i, popAt (checkFlagDefUse lines) i = some true → ∀ f, use.Overwritten lines i f) ↔
        ScanSound use lines) ∧
      (ScanSound use lines → ∀ (σ : Type) (step : Line → σ × (Flag → Bool) → σ × (Flag → Bool)),
        use.Obeys step → ∀ i, popAt (checkFlagDefUse lines) i = some true → ∀ s g g',
          use.observations step (lines.drop i) (s, g) =
              use.observations step (lines.drop i) (s, g') ∧
            (lines.drop i).foldl (fun c l => step l c) (s, g) =
              (lines.drop i).foldl (fun c l => step l c) (s, g')) := by
  refine ⟨scanSound_iff use lines, fun hsound σ step hobey i hpop s g g' => ?_⟩
  refine hobey.observations_eq (lines.drop i) s fun f => Or.inl ?_
  rw [← Access.overwritten_iff]
  exact (scanSound_iff use lines).mpr hsound i hpop f

def statusFlags : List Flag := [.cf, .pf, .af, .zf, .sf, .of]

/-- The flags each condition code tests. -/
def conditionFlags : List (String × List Flag) :=
  [("O", [.of]), ("NO", [.of]), ("B", [.cf]), ("AE", [.cf]), ("Z", [.zf]), ("NZ", [.zf]),
    ("BE", [.cf, .zf]), ("A", [.cf, .zf]), ("S", [.sf]), ("NS", [.sf]), ("PE", [.pf]),
    ("NP", [.pf]), ("L", [.sf, .of]), ("GE", [.sf, .of]), ("LE", [.zf, .sf, .of]),
    ("G", [.zf, .sf, .of])]

def x86Reads (line : Line) : List Flag :=
  match conditionFlags.find? fun c =>
    line.name = "J" ++ c.1 ∨ line.name = "SET" ++ c.1 ∨ line.name = "CMOV" ++ c.1 with
  | some c => c.2
  | none =>
      if line.name ∈ ["ADC", "SBB", "RCL", "RCR", "CMC"] then [.cf]
      else if line.name = "LAHF" then [.cf, .pf, .af, .zf, .sf]
      else if line.name = "PUSHF" ∨ line.name = "SYSCALL" then statusFlags
      else []

/-- A shift by a constant that is not zero writes all flags, a shift by CL may write none. -/
def x86Writes (line : Line) : List Flag :=
  if line.name ∈ ["ADD", "ADC", "SUB", "SBB", "CMP", "NEG", "AND", "OR", "XOR", "TEST", "MUL",
    "IMUL", "DIV", "IDIV", "XADD", "CMPXCHG", "POPF"] then statusFlags
  else if line.name = "INC" ∨ line.name = "DEC" then [.pf, .af, .zf, .sf, .of]
  else if line.name ∈ ["ROL", "ROR", "RCL", "RCR"] then [.cf, .of]
  else if line.name ∈ ["CLC", "STC", "CMC"] then [.cf]
  else if line.name ∈ ["SHL", "SAL", "SHR", "SAR"] then
    match line.args with
    | _ :: .int n :: _ => if n.arg % 64 = 0 then [] else statusFlags
    | _ => []
  else []

/-- The status flags of the mnemonics in the two lists and of their relatives, from the instruction
set reference; a flag it leaves undefined counts as written. -/
def x86Flags : Access Line Flag where
  reads line f := f ∈ x86Reads line
  writes line f := f ∈ x86Writes line

/-- `MOV RAX, [RBX]` -/
def loadLine : Line :=
  { name := "MOV", args := [.id (.gpr .rax .q), .mem 64 none (.id (.gpr .rbx .q))], l := 3 }

/-- `NOT RAX` -/
def notLine : Line := { name := "NOT", args := [.id (.gpr .rax .q)], l := 3 }

def jzLine : Line := { name := "JZ", args := [.loc 0x401010], l := 2 }

/-- NOT matches `ops_def_flags` and writes no flag: the mask of the load in front of it is let
through, and JZ reads what the mask leaves in ZF. -/
theorem flag_scan_unsound_at_not :
    popAt (checkFlagDefUse [loadLine, notLine, jzLine]) 0 = some true ∧
      ¬x86Flags.Overwritten [loadLine, notLine, jzLine] 0 .zf := by
  rw [Access.overwritten_iff]
  decide

/-- `ADD RAX, 1` -/
def addOneLine : Line := { name := "ADD", args := [.id (.gpr .rax .q), .int ⟨1, 64⟩], l := 4 }

theorem flag_masks_sound_at_add :
    popAt (checkFlagDefUse [loadLine, addOneLine, jzLine]) 0 = some true ∧
      ∀ i, popAt (checkFlagDefUse [loadLine, addOneLine, jzLine]) i = some true →
        ∀ f, x86Flags.Overwritten [loadLine, addOneLine, jzLine] i f := by
  refine ⟨by decide, (flag_masks_sound_iff x86Flags _).1.mpr ?_⟩
  rintro (_ | _ | _ | i) line hline hcheck
  · cases hline
    exact ⟨fun f => by cases f <;> decide, fun h => absurd h (by decide)⟩
  · cases hline
    exact ⟨fun f => by cases f <;> decide, fun _ f hf => by cases f <;> cases hf⟩
  · exact absurd hcheck (by decide)
  · cases hline

end UserspaceBypass
