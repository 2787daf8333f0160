import UserspaceBypass.TranslateFile
import UserspaceBypass.SimulateConflict
import Mathlib.Logic.Relation

/-! Running the file across its labels. The code under a label runs until a jump is taken, and goes
on under the label of the jump. The ladder under `ij_x` compares R14 with one target after another;
on its way it changes R15 and the flags, and nothing else. -/

namespace UserspaceBypass

open Layout StraightLine

/-- Is the jump taken? -/
def taken (name : String) (c : Machine) : Bool :=
  let flags := c.env.flags
  let rcx := c.regs (.gpr .rcx)
  match name with
  | "JMP" | "JMPF" => true
  | "JO" => flags .of
  | "JNO" => !flags .of
  | "JB" => flags .cf
  | "JAE" => !flags .cf
  | "JZ" => flags .zf
  | "JNZ" => !flags .zf
  | "JBE" => flags .cf || flags .zf
  | "JA" => !(flags .cf || flags .zf)
  | "JS" => flags .sf
  | "JNS" => !flags .sf
  | "JPE" => flags .pf
  | "JNP" => !flags .pf
  | "JL" => flags .sf != flags .of
  | "JGE" => flags .sf == flags .of
  | "JLE" => flags .zf || flags .sf != flags .of
  | "JG" => !flags .zf && flags .sf == flags .of
  | "JCXZ" => Width.w.get rcx == 0
  | "JECXZ" => Width.d.get rcx == 0
  | "JRCXZ" => rcx == 0
  | _ => false

/-- Run code up to the first jump that is taken. -/
def leaves (isa : Isa) : List Asm → Machine → Option (Label × Machine)
  | [], _ => none
  | .jump name target :: rest, c =>
      if taken name c then some (target, c) else leaves isa rest c
  | line :: rest, c => (line.exec isa c).bind (leaves isa rest)

/-- Run the code under a label: up to the first jump that is taken, or past its end to `next`. -/
def runs (isa : Isa) (next : Option Label) : List Asm → Machine → Option (Label × Machine)
  | [], c => next.map fun l => (l, c)
  | .jump name target :: rest, c =>
      if taken name c then some (target, c) else runs isa next rest c
  | line :: rest, c => (line.exec isa c).bind (runs isa next rest)

section Runs

variable {isa : Isa} {next : Option Label} {text rest : List Asm} {c : Machine}

theorem runs_cons {a : Asm} (ha : a.isJump = false) :
    runs isa next (a :: rest) c = (a.exec isa c).bind (runs isa next rest) := by
  cases a with
  | jump name target => cases ha
  | _ => rfl

/-- Text without jumps runs to its end. -/
theorem runs_append (h : ∀ a ∈ text, a.isJump = false) :
    runs isa next (text ++ rest) c = (execText isa text c).bind (runs isa next rest) := by
  induction text generalizing c with
  | nil => rfl
  | cons a text ih =>
      obtain ⟨ha, htext⟩ := List.forall_mem_cons.mp h
      rw [List.cons_append, runs_cons ha, execText, runAll_cons]
      cases a.exec isa c with
      | none => rfl
      | some c₁ => exact ih htext

theorem runs_append_some (h : ∀ a ∈ text, a.isJump = false) {c' : Machine}
    (hexec : execText isa text c = some c') :
    runs isa next (text ++ rest) c = runs isa next rest c' := by
  rw [runs_append h, hexec, Option.bind_some]

/-- Text that ends in an unconditional jump. -/
theorem runs_jump (h : ∀ a ∈ text, a.isJump = false) {c' : Machine}
    (hexec : execText isa text c = some c') (target : Label) :
    runs isa next (text ++ [.jump "JMP" target] ++ rest) c = some (target, c') := by
  rw [List.append_assoc, runs_append_some h hexec]
  rfl

end Runs

/-- From label to label. -/
def Goes (isa : Isa) (file : List (Item Label Asm)) (p q : Label × Machine) : Prop :=
  leaves isa (codeAt file p.1) p.2 = some q

/-- The code comes to `exit` in the machine `c'`. -/
def Exits (isa : Isa) (file : List (Item Label Asm)) (code : List Asm) (c c' : Machine) : Prop :=
  ∃ p, leaves isa code c = some p ∧ Relation.ReflTransGen (Goes isa file) p (.exit, c')

/-- CMP of two registers sets ZF if they are equal, and writes nothing but flags. -/
def Isa.Compares (isa : Isa) : Prop :=
  ∀ a b hidden env, ∃ e, isa.exec "CMP" [.reg 64 a, .reg 64 b] hidden env = some e ∧
    e.env.flags .zf = decide (a = b) ∧ e.env.mem = env.mem ∧ e.env.vec = env.vec ∧
    (∀ w ∈ e.writes, w = none) ∧ ∀ g, e.hidden g = none

/-- `jump_table`: sources and targets are addresses, and no source is one of the codes that
`args[0]` has besides. -/
structure JumpTable where
  entries : List (Nat × List Nat)
  nodup : (entries.map Prod.fst).Nodup
  source : ∀ entry ∈ entries, 1 < entry.1 ∧ entry.1 < 2 ^ 64
  target : ∀ entry ∈ entries, ∀ t ∈ entry.2, t < 2 ^ 64

/-- Nothing but R15 and the flags differs. -/
structure OnlyR15 (c c' : Machine) : Prop where
  regs : ∀ f, f ≠ .gpr .r15 → c'.regs f = c.regs f
  mem : c'.env.mem = c.env.mem
  vec : c'.env.vec = c.env.vec
  frame : c'.frame = c.frame

section Ladder

variable {isa : Isa} {c : Machine}

theorem OnlyR15.trans {c' c'' : Machine} (h : OnlyR15 c c') (h' : OnlyR15 c' c'') :
    OnlyR15 c c'' where
  regs f hf := (h'.regs f hf).trans (h.regs f hf)
  mem := h'.mem.trans h.mem
  vec := h'.vec.trans h.vec
  frame := h'.frame.trans h.frame

theorem onlyR15_movabs (c : Machine) (n : Nat) :
    OnlyR15 c (c.setReg .p15 (BitVec.ofNat 64 n)) where
  regs _ hf := Function.update_of_ne hf ..
  mem := rfl
  vec := rfl
  frame := rfl

/-- The comparison of the ladder. -/
theorem exec_compare (hisa : isa.Compares) (c : Machine) :
    ∃ env, (Asm.inst "CMP" [.reg (.gpr .r14 .q), .reg (.gpr .r15 .q)]).exec isa c =
        some { c with env := env } ∧
      env.flags .zf = decide (c.regs (.gpr .r14) = c.regs (.gpr .r15)) ∧
      env.mem = c.env.mem ∧ env.vec = c.env.vec := by
  obtain ⟨e, he, hzf, hmem, hvec, hwrites, hhidden⟩ :=
    hisa (c.regs (.gpr .r14)) (c.regs (.gpr .r15)) (hiddenRegs c.regs) c.env
  refine ⟨e.env, ?_, hzf, hmem, hvec⟩
  have hoperands : [Arg.reg (.gpr .r14 .q), .reg (.gpr .r15 .q)].map (Arg.eval (readReg 0 c.regs)) =
      [.reg 64 (c.regs (.gpr .r14)), .reg 64 (c.regs (.gpr .r15))] := by
    simp [Arg.eval, readReg, Width.get_q, ExprId.size, Width.bits]
  rw [Asm.exec, execInst]
  dsimp only [Machine.state]
  rw [hoperands, he, Option.map_some, Option.map_some, writeArgs_none hwrites,
    writeHidden_none hhidden]

/-- One rung: the comparison with one target. -/
theorem leaves_rung (hisa : isa.Compares) (c : Machine) (t : Nat) (rest : List Asm) :
    ∃ c', OnlyR15 c c' ∧ leaves isa (.movabs .p15 t ::
        .inst "CMP" [.reg (.gpr .r14 .q), .reg (.gpr .r15 .q)] :: .jump "JZ" (.loc t) :: rest) c =
      if c.regs (.gpr .r14) = BitVec.ofNat 64 t then some (.loc t, c') else leaves isa rest c' := by
  obtain ⟨env, hexec, hzf, hmem, hvec⟩ :=
    exec_compare hisa (c.setReg .p15 (BitVec.ofNat 64 t))
  have hr14 : (c.setReg .p15 (BitVec.ofNat 64 t)).regs (.gpr .r14) = c.regs (.gpr .r14) :=
    (onlyR15_movabs c t).regs _ (by decide)
  have hr15 : (c.setReg .p15 (BitVec.ofNat 64 t)).regs (.gpr .r15) = BitVec.ofNat 64 t :=
    setReg_regs_self c .p15 _
  rw [hr14, hr15] at hzf
  have hmov := onlyR15_movabs c t
  refine ⟨{ c.setReg .p15 (BitVec.ofNat 64 t) with env := env },
    ⟨hmov.regs, hmem.trans hmov.mem, hvec.trans hmov.vec, rfl⟩, ?_⟩
  have htaken : taken "JZ" { c.setReg .p15 (BitVec.ofNat 64 t) with env := env } =
      decide (c.regs (.gpr .r14) = BitVec.ofNat 64 t) := hzf
  have hmovabs : (Asm.movabs .p15 t).exec isa c = some (c.setReg .p15 (BitVec.ofNat 64 t)) := rfl
  simp only [leaves, hmovabs, hexec, Option.bind_some, htaken, decide_eq_true_eq]

/-- R14 holds a target of the ladder: control goes to the label of that target. -/
theorem ladder_hit (hisa : isa.Compares) {x t : Nat} {targets : List Nat}
    (hrange : ∀ t ∈ targets, t < 2 ^ 64) (ht : t ∈ targets)
    (hr14 : c.regs (.gpr .r14) = BitVec.ofNat 64 t) :
    ∃ c', leaves isa (ladder x targets) c = some (.loc t, c') ∧ OnlyR15 c c' := by
  induction targets generalizing c with
  | nil => cases ht
  | cons t' targets ih =>
      obtain ⟨ht', hrest⟩ := List.forall_mem_cons.mp hrange
      obtain ⟨c₁, honly, hleaves⟩ := leaves_rung hisa c t' (ladder x targets)
      by_cases heq : c.regs (.gpr .r14) = BitVec.ofNat 64 t'
      · have htt' : t = t' := by
          have hmod := congrArg BitVec.toNat (hr14.symm.trans heq)
          rwa [BitVec.toNat_ofNat, BitVec.toNat_ofNat, Nat.mod_eq_of_lt (hrange t ht),
            Nat.mod_eq_of_lt ht'] at hmod
        subst htt'
        rw [if_pos heq] at hleaves
        exact ⟨c₁, hleaves, honly⟩
      · have hmem : t ∈ targets := by
          rcases List.mem_cons.mp ht with rfl | hmem
          · exact absurd hr14 heq
          · exact hmem
        rw [if_neg heq] at hleaves
        have hr14' : c₁.regs (.gpr .r14) = BitVec.ofNat 64 t :=
          (honly.regs _ (by decide)).trans hr14
        obtain ⟨c₂, hrun, honly'⟩ := ih hrest hmem hr14'
        exact ⟨c₂, hleaves.trans hrun, honly.trans honly'⟩

/-- R14 holds none of them: control goes to `ij_failed`, with the source in R15. -/
theorem ladder_miss (hisa : isa.Compares) {x : Nat} {targets : List Nat}
    (hr14 : ∀ t ∈ targets, c.regs (.gpr .r14) ≠ BitVec.ofNat 64 t) :
    ∃ c', leaves isa (ladder x targets) c = some (.ijFailed, c') ∧ OnlyR15 c c' ∧
      c'.regs (.gpr .r15) = BitVec.ofNat 64 x := by
  induction targets generalizing c with
  | nil => exact ⟨_, rfl, onlyR15_movabs c x, setReg_regs_self c .p15 _⟩
  | cons t targets ih =>
      obtain ⟨hne, hrest⟩ := List.forall_mem_cons.mp hr14
      obtain ⟨c₁, honly, hleaves⟩ := leaves_rung hisa c t (ladder x targets)
      rw [if_neg hne] at hleaves
      have hrest' : ∀ t ∈ targets, c₁.regs (.gpr .r14) ≠ BitVec.ofNat 64 t := fun t ht => by
        rw [honly.regs _ (by decide)]
        exact hrest t ht
      obtain ⟨c₂, hrun, honly', hr15⟩ := ih hrest'
      exact ⟨c₂, hleaves.trans hrun, honly.trans honly', hr15⟩

end Ladder

section File

variable {entry : Nat} {emitted : List (Nat × List Emitted)} {jumpTable : List (Nat × List Nat)}
  {callees : List Nat}

/-- The code under the label of an indirect jump is its ladder. -/
theorem codeAt_ij (hnodup : (jumpTable.map Prod.fst).Nodup) {x : Nat} {targets : List Nat}
    (hmem : (x, targets) ∈ jumpTable) :
    codeAt (jitFile entry emitted jumpTable callees) (.ij x) = ladder x targets := by
  obtain ⟨before, after, rfl⟩ := List.append_of_mem hmem
  rw [List.map_append, List.map_cons] at hnodup
  have hx : x ∉ before.map Prod.fst := fun h =>
    (List.nodup_append.mp hnodup).2.2 x h x List.mem_cons_self rfl
  rw [jitFile, makeJumpTable, List.map_append, List.map_cons]
  simp only [List.append_assoc, List.cons_append]
  rw [← List.append_assoc]
  exact codeAt_sections (by simpa using hx)

/-- The code under the label of a callee that has no block is its stub. -/
theorem codeAt_callee {callee : Nat} (hmem : callee ∈ callees)
    (hmissing : callee ∉ emitted.map Prod.fst) :
    codeAt (jitFile entry emitted jumpTable callees) (.loc callee) = calleeStub callee := by
  obtain ⟨before, after, rfl, hbefore⟩ := List.eq_append_cons_of_mem hmem
  rw [jitFile, makeCalleeTable, List.map_append, List.map_cons]
  simp only [List.append_assoc, List.cons_append]
  rw [← List.append_assoc, ← List.append_assoc]
  refine codeAt_sections ?_
  simp only [makeJumpTable, List.map_append, List.map_map, List.mem_append, List.mem_map,
    Function.comp_apply, Label.loc.injEq, reduceCtorEq, and_false, exists_false, or_false,
    exists_eq_right, not_or]
  exact ⟨by simpa using hmissing, hbefore⟩

/-- The code under a label of `wrapper.S`. -/
theorem codeAt_wrapper {l : Label} {code : List Asm} {before after : List (Label × List Asm)}
    (hloc : ∀ a, l ≠ .loc a) (hij : ∀ x, l ≠ .ij x)
    (hsplit : wrapperLabels = before ++ (l, code) :: after) (hbefore : l ∉ before.map Prod.fst) :
    codeAt (jitFile entry emitted jumpTable callees) l = code := by
  rw [jitFile, hsplit, ← List.append_assoc]
  refine codeAt_sections ?_
  simp only [makeJumpTable, makeCalleeTable, List.map_append, List.map_map, List.mem_append,
    List.mem_map, Function.comp_apply, not_or, not_exists, not_and]
  refine ⟨⟨⟨fun b _ h => hloc _ h.symm, fun b _ h => hij _ h.symm⟩,
    fun b _ h => hloc _ h.symm⟩, fun part hpart h => hbefore (h ▸ List.mem_map_of_mem hpart)⟩

theorem codeAt_compSyscall : codeAt (jitFile entry emitted jumpTable callees) .compSyscall =
    [.setIj 0, .jump "JMP" .exit] :=
  @codeAt_wrapper _ _ _ _ _ _ [] _ nofun nofun rfl (by simp)

theorem codeAt_ijFailed : codeAt (jitFile entry emitted jumpTable callees) .ijFailed =
    [.saveIj .p15, .jump "JMP" .exit] :=
  @codeAt_wrapper _ _ _ _ _ _ [_] _ nofun nofun rfl (by simp)

theorem codeAt_exit : codeAt (jitFile entry emitted jumpTable callees) .exit = [] :=
  @codeAt_wrapper _ _ _ _ _ _ [_, _, _, _] _ nofun nofun rfl (by simp)

end File

/-- Code that jumps to a label whose code goes straight to the exit has no other way out. -/
theorem exits_unique {isa : Isa} {file : List (Item Label Asm)} {code : List Asm}
    {c c₁ c₂ c' : Machine} {l : Label} (hleaves : leaves isa code c = some (l, c₁)) (hl : l ≠ .exit)
    (hgoes : Goes isa file (l, c₁) (.exit, c₂)) (hexit : codeAt file .exit = [])
    (h : Exits isa file code c c') : c' = c₂ := by
  obtain ⟨p, hp, hpath⟩ := h
  cases hleaves.symm.trans hp
  rcases hpath.cases_head with heq | ⟨q, hq, hpath⟩
  · exact absurd (congrArg Prod.fst heq) hl
  · cases Option.some.inj (hgoes.symm.trans hq)
    rcases hpath.cases_head with heq | ⟨q, hq, -⟩
    · exact (congrArg Prod.snd heq).symm
    · rw [Goes, hexit] at hq
      cases hq

end UserspaceBypass
