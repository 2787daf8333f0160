import UserspaceBypass.DisAssem
import UserspaceBypass.LibSimulation
import UserspaceBypass.LineTracks

/-! The whole file next to the program it was made from. The emitted code goes from label to label
until it comes to `exit`; the program goes from line to line. Each time the code is at a label, the
program is at the address the label stands for, in the same state up to flags that are not live.
Where the code exits, R14 is the address the program is at, and `args[0]` says why: a SYSCALL, a
callee that has no block, or the source of an indirect jump whose target is not among those known. -/

namespace UserspaceBypass

open Layout Liveness Memory StraightLine Simulation StateTransition

/-- A run of `dis_assem`, from the dictionary of blocks on. -/
structure Jit where
  world : World
  entry : Nat
  dict : BlockDict
  seed : List (Nat × List Nat)
  sites : Sites
  emitted : List (Nat × List Emitted)
  last : TransState
  found : find dict.items seed = some sites
  run : translateBlocks world (sortedBlocks dict.items) .start = some (emitted, last)

/-- From label to label, up to the exit. -/
def flow (isa : Isa) (file : List (Item Label Asm)) (p : Label × Machine) : Option (Label × Machine) :=
  if p.1 = .exit then none else runs isa (nextLabel file p.1) (codeAt file p.1) p.2

/-- Each line is supported, with the marks that the lines in front of it leave. -/
def LinesSupported (regUse : RegUse) (world : World) : List Emitted → Marks → Prop
  | [], _ => True
  | e :: rest, marks => e.Supported world marks ∧ LinesSupported regUse world rest
      (stepsMarks regUse world e.offset (translate e.line e.blockEnd e.canCheck) e.before marks)

namespace Jit

def file (jit : Jit) : List (Item Label Asm) :=
  jitFile jit.entry jit.emitted jit.sites.jumpTable jit.sites.missing

theorem emitFile_eq (jit : Jit) :
    emitFile jit.world jit.entry jit.dict.items jit.seed = some jit.file := by
  have hrun : translateBlocks jit.world (sortedBlocks jit.dict.items) .start =
      some (jit.emitted, jit.last) := jit.run
  rw [emitFile, jit.found, Option.bind_eq_bind, Option.bind_some, hrun]
  rfl

/-- Every file that `dis_assem` writes is one of these. -/
theorem exists_of_emitFile {world : World} {entry : Nat} {dict : BlockDict}
    {seed : List (Nat × List Nat)} {file : List (Item Label Asm)}
    (h : emitFile world entry dict.items seed = some file) :
    ∃ jit : Jit, jit.world = world ∧ jit.entry = entry ∧ jit.dict = dict ∧ jit.seed = seed ∧
      jit.file = file := by
  obtain ⟨sites, emitted, last, hfind, hrun, rfl⟩ := emitFile_some h
  exact ⟨⟨world, entry, dict, seed, sites, emitted, last, hfind, hrun⟩, rfl, rfl, rfl, rfl, rfl⟩

/-- The addresses that have a label: blocks, and callees without one. -/
def HasLabel (jit : Jit) (a : Nat) : Prop := a ∈ jit.dict.keys ∨ a ∈ jit.sites.missing

/-- No line that is emitted as it is uses the stack without naming it. -/
def NoStackUsers (jit : Jit) : Prop :=
  ∀ b ∈ jit.dict.items, ∀ line ∈ b.2.lines, line.IsOrdinary → ¬UsesStack (getInstName line)

/-- What makes the translation right. The lines are those of the program and are supported, and none
of them is outside the instruction set; `live` is right about every line; where a block can run to its
end it has its successor behind it, and no other block in between; and a ladder leads to addresses
that have a label, where no flag is live. -/
structure Certified (jit : Jit) (regUse : RegUse) (use : Access Line Flag) (live : Nat → Flag → Bool)
    (code : Nat → Option Line) : Prop where
  seed : (Dict.keys jit.seed).Nodup
  code : ∀ e ∈ allEnds jit.dict.items, code (e.1 - e.2.l) = some e.2
  proper : ∀ b ∈ jit.dict.items, ∀ line ∈ b.2.lines, line.Proper
  decoded : ∀ b ∈ jit.dict.items, b.2.lines ≠ []
  stack : jit.NoStackUsers
  supported : ∀ b ∈ jit.emitted, LinesSupported regUse jit.world b.2 .start
  flags : ∀ b ∈ jit.emitted, ∀ e ∈ b.2, e.Flow use live
  falls : ∀ b ∈ jit.dict.items, ∀ line ∈ b.2.lines.getLast?,
    b.2.endFrom b.1 ∈ line.targets (b.2.endFrom b.1 - line.l) →
      b.2.endFrom b.1 ∈ b.2.bto ∧ ∀ k ∈ jit.dict.keys, ¬(b.1 < k ∧ k < b.2.endFrom b.1)
  ladder : ∀ entry ∈ jit.sites.jumpTable, ∀ t ∈ entry.2,
    t < 2 ^ 64 ∧ jit.HasLabel t ∧ ∀ f, live t f = false

/-- Along the program's run no register is masked that has bit 63 set. -/
def StaysClear (jit : Jit) (isa : Isa) (code : Nat → Option Line) (start : Nat × State) : Prop :=
  ∀ p, Reaches (native isa code) start p → ∀ b ∈ jit.emitted, ∀ e ∈ b.2, e.address = p.1 →
    e.line.IsOrdinary → ∀ r ∈ e.masks, Clear p.2.regs r

/-- Why the code exits, by the word that is in `args[0]` then. -/
inductive Exit (jit : Jit) (code : Nat → Option Line) (pc : Nat) : BitVec 64 → Prop
  | syscall (line : Line) (line_eq : code pc = some line) (name : line.name = "SYSCALL") :
      Exit jit code pc 0
  | callee (missing : pc ∈ jit.sites.missing) : Exit jit code pc 1
  | indirect (x : Nat) (targets : List Nat) (entry : (x, targets) ∈ jit.sites.jumpTable)
      (unknown : pc ∉ targets) : Exit jit code pc (BitVec.ofNat 64 x)

/-- The code at a label, next to the program at an address. -/
inductive Shows (jit : Jit) (live : Nat → Flag → Bool) (code : Nat → Option Line) :
    Label × Machine → Nat × State → Prop
  | block {a : Nat} {c : Machine} {s : State} (label : jit.HasLabel a)
      (agrees : State.Agrees (live a) (abs blockInit c) s) : Shows jit live code (.loc a, c) (a, s)
  | ladder {x pc : Nat} {c : Machine} {s : State} (entry : x ∈ Dict.keys jit.sites.jumpTable)
      (r14 : (c.regs (.gpr .r14)).toNat = pc) (agrees : State.Agrees noFlags (abs blockInit c) s) :
      Shows jit live code (.ij x, c) (pc, s)
  | syscall {pc : Nat} {c : Machine} {s : State} (line : Line) (line_eq : code pc = some line)
      (name : line.name = "SYSCALL") (r14 : c.regs (.gpr .r14) = BitVec.ofNat 64 pc)
      (agrees : State.Agrees noFlags (abs blockInit c) s) : Shows jit live code (.compSyscall, c) (pc, s)
  | failed {x pc : Nat} {c : Machine} {s : State} (targets : List Nat)
      (entry : (x, targets) ∈ jit.sites.jumpTable) (unknown : pc ∉ targets)
      (r14 : (c.regs (.gpr .r14)).toNat = pc) (r15 : c.regs (.gpr .r15) = BitVec.ofNat 64 x)
      (agrees : State.Agrees noFlags (abs blockInit c) s) : Shows jit live code (.ijFailed, c) (pc, s)
  | exit {pc : Nat} {c : Machine} {s : State} (r14 : c.regs (.gpr .r14) = BitVec.ofNat 64 pc)
      (reason : jit.Exit code pc (c.frame ijSlot))
      (agrees : State.Agrees noFlags (abs blockInit c) s) : Shows jit live code (.exit, c) (pc, s)

end Jit

section Stubs

variable {isa : Isa} {next : Option Label} {code : List Asm} {c : Machine}

theorem runs_of_leaves {p : Label × Machine} (h : leaves isa code c = some p) :
    runs isa next code c = some p := by
  induction code generalizing c with
  | nil => cases h
  | cons a code ih =>
      cases a with
      | jump name target =>
          by_cases htaken : taken name c = true
          · rw [leaves, if_pos htaken] at h
            rw [runs, if_pos htaken, h]
          · rw [leaves, if_neg htaken] at h
            rw [runs, if_neg htaken, ih h]
      | _ =>
          obtain ⟨c₁, hexec, hrest⟩ := Option.bind_eq_some_iff.mp h
          rw [runs_cons rfl, hexec]
          exact ih hrest

theorem ofNat_toNat_word (x : BitVec 64) : BitVec.ofNat 64 x.toNat = x := by simp

/-- `args[0]` is no slot of a register. -/
theorem abs_setIj (m : RegMap) (c : Machine) (value : BitVec 64) :
    abs m (c.setSlot ijSlot value) = abs m c := by
  have hslot : ∀ v : Virt, v.slot ≠ some ijSlot := by
    intro v
    cases v <;> decide
  have hvalue : ∀ v, virtValue m (c.setSlot ijSlot value) v = virtValue m c v := by
    intro v
    rw [virtValue, virtValue]
    cases invMap m v with
    | some p => rfl
    | none =>
        cases hk : v.slot with
        | none => rfl
        | some k =>
            have hne : k ≠ ijSlot := fun h => hslot v (hk.trans (congrArg some h))
            exact Function.update_of_ne hne _ _
  refine congrArg (State.mk · _) (funext fun f => ?_)
  cases hv : f.virt with
  | none => rw [absRegs_plain hv, absRegs_plain hv]; rfl
  | some v => rw [absRegs_virt hv, absRegs_virt hv, hvalue]

end Stubs

section Transfers

variable {isa : Isa} {world : World} {marks : Marks} {e : Emitted}

/-- What a supported line can do, by where control goes. -/
theorem Emitted.Supported.transfers (h : e.Supported world marks) {address : Nat} {s s' : State}
    {control : Control} (hexec : e.line.exec isa address s = some (s', control)) :
    match control with
    | .next => address + e.line.l ∈ e.line.targets address
    | .block a => e.line.callee = some a ∨
        (e.line.name ∈ conditionalBranch ∨ e.line.name ∈ unconditionalBranch) ∧ e.line.args = [.loc a]
    | .through _ => e.line.IsIndirect
    | .out a => e.line.name = "SYSCALL" ∧ a = BitVec.ofNat 64 address ∧ s' = s := by
  cases h with
  | special sp hdec hhandled _ _ =>
      rw [Line.exec_special hdec] at hexec
      have hpair := Option.some.inj hexec
      rw [Line.targets_special hdec]
      have hname := hdec.name
      cases sp with
      | call target =>
          obtain ⟨hargs, hlegal | ⟨a, rfl⟩⟩ := hdec.form
          · rcases hlegal.cases with ⟨g, rfl⟩ | ⟨segm, ptr, rfl, -⟩
            · cases hpair
              exact Or.inr ⟨Or.inl hname, by simp [hargs]⟩
            · cases hhandled.2.2
          · cases hpair
            exact Or.inl (callee_eq_some hname hargs)
      | ret release =>
          cases hpair
          exact Or.inl hname
      | syscall =>
          cases hpair
          exact ⟨hname, rfl, rfl⟩
      | pushf => cases hhandled
      | popf => cases hhandled
      | invlpg => cases hhandled
      | _ =>
          cases hpair
          exact List.mem_singleton_self _
  | branch hname a hargs =>
      rw [Line.exec_branch hname, hargs] at hexec
      have hpair := Option.some.inj hexec
      by_cases htakes : s.takes e.line.name = true
      · rw [if_pos htakes] at hpair
        cases hpair
        exact Or.inr ⟨hname, hargs⟩
      · rw [if_neg htakes] at hpair
        cases hpair
        have hcond : e.line.name ∈ conditionalBranch := by
          refine hname.resolve_right fun huncond => htakes ?_
          rcases List.mem_pair.mp huncond with h | h <;> rw [h] <;> rfl
        dsimp only
        rw [Line.targets, if_neg (branch_not_special hname), if_pos hname, hargs]
        dsimp only
        rw [if_pos hcond]
        exact List.mem_cons_of_mem _ (List.mem_singleton_self _)
  | jump hname arg hargs hlegal _ =>
      have hbranch : e.line.name ∈ conditionalBranch ∨ e.line.name ∈ unconditionalBranch :=
        Or.inr (by rw [hname]; decide)
      rw [Line.exec_branch hbranch, hargs] at hexec
      have hjump : e.line.isJ = true := by
        rw [Line.isJ, hname]
        decide
      rcases hlegal.cases with ⟨g, rfl⟩ | ⟨segm, ptr, rfl, -⟩
      · cases hexec
        exact Or.inr ⟨Or.inr hjump, by simp [hargs]⟩
      · cases hexec
        exact Or.inr ⟨Or.inr hjump, by simp [hargs]⟩
  | ordinary hplain _ _ =>
      rw [Line.exec, if_neg hplain.1, if_neg hplain.2] at hexec
      obtain ⟨s₁, -, hpair⟩ := Option.map_eq_some_iff.mp hexec
      cases hpair
      dsimp only
      rw [Line.targets, if_neg hplain.1, if_neg hplain.2]
      exact List.mem_singleton_self _

end Transfers

/-- What there is to know about an emitted line. -/
structure Jit.HasLine (jit : Jit) (use : Access Line Flag) (live : Nat → Flag → Bool)
    (code : Nat → Option Line) (e : Emitted) : Prop where
  mem : ∃ b ∈ jit.emitted, e ∈ b.2
  regular : e.Regular jit.world
  proper : e.line.Proper
  flags : e.Flow use live
  address : e.address + e.line.l = e.offset
  code : code e.address = some e.line
  indirect : e.line.IsIndirect → e.offset ∈ Dict.keys jit.sites.jumpTable
  callee : ∀ a, e.line.callee = some a → jit.HasLabel a
  branch : e.line.name ∈ conditionalBranch ∨ e.line.name ∈ unconditionalBranch →
    ∀ a, e.line.args = [.loc a] → jit.HasLabel a

section Lines

variable {jit : Jit} {isa : Isa} {regUse : RegUse} {use : Access Line Flag}
  {live : Nat → Flag → Bool} {code : Nat → Option Line}

theorem Jit.Certified.hasLine (h : jit.Certified regUse use live code) {b : Nat × List Emitted}
    (hb : b ∈ jit.emitted) {e : Emitted} (he : e ∈ b.2) : jit.HasLine use live code e := by
  have hends := emitted_mem_allEnds jit.run hb he
  have hgrows := find_grows jit.found
  obtain ⟨block, t₁, t₂, hmem, hblock⟩ := translateBlocks_mem jit.run hb
  have hmem := mem_sortedBlocks.mp hmem
  obtain ⟨before, after, hlines, hoffset⟩ := translateLines_mem hblock he
  have hline : e.line ∈ block.lines := by
    rw [hlines]
    exact List.mem_append_right _ List.mem_cons_self
  obtain ⟨hregular, -⟩ := translateBlocks_regular (fun b hb line hl =>
    (h.proper b (mem_sortedBlocks.mp hb) line hl).toDecoded) Heap.matches_fresh jit.run
  exact {
    mem := ⟨b, hb, he⟩
    regular := (hregular b hb e he).1
    proper := h.proper _ hmem _ hline
    flags := h.flags b hb e he
    address := by
      rw [Emitted.address, hoffset]
      omega
    code := h.code _ hends
    indirect := hgrows.indirect _ hends
    callee := by
      intro a ha
      by_cases hkey : a ∈ jit.dict.keys
      · exact Or.inl hkey
      · exact Or.inr ((hgrows.missing a).mpr (Or.inr ⟨⟨_, hends, ha⟩, hkey⟩))
    branch := by
      intro hname a hargs
      exact Or.inl (jit.dict.closed _ hmem a (jit.dict.branch _ hmem _ hline hname a ⟨[], hargs⟩)) }

/-- One line: control goes on to the next one, or the code leaves the block next to the program, or
the program faults. -/
theorem Jit.HasLine.matched {e : Emitted} {marks marks' : Marks} {c : Machine} {s : State}
    (hline : jit.HasLine use live code e) (hsupported : e.Supported jit.world marks)
    (htracks : e.Tracks isa live marks' c (e.line.exec isa e.address s)) :
    ((∀ next rest, runs isa next (e.text ++ rest) c = none) ∧ Faults isa code (e.address, s)) ∨
    (∃ s' c', (∀ next rest, runs isa next (e.text ++ rest) c = runs isa next rest c') ∧
      native isa code (e.address, s) = some (e.offset, s') ∧ e.offset ∈ e.line.targets e.address ∧
      InBlock marks' e.after c' ∧ (e.blockEnd = true → Settled e.after.regMap c') ∧
      State.Agrees (live e.offset) (abs e.after.regMap c') s') ∨
    ∃ x y, (∀ next rest, runs isa next (e.text ++ rest) c = some x) ∧ jit.Shows live code x y ∧
      (native isa code (e.address, s) = some y ∨ x.1 = .compSyscall ∧ y = (e.address, s)) := by
  have hnative : ∀ {s' control pc}, e.line.exec isa e.address s = some (s', control) →
      control.pc e.offset = some pc → native isa code (e.address, s) = some (pc, s') := by
    intro s' control pc hexec hpc
    rw [← hline.address] at hpc
    exact native_eq hline.code hexec hpc
  generalize hexec : e.line.exec isa e.address s = result at htracks
  cases htracks with
  | faults hrun => exact Or.inl ⟨hrun, _, hline.code, hexec⟩
  | next hrun hin hsettled hagree =>
      have htargets := hsupported.transfers hexec
      dsimp only at htargets
      rw [hline.address] at htargets
      exact Or.inr (Or.inl ⟨_, _, hrun, hnative hexec rfl, htargets, hin, hsettled, hagree⟩)
  | block hrun hagree =>
      have hlabel : jit.HasLabel _ := (hsupported.transfers hexec).elim (hline.callee _) fun h =>
        hline.branch h.1 _ h.2
      exact Or.inr (Or.inr ⟨_, _, hrun, .block hlabel hagree, Or.inl (hnative hexec rfl)⟩)
  | through hrun hr14 hagree =>
      have hentry := hline.indirect (hsupported.transfers hexec)
      exact Or.inr (Or.inr ⟨_, _, hrun, .ladder hentry (congrArg BitVec.toNat hr14) hagree,
        Or.inl (hnative hexec rfl)⟩)
  | out hrun hr14 hagree =>
      obtain ⟨hname, rfl, rfl⟩ := hsupported.transfers hexec
      exact Or.inr (Or.inr ⟨_, (e.address, _), hrun, .syscall _ hline.code hname hr14 hagree,
        Or.inr ⟨rfl, rfl⟩⟩)

/-- The code of the rest of a block, next to the program. -/
theorem Jit.lines_matched (hisa : isa.Respects regUse) (hwords : isa.Words) (hobeys : isa.Obeys use)
    {start : Nat × State} (hclear : jit.StaysClear isa code start) {next : Option Label}
    {lines : List Line} {offset : Nat} {canCheck : List Bool} {t t' : TransState} {own : List Emitted}
    {marks : Marks} {c : Machine} {s : State}
    (hrun : translateLines jit.world lines offset canCheck t = some (own, t')) (hne : lines ≠ [])
    (hlines : ∀ e ∈ own, jit.HasLine use live code e)
    (hsupported : LinesSupported regUse jit.world own marks)
    (hfalls : ∀ e ∈ own.getLast?, e.offset ∈ e.line.targets e.address →
      next = some (.loc e.offset) ∧ jit.HasLabel e.offset)
    (hin : InBlock marks t c) (hagree : State.Agrees (live offset) (abs t.regMap c) s)
    (hreach : Reaches (native isa code) start (offset, s)) :
    (runs isa next (emittedText own) c = none ∧
      ∃ y, Reaches (native isa code) (offset, s) y ∧ Faults isa code y) ∨
    ∃ x y, runs isa next (emittedText own) c = some x ∧ jit.Shows live code x y ∧
      (Reaches₁ (native isa code) (offset, s) y ∨ x.1 = .compSyscall ∧ y = (offset, s)) := by
  induction lines generalizing offset canCheck t own marks c s with
  | nil => exact absurd rfl hne
  | cons line lines ih =>
      obtain ⟨heap, flag, text, after, rest, -, -, -, hrest, rfl⟩ := translateLines_cons hrun
      generalize he : (⟨line, offset + line.l, lines.isEmpty, flag, { t with heap := heap }, text,
        after⟩ : Emitted) = e at *
      obtain ⟨hline, hlines⟩ := List.forall_mem_cons.mp hlines
      obtain ⟨hsup, hsupported⟩ := hsupported
      obtain rfl : offset = e.address := by
        rw [Emitted.address, ← he]
        exact (Nat.add_sub_cancel _ _).symm
      have hbefore : InBlock marks e.before c := by
        rw [← he]
        exact ⟨hin.temps, hin.seg, hin.clean⟩
      have habs : abs t.regMap c = abs e.before.regMap c := by rw [← he]
      rw [habs] at hagree
      obtain ⟨b, hb, hmem⟩ := hline.mem
      have htracks := line_tracks hisa hwords hobeys hline.regular hline.proper hsup hbefore
        hline.address hline.flags hagree (hclear _ hreach b hb e hmem rfl)
      rcases hline.matched hsup htracks with ⟨hruns, hfault⟩ |
        ⟨s', c', hruns, hnative, htargets, hin', hsettled, hagree'⟩ | ⟨x, y, hruns, hshows, hstep⟩
      · exact Or.inl ⟨hruns _ _, _, .refl, hfault⟩
      · -- on to the next line, or off the end of the block
        have hafter : e.after = after := by rw [← he]
        have hoffset : e.offset = e.address + line.l := by rw [← hline.address, ← he]
        by_cases hlast : lines = []
        · subst hlast
          cases hrest
          have hend : e.blockEnd = true := by rw [← he]; rfl
          obtain ⟨hnext, hlabel⟩ := hfalls e rfl htargets
          have hm := runSteps_mapInv hline.regular.map hline.regular.run
          refine Or.inr ⟨(.loc e.offset, c'), (e.offset, s'), ?_, .block hlabel ?_,
            Or.inl (.single hnative)⟩
          · rw [emittedText, List.flatMap_cons, hruns, hnext]
            rfl
          · exact ((same_blockInit hm (hsettled hend)).symm.agrees _).trans hagree'
        · have hgetLast : ∀ e' ∈ rest.getLast?, e' ∈ (e :: rest).getLast? := by
            intro e' he'
            rw [List.getLast?_cons, Option.mem_def.mp he']
            rfl
          have htext : ∀ next, runs isa next (emittedText (e :: rest)) c =
              runs isa next (emittedText rest) c' := fun next => hruns next _
          rw [hafter] at hin' hagree'
          rw [hoffset] at hagree' hnative
          rw [htext]
          rcases ih hrest hlast hlines hsupported (fun e' he' => hfalls e' (hgetLast e' he')) hin'
            hagree' (hreach.tail hnative) with ⟨hnone, y, hy, hfault⟩ | ⟨x, y, hx, hshows, hy⟩
          · exact Or.inl ⟨hnone, y, hy.head hnative, hfault⟩
          · refine Or.inr ⟨x, y, hx, hshows, Or.inl ?_⟩
            rcases hy with hy | ⟨-, rfl⟩
            · exact .head hnative hy
            · exact .single hnative
      · refine Or.inr ⟨x, y, hruns _ _, hshows, ?_⟩
        exact hstep.imp_left .single

end Lines

/-- How far the code is from a label that stands for an address of its own. -/
def labelRank : Label → Nat
  | .ij _ => 3
  | .loc _ | .ijFailed => 2
  | .compSyscall => 1
  | _ => 0

section Matched

variable {jit : Jit} {isa : Isa} {regUse : RegUse} {use : Access Line Flag}
  {live : Nat → Flag → Bool} {code : Nat → Option Line} {start : Nat × State}

/-- The code at a label, next to a point of the program's run. -/
def Jit.Along (jit : Jit) (isa : Isa) (live : Nat → Flag → Bool) (code : Nat → Option Line)
    (start : Nat × State) (x : Label × Machine) (y : Nat × State) : Prop :=
  Reaches (native isa code) start y ∧ jit.Shows live code x y

/-- What is to be shown at a label. -/
abbrev Jit.Matches (jit : Jit) (isa : Isa) (live : Nat → Flag → Bool) (code : Nat → Option Line)
    (start : Nat × State) : Label × Machine → Nat × State → Prop :=
  Matched (flow isa jit.file) (native isa code) (jit.Along isa live code start) (fun x => x.1 = .exit)
    (Faults isa code) fun x => labelRank x.1

theorem flow_of_ne {file : List (Item Label Asm)} {l : Label} (hl : l ≠ .exit) (c : Machine) :
    flow isa file (l, c) = runs isa (nextLabel file l) (codeAt file l) c := if_neg hl

variable {a x pc : Nat} {c : Machine} {s : State}

theorem Jit.matches_compSyscall (hreach : Reaches (native isa code) start (pc, s)) {line : Line}
    (hline : code pc = some line) (hname : line.name = "SYSCALL")
    (hr14 : c.regs (.gpr .r14) = BitVec.ofNat 64 pc)
    (hagree : State.Agrees noFlags (abs blockInit c) s) :
    jit.Matches isa live code start (.compSyscall, c) (pc, s) := by
  have hflow : flow isa jit.file (.compSyscall, c) = some (.exit, c.setSlot ijSlot 0) := by
    rw [flow_of_ne (by decide), Jit.file, codeAt_compSyscall]
    rfl
  refine .stutter hflow ⟨hreach, .exit hr14 ?_ ?_⟩ Nat.zero_lt_one
  · rw [setSlot_frame_self]
    exact .syscall line hline hname
  · rw [abs_setIj]
    exact hagree

theorem Jit.matches_ijFailed (hreach : Reaches (native isa code) start (pc, s)) {targets : List Nat}
    (hentry : (x, targets) ∈ jit.sites.jumpTable) (hunknown : pc ∉ targets)
    (hr14 : (c.regs (.gpr .r14)).toNat = pc) (hr15 : c.regs (.gpr .r15) = BitVec.ofNat 64 x)
    (hagree : State.Agrees noFlags (abs blockInit c) s) :
    jit.Matches isa live code start (.ijFailed, c) (pc, s) := by
  have hflow : flow isa jit.file (.ijFailed, c) =
      some (.exit, c.setSlot ijSlot (c.regs (.gpr .r15))) := by
    rw [flow_of_ne (by decide), Jit.file, codeAt_ijFailed]
    rfl
  refine .stutter hflow ⟨hreach, .exit ?_ ?_ ?_⟩ Nat.zero_lt_two
  · rw [← hr14]
    exact (ofNat_toNat_word _).symm
  · rw [setSlot_frame_self, hr15]
    exact .indirect x targets hentry hunknown
  · rw [abs_setIj]
    exact hagree

theorem Jit.matches_callee (hreach : Reaches (native isa code) start (a, s))
    (hmissing : a ∈ jit.sites.missing) (hagree : State.Agrees (live a) (abs blockInit c) s) :
    jit.Matches isa live code start (.loc a, c) (a, s) := by
  have hkeys : a ∉ jit.emitted.map Prod.fst := by
    rw [translateBlocks_keys jit.run, jit.dict.mem_sorted_keys]
    rcases (find_grows jit.found).missing a |>.mp hmissing with h | h
    · cases h
    · exact h.2
  have hflow : flow isa jit.file (.loc a, c) =
      some (.exit, (c.setReg .p14 (BitVec.ofNat 64 a)).setSlot ijSlot 1) := by
    rw [flow_of_ne (by rintro ⟨⟩), Jit.file, codeAt_callee hmissing hkeys]
    rfl
  refine .stutter hflow ⟨hreach, .exit ?_ ?_ ?_⟩ Nat.zero_lt_two
  · exact setReg_regs_self c .p14 _
  · rw [setSlot_frame_self]
    exact .callee hmissing
  · rw [abs_setIj, abs_blockInit_setReg rfl]
    exact hagree.noFlags

theorem Jit.Certified.nodup_jumpTable (h : jit.Certified regUse use live code) :
    (jit.sites.jumpTable.map Prod.fst).Nodup :=
  (find_grows jit.found).nodup h.seed

theorem Jit.Certified.matches_ladder (h : jit.Certified regUse use live code)
    (hcompares : isa.Compares) (hreach : Reaches (native isa code) start (pc, s))
    (hentry : x ∈ Dict.keys jit.sites.jumpTable) (hr14 : (c.regs (.gpr .r14)).toNat = pc)
    (hagree : State.Agrees noFlags (abs blockInit c) s) :
    jit.Matches isa live code start (.ij x, c) (pc, s) := by
  obtain ⟨⟨x', targets⟩, hmem, hx⟩ := List.mem_map.mp hentry
  obtain rfl : x' = x := hx
  have hflow : ∀ p, leaves isa (UserspaceBypass.ladder x' targets) c = some p →
      flow isa jit.file (.ij x', c) = some p := by
    intro p hp
    rw [flow_of_ne (by rintro ⟨⟩), Jit.file, codeAt_ij h.nodup_jumpTable hmem]
    exact runs_of_leaves hp
  have hword : c.regs (.gpr .r14) = BitVec.ofNat 64 pc := by
    rw [← hr14]
    exact (ofNat_toNat_word _).symm
  by_cases hknown : pc ∈ targets
  · obtain ⟨-, hlabel, hdead⟩ := h.ladder _ hmem pc hknown
    obtain ⟨c', hleaves, honly⟩ :=
      ladder_hit hcompares (fun t ht => (h.ladder _ hmem t ht).1) hknown hword
    refine .stutter (hflow _ hleaves) ⟨hreach, .block hlabel ?_⟩ (Nat.lt_succ_self 2)
    refine (honly.abs_agrees.symm.trans hagree).mono fun f hf => ?_
    rw [hdead f] at hf
    cases hf
  · have hmiss : ∀ t ∈ targets, c.regs (.gpr .r14) ≠ BitVec.ofNat 64 t := by
      intro t ht heq
      have hlt := (h.ladder _ hmem t ht).1
      rw [heq, BitVec.toNat_ofNat, Nat.mod_eq_of_lt hlt] at hr14
      exact hknown (hr14 ▸ ht)
    obtain ⟨c', hleaves, honly, hr15⟩ := ladder_miss hcompares hmiss
    refine .stutter (hflow _ hleaves) ⟨hreach, .failed targets hmem hknown ?_ hr15 ?_⟩
      (Nat.lt_succ_self 2)
    · rw [honly.regs _ (by rintro ⟨⟩)]
      exact hr14
    · exact honly.abs_agrees.symm.trans hagree

/-- The addresses behind the lines of a block. -/
theorem getLast_ends (address : Nat) (lines : List Line) :
    (Block.ends address lines).getLast? =
      lines.getLast?.map fun line => (address + (lines.map Line.l).sum, line) := by
  induction lines generalizing address with
  | nil => rfl
  | cons line lines ih =>
      cases lines with
      | nil => simp [Block.ends]
      | cons line' lines =>
          have hends : Block.ends address (line :: line' :: lines) = (address + line.l, line) ::
            (address + line.l + line'.l, line') :: Block.ends (address + line.l + line'.l) lines := rfl
          rw [hends, List.getLast?_cons_cons, List.getLast?_cons_cons]
          have hsum : ((line :: line' :: lines).map Line.l).sum =
              line.l + ((line' :: lines).map Line.l).sum := List.sum_cons
          rw [hsum, ← Nat.add_assoc]
          exact ih (address + line.l)

theorem Jit.Certified.matches_block (h : jit.Certified regUse use live code)
    (hisa : isa.Respects regUse) (hwords : isa.Words) (hobeys : isa.Obeys use)
    (hclear : jit.StaysClear isa code start) (hreach : Reaches (native isa code) start (a, s))
    (hkey : a ∈ jit.dict.keys) (hagree : State.Agrees (live a) (abs blockInit c) s) :
    jit.Matches isa live code start (.loc a, c) (a, s) := by
  obtain ⟨⟨a', block⟩, hmem, ha⟩ := List.mem_map.mp hkey
  obtain rfl : a' = a := ha
  obtain ⟨before, own, after, t, t', hemitted, hblock, hcode, -⟩ :=
    jitFile_block jit.run hmem jit.entry jit.sites.jumpTable jit.sites.missing
  have hown : (a', own) ∈ jit.emitted := by
    rw [hemitted]
    exact List.mem_append_right _ List.mem_cons_self
  have hfalls : ∀ e ∈ own.getLast?, e.offset ∈ e.line.targets e.address →
      nextLabel jit.file (.loc a') = some (.loc e.offset) ∧ jit.HasLabel e.offset := by
    intro e he htarget
    have hlast := congrArg List.getLast? (translateLines_ends hblock)
    rw [List.getLast?_map, Option.mem_def.mp he, getLast_ends] at hlast
    obtain ⟨line, hline, hpair⟩ := Option.map_eq_some_iff.mp hlast.symm
    obtain ⟨hoffset, rfl⟩ := Prod.mk.inj hpair
    have hend : block.endFrom a' = e.offset := hoffset
    obtain ⟨hbto, hbetween⟩ := h.falls _ hmem _ hline (by rw [hend]; exact htarget)
    rw [← hend]
    exact ⟨(nextLabel_iff jit.run hmem hbto).mpr hbetween, Or.inl (jit.dict.closed _ hmem _ hbto)⟩
  have hin : InBlock .start t.atBlock c := by
    refine ⟨temps_blockInit, ⟨?_, ?_⟩, clean_start c⟩ <;>
      · intro p k hp
        cases p <;> cases hp
  have hflow : flow isa jit.file (.loc a', c) =
      runs isa (nextLabel jit.file (.loc a')) (emittedText own) c := by
    rw [flow_of_ne (by rintro ⟨⟩), ← hcode]
    rfl
  rcases Jit.lines_matched hisa hwords hobeys hclear hblock (h.decoded _ hmem)
    (fun e he => h.hasLine hown he) (h.supported _ hown) hfalls hin hagree hreach with
      ⟨hnone, y, hy, hfault⟩ | ⟨x, y, hx, hshows, hstep⟩
  · exact .fails (hflow.trans hnone) hy hfault
  · rcases hstep with hstep | ⟨hlabel, rfl⟩
    · exact .step (hflow.trans hx) hstep ⟨hreach.trans hstep.to_reflTransGen, hshows⟩
    · refine .stutter (hflow.trans hx) ⟨hreach, hshows⟩ ?_
      rw [hlabel]
      exact Nat.lt_succ_self 1

/-- **Every label.** -/
theorem Jit.Certified.matched (h : jit.Certified regUse use live code) (hisa : isa.Respects regUse)
    (hwords : isa.Words) (hobeys : isa.Obeys use) (hcompares : isa.Compares)
    (hclear : jit.StaysClear isa code start) (x : Label × Machine) (y : Nat × State)
    (halong : jit.Along isa live code start x y) : jit.Matches isa live code start x y := by
  obtain ⟨hreach, hshows⟩ := halong
  cases hshows with
  | block hlabel hagree =>
      rcases hlabel with hkey | hmissing
      · exact h.matches_block hisa hwords hobeys hclear hreach hkey hagree
      · exact Jit.matches_callee hreach hmissing hagree
  | ladder hentry hr14 hagree => exact h.matches_ladder hcompares hreach hentry hr14 hagree
  | syscall line hline hname hr14 hagree =>
      exact Jit.matches_compSyscall hreach hline hname hr14 hagree
  | failed targets hentry hunknown hr14 hr15 hagree =>
      exact Jit.matches_ijFailed hreach hentry hunknown hr14 hr15 hagree
  | exit => exact .halted rfl

end Matched

section Program

variable {jit : Jit} {isa : Isa} {regUse : RegUse} {use : Access Line Flag}
  {live : Nat → Flag → Bool} {code : Nat → Option Line} {c c' : Machine} {s : State}

theorem flow_exit (isa : Isa) (file : List (Item Label Asm)) (x : Label × Machine) (h : x.1 = .exit) :
    flow isa file x = none := if_pos h

theorem native_of_faults {y : Nat × State} (h : Faults isa code y) : native isa code y = none := by
  obtain ⟨line, hline, hexec⟩ := h
  rw [native, hline, Option.bind_some, hexec]
  rfl

/-- Where the code exits, the program stands next to it. -/
theorem Jit.Certified.exits (h : jit.Certified regUse use live code) (hisa : isa.Respects regUse)
    (hwords : isa.Words) (hobeys : isa.Obeys use) (hcompares : isa.Compares)
    (hentry : jit.entry ∈ jit.dict.keys) (hclear : jit.StaysClear isa code (jit.entry, s))
    (hstart : State.Agrees (live jit.entry) (abs blockInit c) s)
    (hexit : Reaches (flow isa jit.file) (.loc jit.entry, c) (.exit, c')) :
    ∃ y, Reaches (native isa code) (jit.entry, s) y ∧ jit.Shows live code (.exit, c') y := by
  obtain ⟨y, hrun, -, hshows⟩ :=
    reaches_related (h.matched hisa hwords hobeys hcompares hclear) (flow_exit isa jit.file)
      ⟨.refl, .block (Or.inl hentry) hstart⟩ hexit
  exact ⟨y, hrun, hshows⟩

/-- Where the run of the program ends, the code has come to its exit. -/
theorem Jit.Certified.halts (h : jit.Certified regUse use live code) (hisa : isa.Respects regUse)
    (hwords : isa.Words) (hobeys : isa.Obeys use) (hcompares : isa.Compares)
    (hentry : jit.entry ∈ jit.dict.keys) (hclear : jit.StaysClear isa code (jit.entry, s))
    (hstart : State.Agrees (live jit.entry) (abs blockInit c) s) {y : Nat × State}
    (hrun : Reaches (native isa code) (jit.entry, s) y) (hend : native isa code y = none)
    (hgood : ¬Faults isa code y) :
    ∃ c' y', Reaches (flow isa jit.file) (.loc jit.entry, c) (.exit, c') ∧
      Reaches (native isa code) (jit.entry, s) y' ∧ jit.Shows live code (.exit, c') y' := by
  obtain ⟨⟨l, c'⟩, y', hflow, rfl, ⟨-, hshows⟩, hpoint⟩ :=
    halts_of_reaches (h.matched hisa hwords hobeys hcompares hclear) (fun _ => native_of_faults)
      hend hgood ⟨.refl, .block (Or.inl hentry) hstart⟩ hrun
  exact ⟨c', y', hflow, hpoint, hshows⟩

end Program

namespace Poll

/-- `CALL 0x401020` -/
def call : Line := { name := "CALL", args := [.loc 0x401020], l := 5 }

/-- `CMP RAX, RCX` -/
def compare : Line :=
  { name := "CMP", args := [.id (.gpr .rax .q), .id (.gpr .rcx .q)], l := 3 }

/-- `JNZ 0x401000` -/
def again : Line := { name := "JNZ", args := [.loc 0x401000], l := 2 }

def ret : Line := { name := "RET", args := [], l := 1 }

/-- Call a function and load a word, until the word is RCX; then SYSCALL. -/
def dict : BlockDict where
  items := [(0x401000, ⟨[call], [0x401005]⟩),
    (0x401005, ⟨[loadLine, compare, again], [0x401000, 0x40100d]⟩),
    (0x40100d, ⟨[syscallLine], []⟩), (0x401020, ⟨[ret], []⟩)]
  nodup := by decide
  positive := by decide
  undecoded := by decide
  branch := by
    simp [call, loadLine, compare, again, syscallLine, ret, conditionalBranch,
      unconditionalBranch]
  closed := by decide

theorem isSome_translate :
    (translateBlocks .standard (sortedBlocks dict.items) .start).isSome = true := by
  decide +kernel

theorem find_dict : find dict.items [] = some ⟨[(0x401021, [0x401005])], []⟩ := by
  rfl

/-- The program in memory. -/
def code : Nat → Option Line
  | 0x401000 => some call
  | 0x401005 => some loadLine
  | 0x401008 => some compare
  | 0x40100b => some again
  | 0x40100d => some syscallLine
  | 0x401020 => some ret
  | _ => none

/-- The flags from CMP on. -/
def live (a : Nat) (_ : Flag) : Bool := a = 0x40100b || a = 0x40100d

theorem sorted_dict : sortedBlocks dict.items = dict.items := rfl

/-- The emitted lines, apart from the states and texts. -/
theorem emitted_lines {emitted : List (Nat × List Emitted)} {last : TransState}
    (hrun : translateBlocks .standard (sortedBlocks dict.items) .start = some (emitted, last)) :
    ∃ e₁ e₂ e₃ e₄ e₅ e₆ : Emitted,
    emitted = [(0x401000, [e₁]), (0x401005, [e₂, e₃, e₄]), (0x40100d, [e₅]), (0x401020, [e₆])] ∧
    (e₁.line = call ∧ e₁.offset = 0x401005) ∧
    (e₂.line = loadLine ∧ e₂.offset = 0x401008 ∧ e₂.before.checked = [] ∧ e₂.canCheck = true) ∧
    (e₃.line = compare ∧ e₃.offset = 0x40100b) ∧
    (e₄.line = again ∧ e₄.offset = 0x40100d) ∧
    (e₅.line = syscallLine ∧ e₅.offset = 0x40100f) ∧
    (e₆.line = ret ∧ e₆.offset = 0x401021) := by
  have hflags : checkFlagDefUse [loadLine, compare, again] = [false, true, true] := by decide
  rw [sorted_dict] at hrun
  obtain ⟨own₁, t₁, rest₁, h₁, hrest₁, rfl⟩ := translateBlocks_cons hrun
  obtain ⟨own₂, t₂, rest₂, h₂, hrest₂, rfl⟩ := translateBlocks_cons hrest₁
  obtain ⟨own₃, t₃, rest₃, h₃, hrest₃, rfl⟩ := translateBlocks_cons hrest₂
  obtain ⟨own₄, t₄, rest₄, h₄, hrest₄, rfl⟩ := translateBlocks_cons hrest₃
  cases hrest₄
  obtain ⟨_, _, _, _, _, -, -, -, hnil₁, rfl⟩ := translateLines_cons h₁
  cases hnil₁
  rw [translateBlock, hflags] at h₂
  obtain ⟨_, _, _, _, _, -, hflag, -, hlines₁, rfl⟩ := translateLines_cons h₂
  cases hflag
  obtain ⟨_, _, _, _, _, -, -, -, hlines₂, rfl⟩ := translateLines_cons hlines₁
  obtain ⟨_, _, _, _, _, -, -, -, hnil₂, rfl⟩ := translateLines_cons hlines₂
  cases hnil₂
  obtain ⟨_, _, _, _, _, -, -, -, hnil₃, rfl⟩ := translateLines_cons h₃
  cases hnil₃
  obtain ⟨_, _, _, _, _, -, -, -, hnil₄, rfl⟩ := translateLines_cons h₄
  cases hnil₄
  exact ⟨_, _, _, _, _, _, rfl, ⟨rfl, rfl⟩, ⟨rfl, rfl, rfl, rfl⟩, ⟨rfl, rfl⟩, ⟨rfl, rfl⟩,
    ⟨rfl, rfl⟩, ⟨rfl, rfl⟩⟩

theorem proper : ∀ b ∈ dict.items, ∀ line ∈ b.2.lines, line.Proper := by
  have hproper : ∀ line : Line, line.b ≠ patchedBytes → (∀ e ∈ line.args, e.Decoded ∧ e.NoTmp) →
      line.Proper := fun line hb hargs =>
    ⟨⟨fun e he => (hargs e he).1, fun h => absurd h hb⟩, fun e he => (hargs e he).2⟩
  simp only [dict, List.forall_mem_cons, List.not_mem_nil, false_imp_iff, implies_true, and_true]
  refine ⟨?_, ⟨?_, ?_, ?_⟩, ?_, ?_⟩
  all_goals
    refine hproper _ (by decide) ?_
    simp [call, loadLine, compare, again, syscallLine, ret, Expr.Decoded, Expr.NoTmp,
      Expr.regs]
  refine ⟨⟨?_, ?_, ?_⟩, ?_⟩ <;>
    simp [Addr.terms, Addr.base, Addr.disp, Addr.scaled, List.filterMap_cons, memRegs, Addr.bases,
      Addr.indices]

section Poll

variable {e : Emitted} {marks : Marks}

theorem decodes_call : (Special.call (.loc 0x401020)).Decodes call := ⟨rfl, rfl, Or.inr ⟨_, rfl⟩⟩

theorem decodes_ret : (Special.ret 0).Decodes ret := ⟨rfl, Or.inl ⟨rfl, rfl⟩⟩

theorem decodes_syscall : Special.syscall.Decodes syscallLine := ⟨rfl, by decide, by decide⟩

theorem supported_call (hline : e.line = call) :
    e.Supported .standard marks := by
  refine .special (.call (.loc 0x401020)) (hline ▸ decodes_call) ⟨by rw [hline]; rfl, ?_⟩
    (by rintro ⟨⟩) (by rintro ⟨⟩)
  exact Function.update_self _ _ _

/-- The masks of a line are bases of its memory operands. -/
theorem mem_getMemBase_of_mem_masks {r : ExprId} (h : r ∈ e.masks) :
    r ∈ getMemBase (getInstName e.line)
      (Call.of (getInstName e.line) e.line.args e.canCheck e.before.heap).args := by
  unfold Emitted.masks masked at h
  dsimp only at h
  split_ifs at h with hnone
  · cases h
  · exact List.mem_dedup.mp (List.mem_filter.mp h).1

theorem masks_load (hline : e.line = loadLine) : ∀ r ∈ e.masks, r = .gpr .rbx .q := by
  intro r hr
  have hbase := mem_getMemBase_of_mem_masks hr
  rw [hline] at hbase
  have hlist : getMemBase (getInstName loadLine)
      [.reg (.gpr .rax .q), .mem ⟨64, [.gpr .rbx .q], none, none⟩] = [.gpr .rbx .q] := by
    decide
  exact List.mem_singleton.mp (hlist ▸ hbase)

theorem masks_compare (hline : e.line = compare) : e.masks = [] := by
  refine List.eq_nil_iff_forall_not_mem.mpr fun r hr => ?_
  have hbase := mem_getMemBase_of_mem_masks hr
  rw [hline] at hbase
  have hlist : getMemBase (getInstName compare) [.reg (.gpr .rax .q), .reg (.gpr .rcx .q)] = [] := by
    decide
  exact List.not_mem_nil (hlist ▸ hbase)

theorem supported_load (hline : e.line = loadLine) :
    e.Supported .standard marks := by
  have hbase : ∀ r ∈ e.masks, ∃ g, r = .gpr g .q := fun r hr => ⟨_, masks_load hline r hr⟩
  have hordinary : loadLine.IsOrdinary := ⟨by decide, by decide⟩
  have hargs : Ordinary [.reg (.gpr .rax .q), .mem ⟨64, [.gpr .rbx .q], none, none⟩] :=
    ⟨by decide, by decide, fun h => absurd h (by decide)⟩
  obtain ⟨line, offset, blockEnd, canCheck, before, text, after⟩ := e
  subst hline
  refine .ordinary hordinary (by simp [NoSegment, loadLine])
    ⟨by simp [loadLine, Expr.Resolved], hargs, ?_, hbase⟩
  intro x hx
  have hoperands : x ∈ [(Expr.id (.gpr .rax .q), Arg.reg (.gpr .rax .q)),
      (.mem 64 none (.id (.gpr .rbx .q)), .mem ⟨64, [.gpr .rbx .q], none, none⟩)] := hx
  rcases List.mem_pair.mp hoperands with rfl | rfl
  · trivial
  · refine ⟨_, rfl, rfl, fun read => ?_⟩
    simp [MemDict.address, segBase, Addr.value, Addr.terms, List.filterMap_cons, Addr.base, Addr.disp,
      Addr.scaled]

theorem supported_compare (hline : e.line = compare) :
    e.Supported .standard marks := by
  have hbase : ∀ r ∈ e.masks, ∃ g, r = .gpr g .q := by
    rw [masks_compare hline]
    simp
  have hordinary : compare.IsOrdinary := ⟨by decide, by decide⟩
  have hargs : Ordinary [.reg (.gpr .rax .q), .reg (.gpr .rcx .q)] :=
    ⟨by decide, by decide, fun h => absurd h (by decide)⟩
  obtain ⟨line, offset, blockEnd, canCheck, before, text, after⟩ := e
  subst hline
  refine .ordinary hordinary (by simp [NoSegment, compare])
    ⟨by simp [compare, Expr.Resolved], hargs, ?_, hbase⟩
  intro x hx
  have hoperands : x ∈ [(Expr.id (.gpr .rax .q), Arg.reg (.gpr .rax .q)),
      (.id (.gpr .rcx .q), .reg (.gpr .rcx .q))] := hx
  rcases List.mem_pair.mp hoperands with rfl | rfl <;> trivial

theorem supported_again (hline : e.line = again) :
    e.Supported .standard marks :=
  .branch (Or.inl (by rw [hline]; decide)) 0x401000 (by rw [hline]; rfl)

theorem supported_syscall (hline : e.line = syscallLine) :
    e.Supported .standard .start :=
  .special .syscall (hline ▸ decodes_syscall) ⟨by rw [hline]; rfl, by rw [hline]; rfl⟩
    (by rintro ⟨⟩) fun _ v _ => List.not_mem_nil

theorem supported_ret (hline : e.line = ret) : e.Supported .standard marks :=
  .special (.ret 0) (hline ▸ decodes_ret) ⟨by rw [hline]; rfl, rfl⟩ (by rintro ⟨⟩) (by rintro ⟨⟩)

theorem flow_of {line : Line} {offset : Nat} (hline : e.line = line) (hoffset : e.offset = offset)
    (h : ∀ f, (x86Flags.reads line f = true → live (offset - line.l) f = true) ∧
      (∀ a ∈ line.targets (offset - line.l), live a f = true →
        live (offset - line.l) f = true ∨ line.IsOrdinary ∧ x86Flags.writes line f = true) ∧
      (line.IsOrdinary → live (offset - line.l) f = false)) :
    e.Flow x86Flags live := by
  subst hline hoffset
  exact ⟨fun f => (h f).1, fun a ha f => (h f).2.1 a ha, fun hplain _ f => (h f).2.2 hplain⟩

theorem flow_call (hline : e.line = call) (hoffset : e.offset = 0x401005) :
    e.Flow x86Flags live :=
  flow_of hline hoffset fun f => by cases f <;> decide

theorem flow_load (hline : e.line = loadLine) (hoffset : e.offset = 0x401008) :
    e.Flow x86Flags live :=
  flow_of hline hoffset fun f => by cases f <;> decide

theorem flow_compare (hline : e.line = compare) (hoffset : e.offset = 0x40100b) :
    e.Flow x86Flags live :=
  flow_of hline hoffset fun f => by cases f <;> decide

theorem flow_again (hline : e.line = again) (hoffset : e.offset = 0x40100d) :
    e.Flow x86Flags live :=
  flow_of hline hoffset fun f => by cases f <;> decide

theorem flow_syscall (hline : e.line = syscallLine) (hoffset : e.offset = 0x40100f) :
    e.Flow x86Flags live :=
  flow_of hline hoffset fun f => by cases f <;> decide

theorem flow_ret (hline : e.line = ret) (hoffset : e.offset = 0x401021) :
    e.Flow x86Flags live :=
  flow_of hline hoffset fun f => by cases f <;> decide

end Poll

theorem falls : ∀ b ∈ dict.items, ∀ line ∈ b.2.lines.getLast?,
    b.2.endFrom b.1 ∈ line.targets (b.2.endFrom b.1 - line.l) →
      b.2.endFrom b.1 ∈ b.2.bto ∧ ∀ k ∈ dict.keys, ¬(b.1 < k ∧ k < b.2.endFrom b.1) := by
  simp only [dict, List.forall_mem_cons, List.not_mem_nil, false_imp_iff, implies_true, and_true]
  refine ⟨?_, ?_, ?_, ?_⟩ <;>
    · intro line hline
      cases hline
      decide

/-- A translation of the program, with the return site of the function in its jump table. -/
structure Translation (jit : Jit) : Prop where
  world : jit.world = .standard
  entry : jit.entry = 0x401000
  dict : jit.dict = Poll.dict
  jumpTable : jit.sites.jumpTable = [(0x401021, [0x401005])]
  missing : jit.sites.missing = []
  certified : jit.Certified firstOperand x86Flags live code
  masks : ∀ b ∈ jit.emitted, ∀ e ∈ b.2, e.line.IsOrdinary → ∀ r ∈ e.masks, r = .gpr .rbx .q

theorem exists_translation : ∃ jit, Translation jit := by
  obtain ⟨⟨emitted, last⟩, hrun⟩ := Option.isSome_iff_exists.mp isSome_translate
  obtain ⟨e₁, e₂, e₃, e₄, e₅, e₆, rfl, hcall, hload, hcompare, hagain, hsys, hret⟩ :=
    emitted_lines hrun
  have hkey : 0x401005 ∈ dict.keys := by decide
  refine ⟨⟨.standard, 0x401000, dict, [], _, _, last, find_dict, hrun⟩, rfl, rfl, rfl, rfl, rfl,
    ?_, ?_⟩
  · exact {
      seed := List.nodup_nil
      code := by
        simp only [dict, allEnds, Block.ends, List.flatMap_cons, List.flatMap_nil,
          List.forall_mem_append, List.forall_mem_cons, List.not_mem_nil, false_imp_iff, implies_true,
          and_true]
        exact ⟨rfl, ⟨rfl, rfl, rfl⟩, rfl, rfl⟩
      proper := proper
      decoded := by simp [dict]
      stack := by
        change ∀ b ∈ dict.items, ∀ line ∈ b.2.lines, line.IsOrdinary → ¬UsesStack (getInstName line)
        decide
      supported := by
        simp only [List.forall_mem_cons, List.not_mem_nil, false_imp_iff, implies_true, and_true,
          LinesSupported]
        exact ⟨supported_call hcall.1, ⟨supported_load hload.1, supported_compare hcompare.1,
          supported_again hagain.1⟩, supported_syscall hsys.1, supported_ret hret.1⟩
      flags := by
        simp only [List.forall_mem_cons, List.not_mem_nil, false_imp_iff, implies_true, and_true]
        exact ⟨flow_call hcall.1 hcall.2, ⟨flow_load hload.1 hload.2.1,
          flow_compare hcompare.1 hcompare.2, flow_again hagain.1 hagain.2⟩,
          flow_syscall hsys.1 hsys.2, flow_ret hret.1 hret.2⟩
      falls := falls
      ladder := by
        simp only [List.forall_mem_cons, List.not_mem_nil, false_imp_iff, implies_true, and_true]
        exact ⟨by decide, Or.inl hkey, fun f => by cases f <;> decide⟩ }
  · have hplain : ∀ {e : Emitted} {line}, e.line = line → ¬line.IsOrdinary → e.line.IsOrdinary →
        ∀ r ∈ e.masks, r = .gpr .rbx .q := by
      intro e line hline hnot hordinary
      exact absurd (hline ▸ hordinary) hnot
    simp only [List.forall_mem_cons, List.not_mem_nil, false_imp_iff, implies_true, and_true]
    refine ⟨hplain hcall.1 (by decide), ⟨fun _ => masks_load hload.1, fun _ => ?_,
      hplain hagain.1 (by decide)⟩, hplain hsys.1 (by decide), hplain hret.1 (by decide)⟩
    rw [masks_compare hcompare.1]
    simp

theorem Translation.key {jit : Jit} (h : Translation jit) : jit.entry ∈ jit.dict.keys := by
  rw [h.entry, h.dict]
  decide

section Run

theorem exec_call (a : Nat) (s : State) : call.exec coreIsa a s =
    some (s.push (BitVec.ofNat 64 (a + 5)), .block 0x401020) :=
  Line.exec_special decodes_call a s

theorem exec_ret (a : Nat) (s : State) : ret.exec coreIsa a s =
    some (s.moveSp (8 + BitVec.ofNat 64 0), .through (load64 s.env.mem s.sp)) :=
  Line.exec_special decodes_ret a s

theorem exec_syscall (a : Nat) (s : State) : syscallLine.exec coreIsa a s =
    some (s, .out (BitVec.ofNat 64 a)) :=
  Line.exec_special decodes_syscall a s

theorem exec_again (a : Nat) (s : State) : again.exec coreIsa a s =
    some (s, if s.takes "JNZ" then .block 0x401000 else .next) :=
  Line.exec_branch (Or.inl (by decide)) a s

theorem exec_load (a : Nat) (s : State) : loadLine.exec coreIsa a s =
    some (s.set (.gpr .rax) (load64 s.env.mem (s.regs (.gpr .rbx))), .next) := by
  have haddress : operandAddress none (.id (.gpr .rbx .q))
      (readReg (BitVec.ofNat 64 (a + 3)) s.regs) = s.regs (.gpr .rbx) := by
    simp [operandAddress, segBase, Addr.value, Addr.terms, List.filterMap_cons, Addr.base, Addr.disp,
      Addr.scaled, readReg, Width.get_q]
  have hexec : loadLine.execOrdinary coreIsa (BitVec.ofNat 64 (a + 3)) s =
      some ⟨writeHidden (fun _ => none) (writeReg s.regs (.gpr .rax .q) (load64 s.env.mem
        (operandAddress none (.id (.gpr .rbx .q)) (readReg (BitVec.ofNat 64 (a + 3)) s.regs)))),
        s.env⟩ :=
    rfl
  rw [writeHidden_none fun _ => rfl, haddress] at hexec
  rw [Line.exec, if_neg (by decide), if_neg (by decide)]
  exact congrArg (Option.map _) hexec

theorem exec_compare (a : Nat) (s : State) : compare.exec coreIsa a s =
    some (s.setFlags (compareFlags (s.regs (.gpr .rax)) (s.regs (.gpr .rcx))), .next) := by
  have hexec : compare.execOrdinary coreIsa (BitVec.ofNat 64 (a + 3)) s =
      some ⟨writeHidden (fun _ => none) s.regs, { s.env with
        flags := compareFlags (Width.q.get (s.regs (.gpr .rax)))
          (Width.q.get (s.regs (.gpr .rcx))) }⟩ := rfl
  rw [writeHidden_none fun _ => rfl, Width.get_q, Width.get_q] at hexec
  rw [Line.exec, if_neg (by decide), if_neg (by decide)]
  exact congrArg (Option.map _) hexec

/-- RBX points to a word that is zero, as RCX is. -/
def start : State where
  regs f := if f = .gpr .rsp then 0x7ffe0000 else if f = .gpr .rbx then 0x500000 else 0
  env := ⟨fun _ => false, fun _ => 0, fun _ => 0⟩

theorem set_gpr_of_ne {g g' : Gpr} (h : g' ≠ g) (s : State) (value : BitVec 64) :
    (s.set (.gpr g) value).regs (.gpr g') = s.regs (.gpr g') :=
  Function.update_of_ne (fun heq => h (Family.gpr.inj heq)) _ _

/-- RBX does not change. -/
theorem native_rbx {p q : Nat × State} (h : native coreIsa code p = some q) :
    q.2.regs (.gpr .rbx) = p.2.regs (.gpr .rbx) := by
  obtain ⟨line, hline, hrest⟩ := Option.bind_eq_some_iff.mp h
  obtain ⟨⟨s', control⟩, hexec, hpc⟩ := Option.bind_eq_some_iff.mp hrest
  obtain ⟨pc, -, rfl⟩ := Option.map_eq_some_iff.mp hpc
  unfold code at hline
  split at hline <;> cases hline
  · cases (exec_call _ _).symm.trans hexec
    exact State.push_gpr (by decide) _ _
  · cases (exec_load _ _).symm.trans hexec
    exact set_gpr_of_ne (by decide) _ _
  · cases (exec_compare _ _).symm.trans hexec
    rfl
  · cases (exec_again _ _).symm.trans hexec
    rfl
  · cases (exec_syscall _ _).symm.trans hexec
    rfl
  · cases (exec_ret _ _).symm.trans hexec
    exact set_gpr_of_ne (by decide) _ _

theorem reaches_rbx {p q : Nat × State} (h : Reaches (native coreIsa code) p q) :
    q.2.regs (.gpr .rbx) = p.2.regs (.gpr .rbx) := by
  induction h with
  | refl => rfl
  | tail _ hstep ih => exact (native_rbx hstep).trans ih

theorem Translation.staysClear {jit : Jit} (h : Translation jit) :
    jit.StaysClear coreIsa code (jit.entry, start) := by
  intro p hp b hb e he _ hordinary r hr
  rw [h.masks b hb e he hordinary r hr]
  refine (clear_iff rfl).mpr ?_
  rw [reaches_rbx hp]
  exact (by decide : (start.regs (.gpr .rbx)).getLsbD 63 = false)

/-- The function returns, the word is RCX, and the program comes to SYSCALL. -/
theorem reaches_syscall : ∃ s, Reaches (native coreIsa code) (0x401000, start) (0x40100d, s) ∧
    s.regs (.gpr .rax) = 0 := by
  have hcall : native coreIsa code (0x401000, start) = some (0x401020, start.push 0x401005) :=
    native_eq rfl (exec_call _ _) rfl
  have hret : native coreIsa code (0x401020, start.push 0x401005) =
      some (0x401005, (start.push 0x401005).moveSp 8) := by
    refine native_eq rfl (exec_ret _ _) ?_
    rw [State.push_mem, State.push_sp, load64_store_self (by decide)]
    rfl
  generalize hs : (start.push 0x401005).moveSp 8 = s at hret
  have hload : native coreIsa code (0x401005, s) =
    some (0x401008, s.set (.gpr .rax) (load64 s.env.mem (s.regs (.gpr .rbx)))) :=
      native_eq rfl (exec_load _ _) rfl
  have hword : load64 s.env.mem (s.regs (.gpr .rbx)) = 0 := by
    have hmem : s.env.mem = store 8 (fun _ => 0) 0x7ffdfff8 0x401005 := by
      rw [← hs]
      exact State.push_mem _ _
    have hrbx : s.regs (.gpr .rbx) = 0x500000 := (native_rbx hret).trans (native_rbx hcall)
    have hapart : Apart (0x500000 : BitVec 64) 0x7ffdfff8 := by
      unfold Apart
      decide
    rw [hmem, hrbx, load64_store hapart]
    rfl
  rw [hword] at hload
  generalize hs' : s.set (.gpr .rax) 0 = s' at hload
  have hcompare : native coreIsa code (0x401008, s') = some (0x40100b,
    s'.setFlags (compareFlags (s'.regs (.gpr .rax)) (s'.regs (.gpr .rcx)))) :=
      native_eq rfl (exec_compare _ _) rfl
  have hequal : s'.regs (.gpr .rax) = s'.regs (.gpr .rcx) := by
    rw [← hs', State.set_regs, set_gpr_of_ne (by decide), ← hs, State.moveSp, set_gpr_of_ne (by decide),
      State.push_gpr (by decide)]
    rfl
  have hagain : native coreIsa code (0x40100b,
      s'.setFlags (compareFlags (s'.regs (.gpr .rax)) (s'.regs (.gpr .rcx)))) = some (0x40100d,
        s'.setFlags (compareFlags (s'.regs (.gpr .rax)) (s'.regs (.gpr .rcx)))) := by
    refine native_eq rfl (exec_again _ _) ?_
    have htakes : (s'.setFlags (compareFlags (s'.regs (.gpr .rax)) (s'.regs (.gpr .rcx)))).takes "JNZ" =
        !decide (s'.regs (.gpr .rax) = s'.regs (.gpr .rcx)) := rfl
    rw [htakes, hequal]
    simp
    rfl
  have hrax : s'.regs (.gpr .rax) = 0 := by
    rw [← hs']
    exact Function.update_self (Family.gpr .rax) 0 s.regs
  exact ⟨_, .head hcall (.head hret (.head hload (.head hcompare (.single hagain)))), hrax⟩

end Run

theorem native_syscall (s : State) : native coreIsa code (0x40100d, s) = none :=
  native_of_out rfl (exec_syscall _ s)

theorem not_faults_syscall (s : State) : ¬Faults coreIsa code (0x40100d, s) := by
  rintro ⟨line, hline, hexec⟩
  cases hline
  cases (exec_syscall _ s).symm.trans hexec

/-- The code of a translation comes to its exit. -/
theorem Translation.exits {jit : Jit} (h : Translation jit) {c : Machine}
    (hstart : State.Agrees (live jit.entry) (abs blockInit c) start) :
    ∃ c', Reaches (flow coreIsa jit.file) (.loc jit.entry, c) (.exit, c') := by
  obtain ⟨s, hrun, -⟩ := reaches_syscall
  rw [← h.entry] at hrun
  obtain ⟨c', -, hexit, -⟩ := h.certified.halts coreIsa_respects coreIsa_words coreIsa_obeys
    coreIsa_compares h.key h.staysClear hstart hrun (native_syscall s) (not_faults_syscall s)
  exact ⟨c', hexit⟩

end Poll

end UserspaceBypass
