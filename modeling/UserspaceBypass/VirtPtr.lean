import UserspaceBypass.FrameSafety
import UserspaceBypass.Wrapper
import Mathlib.Data.Set.Piecewise

/-! The call `virt_ptr(regs, args)` on a processor with one memory. The machine that translated code
was run on so far has its frame apart from the memory of the program. In the kernel `pt_regs`, `args`
and the frame lie in the memory that a load or an unmasked store of the program can reach as well, and
an instruction that uses the stack without naming it works on the frame. Where neither happens the
processor does what that machine does, and the call comes back with the stack and the registers of its
caller. -/

namespace UserspaceBypass

open Layout Memory Simulation StateTransition

/-- What a processor does with an instruction; it may use RSP and the stack. -/
abbrev Processor := String → List Arg → State → Option State

/-- The processor does what the instruction set says, except for the instructions outside it. -/
def Isa.RunsOn (isa : Isa) (cpu : Processor) : Prop :=
  ∀ name args s, ¬UsesStack name → cpu name args s = execInst isa 0 name args s

namespace State

def core (p : State) : Core := ⟨fun g => p.regs (.gpr g), p.env.mem⟩

/-- The address of the slot `[RBP - 8*k]`. -/
def slotAddr (p : State) (k : Nat) : BitVec 64 := (MemOp.stack k).addr p.core.regs

def slot (p : State) (k : Nat) : BitVec 64 := load64 p.env.mem (p.slotAddr k)

def setSlot (p : State) (k : Nat) (value : BitVec 64) : State :=
  p.setMem (store 8 p.env.mem (p.slotAddr k) value)

def machine (p : State) : Machine := ⟨p.regs, p.env, p.slot⟩

end State

/-- One emitted line on the processor: the slots are words of the one memory. -/
def Asm.runOn (isa : Isa) (cpu : Processor) : Asm → State → Option State
  | .inst name args, p => cpu name args p
  | .store v r, p => (v.bind Virt.slot).map fun k => p.setSlot k (p.regs (.gpr r.gpr))
  | .load r v, p => v.slot.map fun k => p.set (.gpr r.gpr) (p.slot k)
  | .setIj n, p => some (p.setSlot ijSlot (BitVec.ofNat 64 n))
  | .saveIj r, p => some (p.setSlot ijSlot (p.regs (.gpr r.gpr)))
  -- the other lines only use registers and flags
  | a, p => (a.exec isa p.machine).map Machine.state

/-- The processor in a file: the label it has come to, and the code that is still to run there. -/
structure Point where
  label : Label
  code : List Asm
  state : State

namespace Point

def enter (file : List (Item Label Asm)) (l : Label) (p : State) : Point := ⟨l, codeAt file l, p⟩

/-- One line, up to the exit. -/
def step (isa : Isa) (cpu : Processor) (file : List (Item Label Asm)) (x : Point) : Option Point :=
  if x.label = .exit then none
  else
    match x.code with
    | [] => (nextLabel file x.label).map fun l => enter file l x.state
    | .jump name target :: code =>
        if taken name x.state.machine then some (enter file target x.state)
        else some { x with code := code }
    | a :: code => (a.runOn isa cpu x.state).map fun p => { x with code := code, state := p }

end Point

/-- The instruction neither reads nor writes a byte of the region: whatever is there, it does the same
elsewhere, and leaves that there. -/
def Processor.Ignores (cpu : Processor) (region : Set (BitVec 64)) [DecidablePred (· ∈ region)]
    (name : String) (args : List Arg) (p : State) : Prop :=
  ∀ own, cpu name args (p.setMem (region.piecewise own p.env.mem)) =
    (cpu name args p).map fun q => q.setMem (region.piecewise own q.env.mem)

/-- So does the instruction that is to run next, if the line is one of the program's. -/
def Point.Avoids (cpu : Processor) (region : Set (BitVec 64)) [DecidablePred (· ∈ region)] (x : Point) :
    Prop :=
  ∀ name args code, x.code = .inst name args :: code → cpu.Ignores region name args x.state

/-- The bytes of `pt_regs`, of `args`, and of the frame with the return address. -/
def Place.bytes (place : Place) : Set (BitVec 64) :=
  {a | (a - place.pt).toNat < 168 ∨ (a - place.args).toNat < 16 ∨
    (a - (place.top - 152)).toNat < 160}

instance (place : Place) : DecidablePred (· ∈ place.bytes) := fun a =>
  inferInstanceAs (Decidable ((a - place.pt).toNat < 168 ∨ (a - place.args).toNat < 16 ∨
    (a - (place.top - 152)).toNat < 160))

/-- The machine with a frame of its own that the processor shows; `own` is what the program has in the
place of the frame. -/
def Place.machine (place : Place) (own : BitVec 64 → BitVec 8) (p : State) : Machine where
  regs := p.regs
  env := { p.env with mem := place.bytes.piecewise own p.env.mem }
  frame k := if k < 19 then place.slot p.core k else 0

section Region

variable {place : Place} {s : Core} {f : Frame}

theorem toNat_region (base : BitVec 64) {k i : Nat} (hk : k < 21) (hi : i < 8) :
    (base + BitVec.ofNat 64 (8 * k) + BitVec.ofNat 64 i - base).toNat = 8 * k + i := by
  rw [add_assoc, ← BitVec.ofNat_add, add_sub_cancel_left, BitVec.toNat_ofNat]
  exact Nat.mod_eq_of_lt (by omega)

theorem Place.mem_bytes (place : Place) {cell : Cell} (hcell : cell.Valid) {i : Nat} (hi : i < 8) :
    place.addr cell + BitVec.ofNat 64 i ∈ place.bytes := by
  cases cell with
  | pt k =>
      have hk : k < 21 := hcell
      left
      rw [Place.addr, toNat_region _ hk hi]
      omega
  | arg k =>
      have hk : k < 2 := hcell
      right
      left
      rw [Place.addr, toNat_region _ (by omega) hi]
      omega
  | stack k =>
      have hk : k < 20 := hcell
      right
      right
      rw [stack_addr place hk, toNat_region _ (by omega) hi]
      omega

/-- A word depends on its bytes. -/
theorem Place.word_congr {s s' : Core} (h : Set.EqOn s.mem s'.mem place.bytes) {cell : Cell}
    (hcell : cell.Valid) : place.word s cell = place.word s' cell :=
  congrArg (BitVec.ofNat 64) (loadNat_congr fun _ hi => h (place.mem_bytes hcell hi))

theorem Place.store_eqOn (place : Place) {cell : Cell} (hcell : cell.Valid)
    (mem : BitVec 64 → BitVec 8) (value : BitVec 64) :
    Set.EqOn (store 8 mem (place.addr cell) value) mem place.bytesᶜ := by
  intro a ha
  rw [store, if_neg]
  intro hlt
  refine ha ?_
  have hmem := place.mem_bytes hcell hlt
  rwa [BitVec.ofNat_toNat, BitVec.setWidth_eq, add_sub_cancel] at hmem

/-- Under the bytes of the program's own, what the regions hold does not matter. -/
theorem Place.piecewise_congr (own : BitVec 64 → BitVec 8) {mem mem' : BitVec 64 → BitVec 8}
    (h : Set.EqOn mem mem' place.bytesᶜ) :
    place.bytes.piecewise own mem = place.bytes.piecewise own mem' := by
  funext a
  by_cases ha : a ∈ place.bytes
  · rw [Set.piecewise_eq_of_mem _ _ _ ha, Set.piecewise_eq_of_mem _ _ _ ha]
  · rw [Set.piecewise_eq_of_notMem _ _ _ ha, Set.piecewise_eq_of_notMem _ _ _ ha]
    exact h ha

/-- The wrapper stores to its three regions only. -/
theorem Shows.exec_eqOn (h : Shows place s f) {i : WrapInst} (hi : i.Based place f) :
    Set.EqOn (s.exec i).mem s.mem place.bytesᶜ := by
  have hpush : f.depth < 19 → ∀ value, Set.EqOn (s.pushed value).mem s.mem place.bytesᶜ := by
    intro hdepth value
    have hvalid : (Cell.stack (f.depth + 1)).Valid := Nat.succ_lt_succ hdepth
    have htop : s.regs .rsp - 8 = place.addr (.stack (f.depth + 1)) := by
      rw [h.regs, h.rsp, Place.addr, Nat.mul_add, BitVec.ofNat_add, ← sub_sub]
      rfl
    have hmem : (s.pushed value).mem = store 8 s.mem (place.addr (.stack (f.depth + 1))) value := by
      rw [← htop]
      rfl
    rw [hmem]
    exact place.store_eqOn hvalid s.mem value
  have hstore : ∀ m : MemOp, m.Based place f → ∀ value,
      Set.EqOn (store 8 s.mem (m.addr s.regs) value) s.mem place.bytesᶜ := by
    intro m hm value
    rw [h.addr hm]
    exact place.store_eqOn hm.1 s.mem value
  cases i with
  | push g => exact hpush hi _
  | pushMem m => exact hpush hi.1 _
  | popMem m => exact hstore m hi.2 _
  | store m g => exact hstore m hi _
  | _ => exact fun _ _ => rfl

theorem Shows.run_eqOn {text : List WrapInst} (h : Shows place s f)
    (htext : AllBased place text f) : Set.EqOn (s.run text).mem s.mem place.bytesᶜ := by
  induction text generalizing s f with
  | nil => exact fun _ _ => rfl
  | cons i text ih => exact (ih (h.exec htext.1) htext.2).trans (h.exec_eqOn htext.1)

end Region

section Line

variable {isa : Isa} {cpu : Processor} {place : Place} {own : BitVec 64 → BitVec 8} {p p' : State}

theorem BodyKeeps.refl (place : Place) (s : Core) : BodyKeeps place s s := ⟨rfl, rfl, fun _ _ _ => rfl⟩

theorem BodyKeeps.trans {s s' s'' : Core} (h : BodyKeeps place s s') (h' : BodyKeeps place s' s'') :
    BodyKeeps place s s'' :=
  ⟨h'.rbp.trans h.rbp, h'.rsp.trans h.rsp, fun c hvalid hkept =>
    (h'.word c hvalid hkept).trans (h.word c hvalid hkept)⟩

theorem bodyKeeps_of_eqOn (hregs : ∀ g ∈ [Gpr.rsp, .rbp], p'.regs (.gpr g) = p.regs (.gpr g))
    (hmem : Set.EqOn p'.env.mem p.env.mem place.bytes) : BodyKeeps place p.core p'.core :=
  ⟨hregs .rbp (by simp), hregs .rsp (by simp), fun _ hvalid _ => Place.word_congr hmem hvalid⟩

theorem Virt.slot_range {v : Virt} {k : Nat} (h : v.slot = some k) : 8 ≤ k ∧ k ≤ 17 := by
  cases v <;> cases h <;> decide

theorem phys_spares (r : Phys) {g : Gpr} (hg : g ∈ [Gpr.rsp, .rbp]) (value : BitVec 64) :
    (p.set (.gpr r.gpr) value).regs (.gpr g) = p.regs (.gpr g) := by
  refine Function.update_of_ne (fun heq => ?_) _ _
  cases heq
  cases r <;> simp [Phys.gpr] at hg

theorem slotAddr_eq (hrbp : p.core.regs .rbp = place.top - 8) (k : Nat) :
    p.slotAddr k = place.addr (.stack (k + 1)) := by
  rw [State.slotAddr, MemOp.addr, hrbp, Place.addr, sub_sub, Nat.mul_add, Nat.add_comm,
    BitVec.ofNat_add]
  rfl

theorem machine_frame (hrbp : p.core.regs .rbp = place.top - 8) {k : Nat} (hk : k < 19) :
    (place.machine own p).frame k = p.slot k := by
  rw [State.slot, slotAddr_eq hrbp]
  exact if_pos hk

theorem setSlot_core (hrbp : p.core.regs .rbp = place.top - 8) (k : Nat) (value : BitVec 64) :
    (p.setSlot k value).core = p.core.setMem (place.addr (.stack (k + 1))) value := by
  rw [← slotAddr_eq hrbp]
  rfl

/-- A slot that is written is written in the frame, and nowhere else. -/
theorem machine_setSlot (hrbp : p.core.regs .rbp = place.top - 8) {k : Nat} (hk : k < 19)
    (value : BitVec 64) :
    place.machine own (p.setSlot k value) = (place.machine own p).setSlot k value := by
  have hvalid : ∀ j < 19, (Cell.stack (j + 1)).Valid := fun j hj => Nat.succ_lt_succ hj
  have hcore := setSlot_core hrbp k value
  have hmem : place.bytes.piecewise own (p.setSlot k value).env.mem =
      place.bytes.piecewise own p.env.mem := by
    have hstore : (p.setSlot k value).env.mem =
        store 8 p.env.mem (place.addr (.stack (k + 1))) value := congrArg Core.mem hcore
    rw [hstore]
    exact Place.piecewise_congr own (place.store_eqOn (hvalid k hk) p.env.mem value)
  have hframe : (place.machine own (p.setSlot k value)).frame =
      Function.update (place.machine own p).frame k value := by
    funext j
    rw [Function.update_apply]
    by_cases hj : j < 19
    · have hword := @word_setMem place _ _ (hvalid k hk) (hvalid j hj) p.core value
      simp only [Place.machine, if_pos hj, Place.slot, hcore, hword, Cell.stack.injEq,
        Nat.succ_inj]
    · have hne : j ≠ k := fun heq => hj (heq ▸ hk)
      simp only [Place.machine, if_neg hj, if_neg hne]
  have henv : (place.machine own (p.setSlot k value)).env = (place.machine own p).env :=
    congrArg (fun mem => { p.env with mem := mem }) hmem
  exact congrArg₂ (Machine.mk p.regs) henv hframe

theorem bodyKeeps_setSlot (hrbp : p.core.regs .rbp = place.top - 8) {k : Nat} (hk : 8 ≤ k ∧ k ≤ 17)
    (value : BitVec 64) : BodyKeeps place p.core (p.setSlot k value).core := by
  refine ⟨rfl, rfl, fun c hvalid hkept => ?_⟩
  have hslot : (Cell.stack (k + 1)).Valid := Nat.succ_lt_succ (by omega)
  rw [setSlot_core hrbp, word_setMem hslot hvalid, if_neg]
  rintro rfl
  exact absurd (show k + 1 ≤ 8 from hkept) (by omega)

/-- An instruction of the program that stays away from the frame. -/
theorem Processor.Ignores.exec {name : String} {args : List Arg} (hcpu : isa.RunsOn cpu)
    (hspares : (Asm.inst name args).Spares) (h : cpu.Ignores place.bytes name args p)
    (hrun : cpu name args p = some p') :
    (Asm.inst name args).exec isa (place.machine own p) = some (place.machine own p') ∧
      BodyKeeps place p.core p'.core := by
  have hown : ∀ own, execInst isa 0 name args (p.setMem (place.bytes.piecewise own p.env.mem)) =
      some (p'.setMem (place.bytes.piecewise own p'.env.mem)) := by
    intro own
    rw [← hcpu _ _ _ hspares.1, h own, hrun]
    rfl
  -- with its own bytes in the region the state is the same: they are not written
  have hmem : Set.EqOn p'.env.mem p.env.mem place.bytes := by
    have hsame := h p.env.mem
    rw [Set.piecewise_same, hrun] at hsame
    have hpiece : p'.env.mem = place.bytes.piecewise p.env.mem p'.env.mem :=
      congrArg (fun q => q.env.mem) (Option.some.inj (hrun.symm.trans hsame))
    intro a ha
    rw [hpiece]
    exact Set.piecewise_eq_of_mem _ _ _ ha
  have hexec : execInst isa 0 name args p = some p' := (hcpu _ _ _ hspares.1).symm.trans hrun
  have hkeeps : BodyKeeps place p.core p'.core :=
    bodyKeeps_of_eqOn (fun g hg => execInst_spares hspares.2 hexec hg) hmem
  refine ⟨?_, hkeeps⟩
  have hframe : (place.machine own p').frame = (place.machine own p).frame := by
    funext k
    by_cases hk : k < 19
    · simp only [Place.machine, if_pos hk]
      exact Place.word_congr hmem (show k + 1 < 20 by omega)
    · simp only [Place.machine, if_neg hk]
  have hstate : (place.machine own p).state =
      p.setMem (place.bytes.piecewise own p.env.mem) := rfl
  rw [Asm.exec, hstate, hown own, Option.map_some, ← hframe]
  rfl

/-- One line on the processor is one line on the machine with its own frame. -/
theorem Asm.Spares.runOn {a : Asm} (ha : a.Spares) (hcpu : isa.RunsOn cpu)
    (hrbp : p.core.regs .rbp = place.top - 8)
    (hignores : ∀ name args, a = .inst name args → cpu.Ignores place.bytes name args p)
    (h : a.runOn isa cpu p = some p') :
    a.exec isa (place.machine own p) = some (place.machine own p') ∧
      BodyKeeps place p.core p'.core := by
  have hsame : ∀ q : State, (∀ g ∈ [Gpr.rsp, .rbp], q.regs (.gpr g) = p.regs (.gpr g)) →
      q.env.mem = p.env.mem → BodyKeeps place p.core q.core := fun q hregs hmem =>
    bodyKeeps_of_eqOn hregs fun a _ => congrFun hmem a
  cases a with
  | inst name args => exact (hignores name args rfl).exec hcpu ha h
  | store v r =>
      obtain ⟨k, hk, rfl⟩ := Option.map_eq_some_iff.mp h
      obtain ⟨v', -, hslot⟩ := Option.bind_eq_some_iff.mp hk
      have hrange := Virt.slot_range hslot
      refine ⟨?_, bodyKeeps_setSlot hrbp hrange _⟩
      rw [Asm.exec, hk, Option.map_some, machine_setSlot hrbp (by omega)]
      rfl
  | load r v =>
      obtain ⟨k, hk, rfl⟩ := Option.map_eq_some_iff.mp h
      have hrange := Virt.slot_range hk
      refine ⟨?_, hsame _ (fun g hg => phys_spares r hg _) rfl⟩
      rw [Asm.exec, hk, Option.map_some, machine_frame hrbp (by omega)]
      rfl
  | setIj n =>
      cases h
      refine ⟨?_, bodyKeeps_setSlot hrbp (by decide) _⟩
      rw [Asm.exec, machine_setSlot hrbp (by decide)]
  | saveIj r =>
      cases h
      refine ⟨?_, bodyKeeps_setSlot hrbp (by decide) _⟩
      rw [Asm.exec, machine_setSlot hrbp (by decide)]
      rfl
  | movabs r n =>
      cases h
      exact ⟨rfl, hsame _ (fun g hg => phys_spares r hg _) rfl⟩
  | shl r =>
      cases h
      exact ⟨rfl, hsame _ (fun g hg => writeReg_spares ha _ _ hg) rfl⟩
  | shr r =>
      cases h
      exact ⟨rfl, hsame _ (fun g hg => writeReg_spares ha _ _ hg) rfl⟩
  | nop =>
      cases h
      exact ⟨rfl, .refl place _⟩
  | moveTarget src =>
      obtain ⟨c, hc, rfl⟩ := Option.map_eq_some_iff.mp h
      obtain ⟨g, hg, rfl⟩ := Option.map_eq_some_iff.mp hc
      refine ⟨?_, hsame _ (fun g' hg' => phys_spares .p14 hg' _) rfl⟩
      rw [Asm.exec, hg]
      rfl
  | jump name target =>
      obtain ⟨c, hc, rfl⟩ := Option.map_eq_some_iff.mp h
      rw [Asm.exec] at hc
      split_ifs at hc with hname
      cases hc
      exact ⟨if_neg hname, .refl place _⟩

end Line

section Run

variable {isa : Isa} {cpu : Processor} {jit : Jit} {place : Place} {own : BitVec 64 → BitVec 8}
  {s : Core} {x y : Point} {start : Label × Machine}

theorem Point.step_cases {file : List (Item Label Asm)} (h : x.step isa cpu file = some y) :
    x.label ≠ .exit ∧
      ((x.code = [] ∧ ∃ l, nextLabel file x.label = some l ∧ y = enter file l x.state) ∨
        (∃ name target code, x.code = .jump name target :: code ∧
          (taken name x.state.machine = true ∧ y = enter file target x.state ∨
            taken name x.state.machine = false ∧ y = { x with code := code })) ∨
        ∃ a code p, x.code = a :: code ∧ a.isJump = false ∧ a.runOn isa cpu x.state = some p ∧
          y = { x with code := code, state := p }) := by
  obtain ⟨label, code, p⟩ := x
  unfold Point.step at h
  split_ifs at h with hexit
  refine ⟨hexit, ?_⟩
  dsimp only at h ⊢
  cases code with
  | nil =>
      obtain ⟨l, hl, rfl⟩ := Option.map_eq_some_iff.mp h
      exact Or.inl ⟨rfl, l, hl, rfl⟩
  | cons a code =>
      cases a with
      | jump name target =>
          refine Or.inr (Or.inl ⟨name, target, code, rfl, ?_⟩)
          dsimp only at h
          split_ifs at h with htaken
          · exact Or.inl ⟨htaken, (Option.some.inj h).symm⟩
          · exact Or.inr ⟨Bool.eq_false_iff.mpr htaken, (Option.some.inj h).symm⟩
      | _ =>
          obtain ⟨q, hq, rfl⟩ := Option.map_eq_some_iff.mp h
          exact Or.inr (Or.inr ⟨_, code, q, rfl, rfl, hq, rfl⟩)

/-- The machine with its own frame has come to the label of the point, and from there to the point. -/
structure Follows (isa : Isa) (jit : Jit) (place : Place) (own : BitVec 64 → BitVec 8)
    (start : Label × Machine) (s : Core) (x : Point) : Prop where
  reached : ∃ c, Reaches (flow isa jit.file) start (x.label, c) ∧
    ∀ next, runs isa next (codeAt jit.file x.label) c = runs isa next x.code (place.machine own x.state)
  code : x.code <:+ codeAt jit.file x.label
  kept : BodyKeeps place s x.state.core

theorem taken_machine (place : Place) (own : BitVec 64 → BitVec 8) (name : String) (p : State) :
    taken name (place.machine own p) = taken name p.machine := rfl

/-- Where the machine goes on to another label, the processor does. -/
theorem Follows.enter (h : Follows isa jit place own start s x) (hexit : x.label ≠ .exit) {l : Label}
    (hruns : runs isa (nextLabel jit.file x.label) x.code (place.machine own x.state) =
      some (l, place.machine own x.state)) :
    Follows isa jit place own start s (.enter jit.file l x.state) := by
  obtain ⟨c, hreach, heq⟩ := h.reached
  have hflow : flow isa jit.file (x.label, c) = some (l, place.machine own x.state) := by
    rw [flow_of_ne hexit, heq, hruns]
  exact ⟨⟨_, hreach.tail hflow, fun _ => rfl⟩, List.suffix_refl _, h.kept⟩

/-- One step of the processor. -/
theorem Follows.step (h : Follows isa jit place own start s x) (hcpu : isa.RunsOn cpu)
    (hstack : jit.NoStackUsers) (hstart : start.1 ∉ Jit.segErrors)
    (hrbp : s.regs .rbp = place.top - 8) (hapart : x.Avoids cpu place.bytes)
    (hstep : x.step isa cpu jit.file = some y) : Follows isa jit place own start s y := by
  obtain ⟨hexit, hcases⟩ := Point.step_cases hstep
  rcases hcases with ⟨hcode, l, hnext, rfl⟩ | ⟨name, target, code, hcode, htaken⟩ |
    ⟨a, code, p, hcode, hjump, hrun, rfl⟩
  · refine h.enter hexit ?_
    rw [hcode, runs, hnext]
    rfl
  · rcases htaken with ⟨htaken, rfl⟩ | ⟨htaken, rfl⟩
    · refine h.enter hexit ?_
      rw [hcode, runs, taken_machine, if_pos htaken]
    · obtain ⟨c, hreach, heq⟩ := h.reached
      refine ⟨⟨c, hreach, fun next => ?_⟩, ?_, h.kept⟩
      · rw [heq, hcode, runs, taken_machine, if_neg (by simp [htaken])]
      · exact (List.suffix_cons _ _).trans (hcode ▸ h.code)
  · obtain ⟨c, hreach, heq⟩ := h.reached
    -- the label is none where the wrapper pops its stack, so that the line is one that spares it
    have hspares : a.Spares := Jit.spares hstack (Jit.reaches_segErrors hreach hstart) a
      (h.code.subset (hcode ▸ List.mem_cons_self))
    obtain ⟨hexec, hkeeps⟩ := hspares.runOn hcpu (h.kept.rbp.trans hrbp)
      (fun name args ha => hapart name args code (ha ▸ hcode)) hrun
    refine ⟨⟨c, hreach, fun next => ?_⟩, ?_, h.kept.trans hkeeps⟩
    · rw [heq, hcode, runs_cons hjump, hexec]
      rfl
    · exact (List.suffix_cons _ _).trans (hcode ▸ h.code)

theorem Follows.reaches (h : Follows isa jit place own start s x) (hcpu : isa.RunsOn cpu)
    (hstack : jit.NoStackUsers) (hstart : start.1 ∉ Jit.segErrors)
    (hrbp : s.regs .rbp = place.top - 8)
    (hapart : ∀ y, Reaches (Point.step isa cpu jit.file) x y → y.Avoids cpu place.bytes)
    (hrun : Reaches (Point.step isa cpu jit.file) x y) : Follows isa jit place own start s y := by
  induction hrun with
  | refl => exact h
  | tail hrun hstep ih => exact ih.step hcpu hstack hstart hrbp (hapart _ hrun) hstep

end Run

def Core.state (s : Core) (flags : Flag → Bool) (vec : Nat → BitVec 128) : State where
  regs
    | .gpr g => s.regs g
    | _ => 0
  env := ⟨flags, s.mem, vec⟩

/-- The start of the translated code. `main` has run; `flags` is what its last `sub` makes of the
flags. -/
def Jit.start (jit : Jit) (s : Core) (flags : Flag → Bool) (vec : Nat → BitVec 128) : Point :=
  .enter jit.file (.loc jit.entry) ((s.run mainText).state flags vec)

/-- `virt_ptr(regs, args)` up to its `ret`: `main`, the translated code as far as `exit`, and the
exit code. -/
inductive VirtPtr (isa : Isa) (cpu : Processor) (jit : Jit) (place : Place) (s : Core)
    (flags : Flag → Bool) (vec : Nat → BitVec 128) : Core → (Nat → BitVec 128) → Prop
  | exits {p : State} (called : place.Called s)
      (run : Reaches (Point.step isa cpu jit.file) (jit.start s flags vec)
        (.enter jit.file .exit p)) :
      VirtPtr isa cpu jit place s flags vec (p.core.run leaveText) p.env.vec

theorem VirtPtr.called {isa : Isa} {cpu : Processor} {jit : Jit} {place : Place} {s s' : Core}
    {flags : Flag → Bool} {vec vec' : Nat → BitVec 128}
    (h : VirtPtr isa cpu jit place s flags vec s' vec') : place.Called s := by
  cases h with
  | exits called run => exact called

/-- As long as the code runs, no instruction of the program reads or writes `pt_regs`, `args` or the
frame. -/
def Jit.StaysApart (jit : Jit) (isa : Isa) (cpu : Processor) (place : Place) (s : Core)
    (flags : Flag → Bool) (vec : Nat → BitVec 128) : Prop :=
  ∀ x, Reaches (Point.step isa cpu jit.file) (jit.start s flags vec) x → x.Avoids cpu place.bytes

section Call

variable {isa : Isa} {cpu : Processor} {jit : Jit} {place : Place} {s s' : Core}
  {flags : Flag → Bool} {vec vec' : Nat → BitVec 128}

/-- The code on the processor, from its start on, next to the machine with its own frame. -/
theorem Jit.follows (hcpu : isa.RunsOn cpu) (hstack : jit.NoStackUsers) (called : place.Called s)
    (hapart : jit.StaysApart isa cpu place s flags vec) (own : BitVec 64 → BitVec 8) {x : Point}
    (hrun : Reaches (Point.step isa cpu jit.file) (jit.start s flags vec) x) :
    Follows isa jit place own
      (.loc jit.entry, place.machine own ((s.run mainText).state flags vec)) (s.run mainText) x := by
  have hrbp := (framed_main called).rbp
  unfold Jit.StaysApart at hapart
  rw [Jit.start] at hapart hrun
  generalize s.run mainText = t at hapart hrun hrbp ⊢
  have hstart : Follows isa jit place own (.loc jit.entry, place.machine own (t.state flags vec)) t
      (.enter jit.file (.loc jit.entry) (t.state flags vec)) :=
    ⟨⟨_, .refl, fun _ => rfl⟩, List.suffix_refl _, .refl place t⟩
  exact hstart.reaches hcpu hstack (by simp [Jit.segErrors]) hrbp hapart hrun

end Call

/-- A general register in `pt_regs`. -/
def PtRegs.gpr (regs : PtRegs) : Gpr → BitVec 64
  | .rax => regs.ax
  | .rcx => regs.cx
  | .rdx => regs.dx
  | .rbx => regs.bx
  | .rsp => regs.sp
  | .rbp => regs.bp
  | .rsi => regs.si
  | .rdi => regs.di
  | .r8 => regs.r8
  | .r9 => regs.r9
  | .r10 => regs.r10
  | .r11 => regs.r11
  | .r12 => regs.r12
  | .r13 => regs.r13
  | .r14 => regs.r14
  | .r15 => regs.r15

/-- The program as `pt_regs` and the two segment bases describe it. -/
def PtRegs.state (regs : PtRegs) (fs gs : BitVec 64) (env : Env) : State where
  regs
    | .gpr g => regs.gpr g
    | .seg .fs => fs
    | .seg .gs => gs
    | _ => 0
  env := env

/-- `pt_regs` with the registers of the program at `ip`. -/
def PtRegs.resume (regs : PtRegs) (s : State) (ip : BitVec 64) : PtRegs where
  r15 := s.regs (.gpr .r15)
  r14 := s.regs (.gpr .r14)
  r13 := s.regs (.gpr .r13)
  r12 := s.regs (.gpr .r12)
  bp := s.regs (.gpr .rbp)
  bx := s.regs (.gpr .rbx)
  r11 := s.regs (.gpr .r11)
  r10 := s.regs (.gpr .r10)
  r9 := s.regs (.gpr .r9)
  r8 := s.regs (.gpr .r8)
  ax := s.regs (.gpr .rax)
  cx := s.regs (.gpr .rcx)
  dx := s.regs (.gpr .rdx)
  si := s.regs (.gpr .rsi)
  di := s.regs (.gpr .rdi)
  origAx := regs.origAx
  ip := ip
  flags := regs.flags
  sp := s.regs (.gpr .rsp)

theorem PtRegs.resume_gpr (regs : PtRegs) (s : State) (ip : BitVec 64) (g : Gpr) :
    (regs.resume s ip).gpr g = s.regs (.gpr g) := by
  cases g <;> rfl

section Context

variable {isa : Isa} {cpu : Processor} {jit : Jit} {place : Place} {s s' : Core}
  {flags : Flag → Bool} {vec vec' : Nat → BitVec 128} {own : BitVec 64 → BitVec 8}

theorem Place.ptRegs_gpr (s : Core) (g : Gpr) :
    (place.ptRegs s).gpr g = place.word s (.pt (ptIndex g)) := by
  cases g <;> rfl

/-- At the start of a block the state of the program is where the register convention has it. -/
theorem absRegs_gpr (p : State) (g : Gpr) :
    absRegs blockInit (place.machine own p) (.gpr g) = place.user p.core g := by
  cases g <;> rfl

theorem abs_machine_of_user (p : State) {regs : PtRegs} {fs gs : BitVec 64}
    (hseg : ∀ sg, p.regs (.seg sg) = 0) (huser : ∀ g, place.user p.core g = regs.gpr g)
    (hfs : place.slot p.core 15 = fs) (hgs : place.slot p.core 14 = gs) :
    abs blockInit (place.machine own p) = regs.state fs gs (place.machine own p).env := by
  have hregs : absRegs blockInit (place.machine own p) = (regs.state fs gs p.env).regs := by
    funext f
    cases f with
    | gpr g => exact (absRegs_gpr p g).trans (huser g)
    | seg sg =>
        cases sg with
        | fs => exact hfs
        | gs => exact hgs
        | _ => exact hseg _
    | tmp t => cases t <;> rfl
  exact congrArg (State.mk · _) hregs

/-- Translated code starts in the state that the caller's `pt_regs` and `args` describe. -/
theorem abs_machine (called : place.Called s) :
    abs blockInit (place.machine own ((s.run mainText).state flags vec)) =
      (place.ptRegs s).state (place.word s (.arg 0)) (place.word s (.arg 1))
        ⟨flags, place.bytes.piecewise own s.mem, vec⟩ := by
  have hmain := shows_main called
  have hfs : place.slot (s.run mainText) 15 = place.word s (.arg 0) :=
    hmain.cells (.stack 16) (by decide)
  have hgs : place.slot (s.run mainText) 14 = place.word s (.arg 1) :=
    hmain.cells (.stack 15) (by decide)
  have huser : ∀ g, place.user (s.run mainText) g = (place.ptRegs s).gpr g := by
    intro g
    rw [main_user called g, Place.ptRegs_gpr]
  have hmem : place.bytes.piecewise own (s.run mainText).mem = place.bytes.piecewise own s.mem :=
    Place.piecewise_congr own ((shows_called called).run_eqOn (based_main called))
  rw [← hmem]
  generalize s.run mainText = t at hfs hgs huser ⊢
  exact abs_machine_of_user (t.state flags vec) (fun _ => rfl) huser hfs hgs

/-- What the caller finds in `pt_regs`, `args` and the memory of the program when the code has come to
its exit. -/
theorem VirtPtr.context (h : VirtPtr isa cpu jit place s flags vec s' vec') (hcpu : isa.RunsOn cpu)
    (hstack : jit.NoStackUsers) (hapart : jit.StaysApart isa cpu place s flags vec)
    (own : BitVec 64 → BitVec 8) :
    ∃ c, Reaches (flow isa jit.file)
        (.loc jit.entry, place.machine own ((s.run mainText).state flags vec)) (.exit, c) ∧
      c.env.mem = place.bytes.piecewise own s'.mem ∧ c.env.vec = vec' ∧
      place.ptRegs s' = (place.ptRegs s).resume (abs blockInit c) (c.regs (.gpr .r14)) ∧
      place.word s' (.arg 0) = c.frame ijSlot := by
  cases h with
  | @exits p called run =>
      have hfollows := Jit.follows hcpu hstack called hapart own run
      have hbody : BodyKeeps place (s.run mainText) p.core := hfollows.kept
      have hframed := (framed_main called).body hbody
      obtain ⟨c, hreach, hruns⟩ := hfollows.reached
      have hc : c = place.machine own p := by
        have hexit := hruns (some .exit)
        change runs isa (some .exit) (codeAt jit.file .exit) c =
          runs isa (some .exit) (codeAt jit.file .exit) (place.machine own p) at hexit
        rw [Jit.file, codeAt_exit] at hexit
        exact congrArg Prod.snd (Option.some.inj hexit)
      rw [hc] at hreach
      have hkept : ∀ k < 21, place.word p.core (.pt k) = place.word s (.pt k) := fun k hk =>
        (hbody.word (.pt k) hk trivial).trans ((shows_main called).cells (.pt k) hk)
      obtain ⟨hregs, harg⟩ := @leave_runExit place _ hframed (place.machine own p) (fun _ => rfl)
        (fun k hk => if_pos hk) 0 0
      obtain ⟨harg', hspec⟩ := runExit_spec (place.machine own p) (place.ptRegs p.core) 0 0
      have hmem : place.bytes.piecewise own (p.core.run leaveText).mem =
          place.bytes.piecewise own p.env.mem :=
        Place.piecewise_congr own ((shows_framed hframed).run_eqOn (based_leave hframed))
      refine ⟨place.machine own p, hreach, hmem.symm, rfl, ?_, harg.trans harg'⟩
      rw [hregs, hspec]
      have horig := hkept 15 (by decide)
      have hflags := hkept 18 (by decide)
      simp only [Place.ptRegs, horig, hflags]
      rfl

end Context

/-- **Translated code returns to its caller.** Whatever the program, the pop orders and the registers
are: if no instruction that is emitted as it is uses the stack without naming it, and none reads or
writes `pt_regs`, `args` or the wrapper's frame, then the caller of `virt_ptr` goes on behind its call
when the code comes to its exit, with RSP and the registers that a callee saves as they were; and on
its way the code has not been at a label where the wrapper pops its stack. -/
theorem virt_ptr_returns {isa : Isa} {cpu : Processor} {jit : Jit} {place : Place} {s s' : Core}
    {flags : Flag → Bool} {vec vec' : Nat → BitVec 128} (hcpu : isa.RunsOn cpu)
    (hstack : jit.NoStackUsers) (hapart : jit.StaysApart isa cpu place s flags vec)
    (h : VirtPtr isa cpu jit place s flags vec s' vec') :
    s'.returnAddr = s.returnAddr ∧ s'.ret.regs .rsp = s.regs .rsp + 8 ∧
      (∀ g ∈ calleeSaved, s'.ret.regs g = s.regs g) ∧
      ∀ x, Reaches (Point.step isa cpu jit.file) (jit.start s flags vec) x →
        x.label ∉ Jit.segErrors := by
  obtain @⟨p, called, run⟩ := h
  have hfollows := fun {x} => @Jit.follows isa cpu jit place s flags vec hcpu hstack called hapart
    (fun _ => 0) x
  have hbody : BodyKeeps place (s.run mainText) p.core := (hfollows run).kept
  obtain ⟨hrsp, hreturn⟩ := leave_rsp called hbody
  refine ⟨hreturn, by rw [Core.ret_rsp, hrsp], fun g hg => ?_, fun x hx => ?_⟩
  · have hne : g ≠ .rsp := fun heq => by
      subst heq
      simp [calleeSaved] at hg
    rw [Core.ret_regs _ hne]
    exact main_saved called hbody hg
  · obtain ⟨c, hreach, -⟩ := (hfollows hx).reached
    exact Jit.reaches_segErrors hreach (by simp [Jit.segErrors])

section Trace

variable {isa : Isa} {cpu : Processor} {jit : Jit} {place : Place} {s : Core} {flags : Flag → Bool}
  {vec : Nat → BitVec 128} {n : Nat} {x : Point}

/-- A run that has been computed up to the exit. -/
theorem VirtPtr.of_trace (called : place.Called s)
    (hlast : (trace (Point.step isa cpu jit.file) n (jit.start s flags vec)).getLast? = some x)
    (hlabel : x.label = .exit) (hcode : x.code = []) :
    VirtPtr isa cpu jit place s flags vec (x.state.core.run leaveText) x.state.env.vec := by
  have hx : x = .enter jit.file .exit x.state := by
    have hexit : codeAt jit.file .exit = [] := codeAt_exit
    rw [Point.enter, hexit, ← hlabel, ← hcode]
  have hrun := reaches_of_mem_trace (List.mem_of_getLast? hlast)
  rw [hx] at hrun
  exact .exits called hrun

theorem Jit.StaysApart.of_trace
    (hlast : (trace (Point.step isa cpu jit.file) n (jit.start s flags vec)).getLast? = some x)
    (hlabel : x.label = .exit)
    (h : ∀ y ∈ trace (Point.step isa cpu jit.file) n (jit.start s flags vec),
      y.Avoids cpu place.bytes) : jit.StaysApart isa cpu place s flags vec :=
  fun y hy => h y (mem_trace_of_reaches hlast (if_pos hlabel) hy)

end Trace

/-- A processor for the instructions of `coreIsa`, which also has PUSHFQ. -/
def coreCpu : Processor := fun name args p =>
  if name = "PUSHFQ" then some (p.push (Special.flagsWord p.env.flags))
  else execInst coreIsa 0 name args p

theorem coreIsa_runsOn : coreIsa.RunsOn coreCpu := by
  intro name args p hname
  refine if_neg ?_
  rintro rfl
  exact hname (by decide)

section Core

variable {region : Set (BitVec 64)} [DecidablePred (· ∈ region)] {own mem : BitVec 64 → BitVec 8}
  {a : BitVec 64}

theorem load64_piecewise (h : ∀ i < 8, a + BitVec.ofNat 64 i ∉ region) :
    load64 (region.piecewise own mem) a = load64 mem a :=
  congrArg (BitVec.ofNat 64) (loadNat_congr fun i hi => Set.piecewise_eq_of_notMem _ _ _ (h i hi))

theorem store_piecewise {n : Nat} (hn : n ≤ 8) (h : ∀ i < 8, a + BitVec.ofNat 64 i ∉ region)
    (value : BitVec 64) :
    store n (region.piecewise own mem) a value = region.piecewise own (store n mem a value) := by
  funext x
  by_cases hx : x ∈ region
  · have hge : ¬(x - a).toNat < n := by
      intro hlt
      refine h _ (lt_of_lt_of_le hlt hn) ?_
      rwa [BitVec.ofNat_toNat, BitVec.setWidth_eq, add_sub_cancel]
    rw [store, if_neg hge, Set.piecewise_eq_of_mem _ _ _ hx, Set.piecewise_eq_of_mem _ _ _ hx]
  · rw [Set.piecewise_eq_of_notMem _ _ _ hx, store, store, Set.piecewise_eq_of_notMem _ _ _ hx]

/-- An instruction does the same wherever its memory operands are not. -/
theorem coreEffect_piecewise {name : String} {operands : List Operand}
    (h : name ≠ "LEA" → ∀ size a, .mem size a ∈ operands → ∀ i < 8, a + BitVec.ofNat 64 i ∉ region) :
    coreEffect (region.piecewise own mem) name operands =
      (coreEffect mem name operands).map fun r => (r.1, region.piecewise own r.2.1, r.2.2) := by
  unfold coreEffect
  split
  · rfl
  · rw [load64_piecewise (h (by decide) 64 _ (by simp))]
    rfl
  · rw [store_piecewise (by decide) (h (by decide) 64 _ (by simp))]
    rfl
  · rw [store_piecewise (by decide) (h (by decide) 32 _ (by simp))]
    rfl
  · rw [store_piecewise (by decide) (h (by decide) 16 _ (by simp))]
    rfl
  · rfl
  · rfl
  · rfl
  · rfl

end Core

/-- What `coreEffect` makes of the state. -/
def State.coreAfter (p : State) (args : List Arg)
    (r : Option (BitVec 64) × (BitVec 64 → BitVec 8) × Option (Flag → Bool)) : State where
  regs := writeArgs args [r.1, none] p.regs
  env := { p.env with mem := r.2.1, flags := r.2.2.getD p.env.flags }

theorem execInst_core (name : String) (args : List Arg) (p : State) :
    execInst coreIsa 0 name args p =
      (coreEffect p.env.mem name (args.map (Arg.eval (readReg 0 p.regs)))).map (p.coreAfter args) := by
  simp only [execInst, coreIsa, Option.map_map]
  congr 1
  funext r
  exact congrArg (State.mk · _) (writeHidden_none (fun _ => rfl) _)

/-- The instruction that is to run next has its memory operands outside `place`. -/
def Point.coreApart (place : Place) (x : Point) : Bool :=
  match x.code with
  | .inst name args :: _ => name ≠ "PUSHFQ" && (name = "LEA" || args.all fun arg =>
      match arg with
      | .mem m => (List.range 8).all fun i =>
          m.address (readReg 0 x.state.regs) + BitVec.ofNat 64 i ∉ place.bytes
      | _ => true)
  | _ => true

theorem Point.avoids_of_coreApart {place : Place} {x : Point} (h : x.coreApart place = true) :
    x.Avoids coreCpu place.bytes := by
  intro name args code hcode own
  obtain ⟨label, text, p⟩ := x
  cases hcode
  simp only [Point.coreApart, Bool.and_eq_true, decide_eq_true_eq, Bool.or_eq_true,
    List.all_eq_true] at h
  obtain ⟨hname, hapart⟩ := h
  have hops : name ≠ "LEA" → ∀ size a,
      .mem size a ∈ args.map (Arg.eval (readReg 0 p.regs)) → ∀ i < 8,
        a + BitVec.ofNat 64 i ∉ place.bytes := by
    intro hlea size a hmem i hi
    obtain ⟨arg, harg, heval⟩ := List.mem_map.mp hmem
    have hbytes := (hapart.resolve_left hlea) arg harg
    cases arg with
    | mem m =>
        cases heval
        simp only [List.all_eq_true, decide_eq_true_eq] at hbytes
        exact hbytes i (List.mem_range.mpr hi)
    | reg r => cases r <;> cases heval
    | _ => cases heval
  have heffect : coreEffect (place.bytes.piecewise own p.env.mem) name
      (args.map (Arg.eval (readReg 0 p.regs))) = _ := coreEffect_piecewise hops
  have hcpu : ∀ q : State, coreCpu name args q =
      (coreEffect q.env.mem name (args.map (Arg.eval (readReg 0 q.regs)))).map (q.coreAfter args) :=
    fun q => (if_neg hname).trans (execInst_core name args q)
  rw [hcpu, hcpu]
  change (coreEffect (place.bytes.piecewise own p.env.mem) name
    (args.map (Arg.eval (readReg 0 p.regs)))).map _ = _
  rw [heffect, Option.map_map, Option.map_map]
  rfl

namespace Poll

/-- The texts of the blocks. -/
def blocks : List (Label × List Asm) :=
  [(.loc 0x401000, [.inst "MOVABS" [.reg (.gpr .r15 .q), .int ⟨0x401005, 64⟩],
      .inst "LEA" [.reg (.gpr .r13 .q), .mem ⟨64, [.gpr .r13 .q], some ⟨2 ^ 64 - 8, 64⟩, none⟩],
      .inst "MOV" [.mem ⟨64, [.gpr .r13 .q], none, none⟩, .reg (.gpr .r15 .q)],
      .jump "JMP" (.loc 0x401020)]),
    (.loc 0x401005, [.shl (.gpr .rbx .q), .shr (.gpr .rbx .q),
      .inst "MOV" [.reg (.gpr .rax .q), .mem ⟨64, [.gpr .rbx .q], none, none⟩],
      .inst "CMP" [.reg (.gpr .rax .q), .reg (.gpr .rcx .q)], .jump "JNZ" (.loc 0x401000)]),
    (.loc 0x40100d, [.movabs .p14 0x40100d, .jump "JMP" .compSyscall]),
    (.loc 0x401020, [.inst "MOV" [.reg (.gpr .r15 .q), .mem ⟨64, [.gpr .r13 .q], none, none⟩],
      .inst "LEA" [.reg (.gpr .r13 .q), .mem ⟨64, [.gpr .r13 .q], some ⟨8, 64⟩, none⟩],
      .moveTarget "R15", .jump "JMP" (.ij 0x401021)])]

def file : List (Item Label Asm) :=
  [Asm.jump "JMP" (.loc 0x401000)].map .code ++ sections (blocks ++
    makeJumpTable [(0x401021, [0x401005])] ++ makeCalleeTable [] ++ wrapperLabels)

theorem emitted_blocks : ((translateBlocks .standard (sortedBlocks dict.items) .start).map fun r =>
    r.1.map fun b => ((.loc b.1 : Label), emittedText b.2)) = some blocks := by
  decide +kernel

theorem Translation.file {jit : Jit} (h : Translation jit) : jit.file = Poll.file := by
  have hblocks : jit.emitted.map (fun b => ((.loc b.1 : Label), emittedText b.2)) = blocks := by
    have hrun := jit.run
    have htexts := emitted_blocks
    rw [h.world, h.dict] at hrun
    rw [hrun] at htexts
    exact Option.some.inj htexts
  rw [Jit.file, jitFile, hblocks, h.entry, h.jumpTable, h.missing]
  rfl

/-- A call of `virt_ptr`, before `pt_regs` is filled in. -/
def blankCall : Core where
  regs
    | .rsp => 0x2F00
    | .rdi => 0x1000
    | .rsi => 0x2100
    | _ => 0
  mem _ := 0

/-- The program stands at its start, with its stack at `sp`. -/
def callAt (sp : BitVec 64) : Core :=
  ((blankCall.setMem (somewhere.addr (.pt 5)) 0x500000).setMem (somewhere.addr (.pt 16))
    0x401000).setMem (somewhere.addr (.pt 19)) sp

def startCall : Core := callAt 0x7ffe0000

theorem called_callAt (sp : BitVec 64) : somewhere.Called (callAt sp) := ⟨rfl, rfl, rfl⟩

/-- The run on the processor. -/
def points (sp : BitVec 64) : List Point :=
  trace (Point.step coreIsa coreCpu file) 21
    (.enter file (.loc 0x401000) (((callAt sp).run mainText).state start.env.flags start.env.vec))

theorem Translation.trace_eq {jit : Jit} (h : Translation jit) (sp : BitVec 64) :
    trace (Point.step coreIsa coreCpu jit.file) 21
      (jit.start (callAt sp) start.env.flags start.env.vec) = points sp := by
  rw [Jit.start, h.file, h.entry]
  rfl

theorem points_exit : ((points 0x7ffe0000).getLast?.any fun x =>
    x.label = .exit ∧ x.code = []) = true := by
  decide +kernel

theorem points_apart : (points 0x7ffe0000).all (Point.coreApart somewhere) = true := by
  decide +kernel

/-- The last point of the run. -/
theorem Translation.exists_last {jit : Jit} (h : Translation jit) {sp : BitVec 64}
    {P : Point → Bool} (hpoints : (points sp).getLast?.any P = true) :
    ∃ x, (trace (Point.step coreIsa coreCpu jit.file) 21
      (jit.start (callAt sp) start.env.flags start.env.vec)).getLast? = some x ∧ P x = true := by
  rw [h.trace_eq]
  exact (Option.any_eq_true _ _).mp hpoints

/-- A translation of the program, called at its start, comes back, and stays away from the frame. -/
theorem Translation.exists_virtPtr {jit : Jit} (h : Translation jit) :
    jit.StaysApart coreIsa coreCpu somewhere startCall start.env.flags start.env.vec ∧
      ∃ s vec, VirtPtr coreIsa coreCpu jit somewhere startCall start.env.flags start.env.vec s vec := by
  obtain ⟨x, hlast, hexit⟩ := h.exists_last points_exit
  obtain ⟨hlabel, hcode⟩ := of_decide_eq_true hexit
  refine ⟨.of_trace hlast hlabel fun y hy => ?_, _, _, .of_trace (called_callAt _) hlast hlabel hcode⟩
  exact Point.avoids_of_coreApart (List.all_eq_true.mp points_apart y (h.trace_eq _ ▸ hy))

end Poll

theorem virt_ptr_returns_poll : ∃ (jit : Jit) (s : Core) (vec : Nat → BitVec 128),
    jit.dict = Poll.dict ∧
    VirtPtr coreIsa coreCpu jit somewhere Poll.startCall Poll.start.env.flags Poll.start.env.vec s vec ∧
      s.returnAddr = Poll.startCall.returnAddr ∧ s.ret.regs .rsp = 0x2F08 ∧ s.ret.regs .r15 = 0 := by
  obtain ⟨jit, hjit⟩ := Poll.exists_translation
  obtain ⟨hapart, s, vec, hcall⟩ := hjit.exists_virtPtr
  obtain ⟨hreturn, hrsp, hsaved, -⟩ :=
    virt_ptr_returns coreIsa_runsOn hjit.certified.stack hapart hcall
  exact ⟨jit, s, vec, hjit.dict, hcall, hreturn, hrsp, hsaved .r15 (by decide)⟩

/-- With the stack of the program next to the frame, CALL writes over the return address: the kernel
goes on in the program. -/
theorem call_overwrites_return : ∃ (jit : Jit) (s : Core) (vec : Nat → BitVec 128),
    jit.NoStackUsers ∧ jit.dict = Poll.dict ∧
    VirtPtr coreIsa coreCpu jit somewhere (Poll.callAt 0x2F08) Poll.start.env.flags
      Poll.start.env.vec s vec ∧ s.returnAddr = 0x401005 := by
  obtain ⟨jit, hjit⟩ := Poll.exists_translation
  have hpoints : ((Poll.points 0x2F08).getLast?.any fun x => x.label = .exit ∧ x.code = [] ∧
      (x.state.core.run leaveText).returnAddr = 0x401005) = true := by
    decide +kernel
  obtain ⟨x, hlast, hexit⟩ := hjit.exists_last hpoints
  obtain ⟨hlabel, hcode, hreturn⟩ := of_decide_eq_true hexit
  exact ⟨jit, _, _, hjit.certified.stack, hjit.dict,
    .of_trace (Poll.called_callAt _) hlast hlabel hcode, hreturn⟩

/-- `PUSHFQ; SYSCALL` -/
def pushfqDict : BlockDict where
  items := [(0x401000, ⟨[{ name := "PUSHFQ", args := [], l := 1 }, syscallLine], []⟩)]
  nodup := by decide
  positive := by decide
  undecoded := by decide
  branch := by simp [syscallLine, conditionalBranch, unconditionalBranch]
  closed := by decide

theorem find_pushfqDict : find pushfqDict.items [] = some ⟨[], []⟩ := rfl

/-- PUSHFQ is emitted as it is, and pushes to the stack of the wrapper: the caller gets its RSP back 8
too low. -/
theorem pushfq_moves_stack : ∃ (jit : Jit) (s : Core) (vec : Nat → BitVec 128),
    jit.dict = pushfqDict ∧
    VirtPtr coreIsa coreCpu jit somewhere Poll.startCall Poll.start.env.flags Poll.start.env.vec s vec ∧
      s.ret.regs .rsp = 0x2F00 := by
  have hpoints : ((translateBlocks .standard (sortedBlocks pushfqDict.items) .start).any fun r =>
      (trace (Point.step coreIsa coreCpu (jitFile 0x401000 r.1 [] [])) 7
        (.enter (jitFile 0x401000 r.1 [] []) (.loc 0x401000)
          ((Poll.startCall.run mainText).state Poll.start.env.flags Poll.start.env.vec))).getLast?.any
        fun x => x.label = .exit ∧ x.code = [] ∧
          (x.state.core.run leaveText).ret.regs .rsp = 0x2F00) = true := by
    decide +kernel
  obtain ⟨⟨emitted, last⟩, hrun, htrace⟩ := (Option.any_eq_true _ _).mp hpoints
  obtain ⟨x, hlast, hexit⟩ := (Option.any_eq_true _ _).mp htrace
  obtain ⟨hlabel, hcode, hrsp⟩ := of_decide_eq_true hexit
  let jit : Jit := ⟨.standard, 0x401000, pushfqDict, [], _, emitted, last, find_pushfqDict, hrun⟩
  exact ⟨jit, _, _, rfl, .of_trace (Poll.called_callAt _) hlast hlabel hcode, hrsp⟩

end UserspaceBypass
