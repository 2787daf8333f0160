import UserspaceBypass.ExitCode
import UserspaceBypass.LibMemory

/-! `wrapper.S` around the translated code: `main` up to the include of `jit.S`, and `exit`. The
frame is laid out three times, by the pushes, by the names of its slots and by the pops, and the
fields of `pt_regs` a fourth time by their offsets. Memory is a memory of bytes; `pt_regs`, `args`
and the frame lie apart in it. -/

namespace UserspaceBypass

open Memory

/-- The general registers and the memory. -/
structure Core where
  regs : Gpr → BitVec 64
  mem : BitVec 64 → BitVec 8

/-- The memory operands that `asm_head.h` defines: `[ARG_REG + 8*k]`, `[PT_REG + 8*k]` and
`[RBP - 8*k]`. -/
inductive MemOp where
  | arg (k : Nat)
  | pt (k : Nat)
  | stack (k : Nat)
  deriving DecidableEq, Repr

def MemOp.addr (regs : Gpr → BitVec 64) : MemOp → BitVec 64
  | .arg k => regs .r15 + BitVec.ofNat 64 (8 * k)
  | .pt k => regs .r14 + BitVec.ofNat 64 (8 * k)
  | .stack k => regs .rbp - BitVec.ofNat 64 (8 * k)

inductive WrapInst where
  | push (g : Gpr)
  | pushMem (m : MemOp)
  | pop (g : Gpr)
  | popMem (m : MemOp)
  | mov (dst src : Gpr)
  | load (g : Gpr) (m : MemOp)
  | store (m : MemOp) (g : Gpr)
  /-- `sub RSP, n*8` -/
  | sub (n : Nat)
  /-- `add RSP, n*8` -/
  | add (n : Nat)
  deriving DecidableEq, Repr

namespace Core

def setReg (s : Core) (g : Gpr) (value : BitVec 64) : Core :=
  { s with regs := Function.update s.regs g value }

def setMem (s : Core) (a : BitVec 64) (value : BitVec 64) : Core :=
  { s with mem := Memory.store 8 s.mem a value }

def pushed (s : Core) (value : BitVec 64) : Core :=
  (s.setReg .rsp (s.regs .rsp - 8)).setMem (s.regs .rsp - 8) value

def exec (s : Core) : WrapInst → Core
  | .push g => s.pushed (s.regs g)
  | .pushMem m => s.pushed (load64 s.mem (m.addr s.regs))
  | .pop g => (s.setReg .rsp (s.regs .rsp + 8)).setReg g (load64 s.mem (s.regs .rsp))
  | .popMem m =>
      (s.setReg .rsp (s.regs .rsp + 8)).setMem (m.addr s.regs) (load64 s.mem (s.regs .rsp))
  | .mov dst src => s.setReg dst (s.regs src)
  | .load g m => s.setReg g (load64 s.mem (m.addr s.regs))
  | .store m g => s.setMem (m.addr s.regs) (s.regs g)
  | .sub n => s.setReg .rsp (s.regs .rsp - BitVec.ofNat 64 (8 * n))
  | .add n => s.setReg .rsp (s.regs .rsp + BitVec.ofNat 64 (8 * n))

def run (text : List WrapInst) (s : Core) : Core := text.foldl exec s

/-- `ret`: the caller goes on at the address on the stack. -/
def returnAddr (s : Core) : BitVec 64 := load64 s.mem (s.regs .rsp)

def ret (s : Core) : Core := s.setReg .rsp (s.regs .rsp + 8)

theorem ret_rsp (s : Core) : s.ret.regs .rsp = s.regs .rsp + 8 :=
  Function.update_self Gpr.rsp _ s.regs

theorem ret_regs (s : Core) {g : Gpr} (h : g ≠ .rsp) : s.ret.regs g = s.regs g :=
  Function.update_of_ne h ..

end Core

/-- `main` -/
def mainText : List WrapInst :=
  [.push .rbp, .mov .rbp .rsp, .push .rbx, .push .r12, .push .r13, .push .r14, .push .r15,
    .push .rdi, .push .rsi, .mov .r14 .rdi, .mov .r15 .rsi,
    .load .rbx (.pt 5), .load .r11 (.pt 6), .load .r10 (.pt 7), .load .r9 (.pt 8), .load .r8 (.pt 9),
    .load .rax (.pt 10), .load .rcx (.pt 11), .load .rdx (.pt 12), .load .rsi (.pt 13),
    .load .rdi (.pt 14),
    .pushMem (.pt 4), .pushMem (.pt 19), .pushMem (.pt 0), .pushMem (.pt 1), .pushMem (.pt 2),
    .pushMem (.pt 3), .pushMem (.arg 1), .pushMem (.arg 0), .sub 3,
    .load .r13 (.stack 9), .load .r12 (.stack 8)]

/-- `exit`, up to `ret`. -/
def leaveText : List WrapInst :=
  [.store (.stack 16) .r14, .store (.stack 9) .r13, .store (.stack 8) .r12,
    .load .r14 (.stack 6), .load .r15 (.stack 7),
    .popMem (.arg 1), .popMem (.arg 0), .popMem (.pt 16), .add 2,
    .popMem (.pt 3), .popMem (.pt 2), .popMem (.pt 1), .popMem (.pt 0), .popMem (.pt 19),
    .popMem (.pt 4),
    .store (.pt 5) .rbx, .store (.pt 6) .r11, .store (.pt 7) .r10, .store (.pt 8) .r9,
    .store (.pt 9) .r8, .store (.pt 10) .rax, .store (.pt 11) .rcx, .store (.pt 12) .rdx,
    .store (.pt 13) .rsi, .store (.pt 14) .rdi,
    .add 2, .pop .r15, .pop .r14, .pop .r13, .pop .r12, .pop .rbx, .pop .rbp]

/-- A word of `pt_regs` or of `args`, or one `k` words below the return address. -/
inductive Cell where
  | pt (k : Nat)
  | arg (k : Nat)
  | stack (k : Nat)
  deriving DecidableEq, Repr

/-- `struct pt_regs` has 21 words, `args` two, and the frame reaches down to `Stack_INST_CNT`. -/
def Cell.Valid : Cell → Prop
  | .pt k => k < 21
  | .arg k => k < 2
  | .stack k => k < 20

instance : DecidablePred Cell.Valid
  | .pt k => inferInstanceAs (Decidable (k < 21))
  | .arg k => inferInstanceAs (Decidable (k < 2))
  | .stack k => inferInstanceAs (Decidable (k < 20))

/-- Where a call finds `pt_regs`, `args` and the return address. The frame lies in the 19 words below
that. -/
structure Place where
  pt : BitVec 64
  args : BitVec 64
  top : BitVec 64
  pt_args : ∀ i < 168, ∀ j < 16, pt + BitVec.ofNat 64 i ≠ args + BitVec.ofNat 64 j
  pt_stack : ∀ i < 168, ∀ j < 160, pt + BitVec.ofNat 64 i ≠ top - 152 + BitVec.ofNat 64 j
  args_stack : ∀ i < 16, ∀ j < 160, args + BitVec.ofNat 64 i ≠ top - 152 + BitVec.ofNat 64 j

namespace Place

variable (place : Place)

def addr : Cell → BitVec 64
  | .pt k => place.pt + BitVec.ofNat 64 (8 * k)
  | .arg k => place.args + BitVec.ofNat 64 (8 * k)
  | .stack k => place.top - BitVec.ofNat 64 (8 * k)

/-- What a word holds. -/
def word (s : Core) (c : Cell) : BitVec 64 := load64 s.mem (place.addr c)

/-- The slot `[RBP - 8*k]`; RBP points to the word below the return address. -/
def slot (s : Core) (k : Nat) : BitVec 64 := place.word s (.stack (k + 1))

/-- The register convention of translated code: RSP in R13, RBP in R12, and R12 to R15 in their
slots. -/
def user (s : Core) : Gpr → BitVec 64
  | .rsp => s.regs .r13
  | .rbp => s.regs .r12
  | .r12 => place.slot s 13
  | .r13 => place.slot s 12
  | .r14 => place.slot s 11
  | .r15 => place.slot s 10
  | g => s.regs g

/-- What the kernel reads as `regs`. -/
def ptRegs (s : Core) : PtRegs where
  r15 := place.word s (.pt 0)
  r14 := place.word s (.pt 1)
  r13 := place.word s (.pt 2)
  r12 := place.word s (.pt 3)
  bp := place.word s (.pt 4)
  bx := place.word s (.pt 5)
  r11 := place.word s (.pt 6)
  r10 := place.word s (.pt 7)
  r9 := place.word s (.pt 8)
  r8 := place.word s (.pt 9)
  ax := place.word s (.pt 10)
  cx := place.word s (.pt 11)
  dx := place.word s (.pt 12)
  si := place.word s (.pt 13)
  di := place.word s (.pt 14)
  origAx := place.word s (.pt 15)
  ip := place.word s (.pt 16)
  flags := place.word s (.pt 18)
  sp := place.word s (.pt 19)

/-- The call `virt_ptr(regs, args)`. -/
structure Called (s : Core) : Prop where
  rsp : s.regs .rsp = place.top
  rdi : s.regs .rdi = place.pt
  rsi : s.regs .rsi = place.args

end Place

/-- The field of `struct pt_regs` for a general register, as the kernel lays it out. -/
def ptIndex : Gpr → Nat
  | .r15 => 0
  | .r14 => 1
  | .r13 => 2
  | .r12 => 3
  | .rbp => 4
  | .rbx => 5
  | .r11 => 6
  | .r10 => 7
  | .r9 => 8
  | .r8 => 9
  | .rax => 10
  | .rcx => 11
  | .rdx => 12
  | .rsi => 13
  | .rdi => 14
  | .rsp => 19

def gprs : List Gpr :=
  [.rax, .rcx, .rdx, .rbx, .rsp, .rbp, .rsi, .rdi, .r8, .r9, .r10, .r11, .r12, .r13, .r14, .r15]

/-- What a callee has to restore. -/
def calleeSaved : List Gpr := [.rbx, .rbp, .r12, .r13, .r14, .r15]

/-- The words that the body leaves alone: all but `Stack_RBP` to `Stack_INST_CNT`. -/
def Cell.Kept : Cell → Prop
  | .stack k => k ≤ 8
  | _ => True

/-- What the body may do: everything but to lose the frame. -/
structure BodyKeeps (place : Place) (s s' : Core) : Prop where
  rbp : s'.regs .rbp = s.regs .rbp
  rsp : s'.regs .rsp = s.regs .rsp
  word : ∀ c : Cell, c.Valid → c.Kept → place.word s' c = place.word s c

/-! The frame seen word by word. -/

/-- Registers and words, with the number of words on the stack. -/
structure Frame where
  regs : Gpr → BitVec 64
  cells : Cell → BitVec 64
  depth : Nat

def MemOp.cell : MemOp → Cell
  | .arg k => .arg k
  | .pt k => .pt k
  | .stack k => .stack (k + 1)

namespace Frame

def setReg (f : Frame) (g : Gpr) (value : BitVec 64) : Frame :=
  { f with regs := Function.update f.regs g value }

def setCell (f : Frame) (c : Cell) (value : BitVec 64) : Frame :=
  { f with cells := Function.update f.cells c value }

def grow (f : Frame) (n : Nat) : Frame :=
  { f.setReg .rsp (f.regs .rsp - BitVec.ofNat 64 (8 * n)) with depth := f.depth + n }

def shrink (f : Frame) (n : Nat) : Frame :=
  { f.setReg .rsp (f.regs .rsp + BitVec.ofNat 64 (8 * n)) with depth := f.depth - n }

def exec (f : Frame) : WrapInst → Frame
  | .push g => (f.grow 1).setCell (.stack (f.depth + 1)) (f.regs g)
  | .pushMem m => (f.grow 1).setCell (.stack (f.depth + 1)) (f.cells m.cell)
  | .pop g => (f.shrink 1).setReg g (f.cells (.stack f.depth))
  | .popMem m => (f.shrink 1).setCell m.cell (f.cells (.stack f.depth))
  | .mov dst src => f.setReg dst (f.regs src)
  | .load g m => f.setReg g (f.cells m.cell)
  | .store m g => f.setCell m.cell (f.regs g)
  | .sub n => f.grow n
  | .add n => f.shrink n

def run (text : List WrapInst) (f : Frame) : Frame := text.foldl exec f

end Frame

/-- An operand has its base register where it should be. -/
def MemOp.Based (place : Place) (f : Frame) (m : MemOp) : Prop :=
  m.cell.Valid ∧
    match m with
    | .arg _ => f.regs .r15 = place.args
    | .pt _ => f.regs .r14 = place.pt
    | .stack _ => f.regs .rbp = place.top - 8

/-- An instruction stays in the frame. -/
def WrapInst.Based (place : Place) (f : Frame) : WrapInst → Prop
  | .push _ => f.depth < 19
  | .pushMem m => f.depth < 19 ∧ m.Based place f
  | .pop g => 0 < f.depth ∧ g ≠ .rsp
  | .popMem m => 0 < f.depth ∧ m.Based place f
  | .mov dst _ => dst ≠ .rsp
  | .load g m => g ≠ .rsp ∧ m.Based place f
  | .store m _ => m.Based place f
  | .sub n => f.depth + n < 20
  | .add n => n ≤ f.depth

def AllBased (place : Place) : List WrapInst → Frame → Prop
  | [], _ => True
  | i :: text, f => i.Based place f ∧ AllBased place text (f.exec i)

/-- The machine is in the state that the frame shows. -/
structure Shows (place : Place) (s : Core) (f : Frame) : Prop where
  regs : s.regs = f.regs
  rsp : f.regs .rsp = place.top - BitVec.ofNat 64 (8 * f.depth)
  depth : f.depth < 20
  cells : ∀ c : Cell, c.Valid → place.word s c = f.cells c

section Apart

/-- Two words of one region. -/
theorem apart_of_index_ne (base : BitVec 64) {k j : Nat} (hk : k < 21) (hj : j < 21) (h : k ≠ j) :
    Apart (base + BitVec.ofNat 64 (8 * k)) (base + BitVec.ofNat 64 (8 * j)) := by
  refine apart_of_ne fun i hi t ht heq => ?_
  rw [add_assoc, add_assoc, ← BitVec.ofNat_add, ← BitVec.ofNat_add] at heq
  have hnat := congrArg BitVec.toNat (add_left_cancel heq)
  rw [BitVec.toNat_ofNat, BitVec.toNat_ofNat] at hnat
  omega

/-- Words of two regions. -/
theorem apart_of_regions {a b : BitVec 64} {n m k j : Nat}
    (h : ∀ i < 8 * n, ∀ t < 8 * m, a + BitVec.ofNat 64 i ≠ b + BitVec.ofNat 64 t) (hk : k < n)
    (hj : j < m) : Apart (a + BitVec.ofNat 64 (8 * k)) (b + BitVec.ofNat 64 (8 * j)) := by
  refine apart_of_ne fun i hi t ht heq => ?_
  rw [add_assoc, add_assoc, ← BitVec.ofNat_add, ← BitVec.ofNat_add] at heq
  exact h _ (by omega) _ (by omega) heq

theorem stack_addr (place : Place) {k : Nat} (hk : k < 20) :
    place.addr (.stack k) = place.top - 152 + BitVec.ofNat 64 (8 * (19 - k)) := by
  have hsum : (152 : BitVec 64) = BitVec.ofNat 64 (8 * k) + BitVec.ofNat 64 (8 * (19 - k)) := by
    rw [← BitVec.ofNat_add, show 8 * k + 8 * (19 - k) = 152 by omega]
    rfl
  rw [Place.addr, hsum, ← sub_sub, sub_add_cancel]

theorem Place.apart (place : Place) {c d : Cell} (hc : c.Valid) (hd : d.Valid) (hne : c ≠ d) :
    Apart (place.addr c) (place.addr d) := by
  have hpt_args : ∀ {k j}, k < 21 → j < 2 → Apart (place.addr (.pt k)) (place.addr (.arg j)) :=
    fun hk hj => apart_of_regions (n := 21) (m := 2) place.pt_args hk hj
  have hpt_stack : ∀ {k j}, k < 21 → j < 20 → Apart (place.addr (.pt k)) (place.addr (.stack j)) := by
    intro k j hk hj
    rw [stack_addr place hj]
    exact apart_of_regions (n := 21) (m := 20) place.pt_stack hk (by omega)
  have hargs_stack : ∀ {k j}, k < 2 → j < 20 →
      Apart (place.addr (.arg k)) (place.addr (.stack j)) := by
    intro k j hk hj
    rw [stack_addr place hj]
    exact apart_of_regions (n := 2) (m := 20) place.args_stack hk (by omega)
  cases c with
  | pt k =>
      cases d with
      | pt j => exact apart_of_index_ne _ hc hd fun h => hne (congrArg Cell.pt h)
      | arg j => exact hpt_args hc hd
      | stack j => exact hpt_stack hc hd
  | arg k =>
      cases d with
      | pt j => exact Apart.symm (by decide) (hpt_args hd hc)
      | arg j =>
          have hk : k < 2 := hc
          have hj : j < 2 := hd
          exact apart_of_index_ne _ (by omega) (by omega) fun h => hne (congrArg Cell.arg h)
      | stack j => exact hargs_stack hc hd
  | stack k =>
      cases d with
      | pt j => exact Apart.symm (by decide) (hpt_stack hd hc)
      | arg j => exact Apart.symm (by decide) (hargs_stack hd hc)
      | stack j =>
          have hk : k < 20 := hc
          have hj : j < 20 := hd
          rw [stack_addr place hk, stack_addr place hj]
          refine apart_of_index_ne _ (by omega) (by omega) fun h => hne (congrArg Cell.stack ?_)
          omega

end Apart

section Shows

variable {place : Place} {s : Core} {f : Frame} {text : List WrapInst}

/-- A store to a word is a store to that word alone. -/
theorem word_setMem {c d : Cell} (hc : c.Valid) (hd : d.Valid) (s : Core) (value : BitVec 64) :
    place.word (s.setMem (place.addr c) value) d = if d = c then value else place.word s d := by
  unfold Place.word Core.setMem
  split_ifs with h
  · rw [h]
    exact load64_store_self (by decide) _ _ _
  · exact load64_store (place.apart hd hc h) value

theorem Shows.setReg (h : Shows place s f) {g : Gpr} (hg : g ≠ .rsp) (value : BitVec 64) :
    Shows place (s.setReg g value) (f.setReg g value) where
  regs := by
    unfold Core.setReg Frame.setReg
    rw [h.regs]
  rsp := by
    change Function.update f.regs g value .rsp = _
    rw [Function.update_of_ne hg.symm]
    exact h.rsp
  depth := h.depth
  cells := h.cells

theorem Shows.setMem (h : Shows place s f) {c : Cell} (hc : c.Valid) {a : BitVec 64}
    (ha : a = place.addr c) (value : BitVec 64) :
    Shows place (s.setMem a value) (f.setCell c value) where
  regs := h.regs
  rsp := h.rsp
  depth := h.depth
  cells d hd := by
    change _ = Function.update f.cells c value d
    rw [ha, word_setMem hc hd, Function.update_apply, h.cells d hd]

theorem Shows.grow (h : Shows place s f) {n : Nat} (hn : f.depth + n < 20) :
    Shows place (s.setReg .rsp (s.regs .rsp - BitVec.ofNat 64 (8 * n))) (f.grow n) where
  regs := by
    unfold Core.setReg Frame.grow Frame.setReg
    rw [h.regs]
  rsp := by
    change Function.update f.regs .rsp (f.regs .rsp - BitVec.ofNat 64 (8 * n)) .rsp =
      place.top - BitVec.ofNat 64 (8 * (f.depth + n))
    rw [Function.update_self, h.rsp, sub_sub, ← BitVec.ofNat_add, ← Nat.mul_add]
  depth := hn
  cells := h.cells

theorem Shows.shrink (h : Shows place s f) {n : Nat} (hn : n ≤ f.depth) :
    Shows place (s.setReg .rsp (s.regs .rsp + BitVec.ofNat 64 (8 * n))) (f.shrink n) where
  regs := by
    unfold Core.setReg Frame.shrink Frame.setReg
    rw [h.regs]
  rsp := by
    change Function.update f.regs .rsp (f.regs .rsp + BitVec.ofNat 64 (8 * n)) .rsp =
      place.top - BitVec.ofNat 64 (8 * (f.depth - n))
    have hdepth : 8 * f.depth = 8 * (f.depth - n) + 8 * n := by omega
    rw [Function.update_self, h.rsp, hdepth, BitVec.ofNat_add, ← sub_sub, sub_add_cancel]
  depth := lt_of_le_of_lt (Nat.sub_le _ _) h.depth
  cells := h.cells

theorem Shows.addr (h : Shows place s f) {m : MemOp} (hm : m.Based place f) :
    m.addr s.regs = place.addr m.cell := by
  obtain ⟨-, hbase⟩ := hm
  rw [h.regs]
  cases m with
  | arg k => exact congrArg (· + BitVec.ofNat 64 (8 * k)) hbase
  | pt k => exact congrArg (· + BitVec.ofNat 64 (8 * k)) hbase
  | stack k =>
      change f.regs .rbp - _ = place.top - _
      rw [hbase, sub_sub, Nat.mul_add, Nat.add_comm, BitVec.ofNat_add]
      rfl

theorem Shows.load (h : Shows place s f) {m : MemOp} (hm : m.Based place f) :
    load64 s.mem (m.addr s.regs) = f.cells m.cell := by
  rw [h.addr hm]
  exact h.cells m.cell hm.1

/-- The word on top of the stack. -/
theorem Shows.loadTop (h : Shows place s f) :
    load64 s.mem (s.regs .rsp) = f.cells (.stack f.depth) := by
  rw [h.regs, h.rsp]
  exact h.cells (.stack f.depth) h.depth

theorem Shows.pushed (h : Shows place s f) (hdepth : f.depth < 19) (value : BitVec 64) :
    Shows place (s.pushed value) ((f.grow 1).setCell (.stack (f.depth + 1)) value) := by
  have hgrow := h.grow (show f.depth + 1 < 20 by omega)
  rw [show BitVec.ofNat 64 (8 * 1) = 8 from rfl] at hgrow
  have hvalid : (Cell.stack (f.depth + 1)).Valid := by
    change f.depth + 1 < 20
    omega
  have hrsp : s.regs .rsp - 8 = (f.grow 1).regs .rsp := by
    rw [← hgrow.regs]
    exact (Function.update_self Gpr.rsp _ s.regs).symm
  exact hgrow.setMem hvalid (hrsp.trans hgrow.rsp) value

theorem Shows.popped (h : Shows place s f) (hdepth : 0 < f.depth) :
    Shows place (s.setReg .rsp (s.regs .rsp + 8)) (f.shrink 1) := by
  have hshrink := h.shrink hdepth
  rw [show BitVec.ofNat 64 (8 * 1) = 8 from rfl] at hshrink
  exact hshrink

theorem Shows.exec (h : Shows place s f) {i : WrapInst} (hi : i.Based place f) :
    Shows place (s.exec i) (f.exec i) := by
  have hreg : ∀ g, s.regs g = f.regs g := fun g => by rw [h.regs]
  cases i with
  | push g =>
      rw [Core.exec, Frame.exec, hreg]
      exact h.pushed hi _
  | pushMem m =>
      rw [Core.exec, Frame.exec, h.load hi.2]
      exact h.pushed hi.1 _
  | pop g =>
      rw [Core.exec, Frame.exec, h.loadTop]
      exact (h.popped hi.1).setReg hi.2 _
  | popMem m =>
      rw [Core.exec, Frame.exec, h.loadTop]
      exact (h.popped hi.1).setMem hi.2.1 (h.addr hi.2) _
  | mov dst src =>
      rw [Core.exec, Frame.exec, hreg]
      exact h.setReg hi _
  | load g m =>
      rw [Core.exec, Frame.exec, h.load hi.2]
      exact h.setReg hi.1 _
  | store m g =>
      rw [Core.exec, Frame.exec, hreg]
      exact h.setMem hi.1 (h.addr hi) _
  | sub n => exact h.grow hi
  | add n => exact h.shrink hi

theorem Shows.run (h : Shows place s f) (htext : AllBased place text f) :
    Shows place (s.run text) (f.run text) := by
  induction text generalizing s f with
  | nil => exact h
  | cons i text ih => exact ih (h.exec htext.1) htext.2

end Shows

/-- The convention, on the frame. -/
def Frame.user (f : Frame) : Gpr → BitVec 64
  | .rsp => f.regs .r13
  | .rbp => f.regs .r12
  | .r12 => f.cells (.stack 14)
  | .r13 => f.cells (.stack 13)
  | .r14 => f.cells (.stack 12)
  | .r15 => f.cells (.stack 11)
  | g => f.regs g

/-- The frame that is there. -/
def Place.frame (place : Place) (s : Core) (depth : Nat) : Frame := ⟨s.regs, place.word s, depth⟩

/-- Between entry and exit: RBP and RSP stand where they should, and the two arguments are saved. -/
structure Framed (place : Place) (s : Core) : Prop where
  rbp : s.regs .rbp = place.top - 8
  rsp : s.regs .rsp = place.top - 152
  ptReg : place.slot s 6 = place.pt
  argReg : place.slot s 7 = place.args

section Main

variable {place : Place} {s : Core}

theorem Shows.user {f : Frame} (h : Shows place s f) (g : Gpr) : place.user s g = f.user g := by
  have hslot : ∀ k < 19, place.slot s k = f.cells (.stack (k + 1)) :=
    fun k hk => h.cells (.stack (k + 1)) (Nat.succ_lt_succ hk)
  have hreg : ∀ g, s.regs g = f.regs g := fun g => by rw [h.regs]
  cases g with
  | rsp => exact hreg .r13
  | rbp => exact hreg .r12
  | r12 => exact hslot 13 (by decide)
  | r13 => exact hslot 12 (by decide)
  | r14 => exact hslot 11 (by decide)
  | r15 => exact hslot 10 (by decide)
  | rax | rcx | rdx | rbx | rsi | rdi | r8 | r9 | r10 | r11 => exact hreg _

theorem shows_called (hcall : place.Called s) : Shows place s (place.frame s 0) :=
  ⟨rfl, hcall.rsp.trans (sub_zero _).symm, Nat.zero_lt_succ _, fun _ _ => rfl⟩

theorem based_main (hcall : place.Called s) : AllBased place mainText (place.frame s 0) := by
  simp [mainText, AllBased, WrapInst.Based, MemOp.Based, MemOp.cell, Cell.Valid, Place.frame,
    Frame.exec, Frame.grow, Frame.setReg, Frame.setCell, hcall.rsp, hcall.rdi, hcall.rsi]

theorem shows_main (hcall : place.Called s) :
    Shows place (s.run mainText) ((place.frame s 0).run mainText) :=
  (shows_called hcall).run (based_main hcall)

theorem shows_framed (h : Framed place s) : Shows place s (place.frame s 19) :=
  ⟨rfl, h.rsp, Nat.lt_succ_self 19, fun _ _ => rfl⟩

theorem based_leave (h : Framed place s) : AllBased place leaveText (place.frame s 19) := by
  simp [leaveText, AllBased, WrapInst.Based, MemOp.Based, MemOp.cell, Cell.Valid, Place.frame,
    Frame.exec, Frame.shrink, Frame.setReg, Frame.setCell, h.rbp, ← h.ptReg, ← h.argReg, Place.slot]

theorem shows_leave (h : Framed place s) :
    Shows place (s.run leaveText) ((place.frame s 19).run leaveText) :=
  (shows_framed h).run (based_leave h)

theorem framed_main (hcall : place.Called s) : Framed place (s.run mainText) := by
  have h := shows_main hcall
  have hword : ∀ k < 20, place.word (s.run mainText) (.stack k) =
      ((place.frame s 0).run mainText).cells (.stack k) := fun k hk => h.cells (.stack k) hk
  refine ⟨?_, ?_, ?_, ?_⟩
  · rw [h.regs, ← hcall.rsp]
    rfl
  · rw [h.regs]
    exact h.rsp
  · exact (hword 7 (by decide)).trans hcall.rdi
  · exact (hword 8 (by decide)).trans hcall.rsi

theorem Framed.body {body : Core} (h : Framed place s) (hbody : BodyKeeps place s body) :
    Framed place body := by
  have hslot : ∀ k < 8, place.slot body k = place.slot s k := by
    intro k hk
    refine hbody.word (.stack (k + 1)) ?_ ?_
    · change k + 1 < 20
      omega
    · change k + 1 ≤ 8
      omega
  exact ⟨hbody.rbp.trans h.rbp, hbody.rsp.trans h.rsp, (hslot 6 (by decide)).trans h.ptReg,
    (hslot 7 (by decide)).trans h.argReg⟩

/-- What the body finds. -/
theorem main_user (hcall : place.Called s) (g : Gpr) :
    place.user (s.run mainText) g = place.word s (.pt (ptIndex g)) := by
  rw [(shows_main hcall).user]
  cases g <;> rfl

/-- What the pops and moves of the exit code bring where. -/
theorem leave_user (h : Framed place s) (g : Gpr) :
    place.word (s.run leaveText) (.pt (ptIndex g)) = place.user s g := by
  have hvalid : (Cell.pt (ptIndex g)).Valid := by
    cases g <;> decide
  rw [(shows_leave h).cells _ hvalid]
  cases g <;> rfl

/-- The other words of `pt_regs`. -/
theorem leave_other (h : Framed place s) {k : Nat} (hk : k < 21) (hip : k ≠ 16)
    (hother : ∀ g, k ≠ ptIndex g) :
    place.word (s.run leaveText) (.pt k) = place.word s (.pt k) := by
  rw [(shows_leave h).cells (.pt k) hk]
  have hfields : ∀ j < 21, j = 15 ∨ j = 16 ∨ j = 17 ∨ j = 18 ∨ j = 20 ∨ ∃ g ∈ gprs, j = ptIndex g := by
    decide
  rcases hfields k hk with rfl | rfl | rfl | rfl | rfl | ⟨g, -, hg⟩
  · rfl
  · exact absurd rfl hip
  · rfl
  · rfl
  · rfl
  · exact absurd hg (hother g)

/-- The exit code that the rest of the development runs on its machine is this one. -/
theorem leave_runExit (h : Framed place s) {c : Machine} (hregs : ∀ g, c.regs (.gpr g) = s.regs g)
    (hframe : ∀ k < 19, c.frame k = place.slot s k) (fs gs : BitVec 64) :
    place.ptRegs (s.run leaveText) = (runExit c (place.ptRegs s) fs gs).regs ∧
      place.word (s.run leaveText) (.arg 0) = (runExit c (place.ptRegs s) fs gs).arg := by
  obtain ⟨harg, hspec⟩ := runExit_spec c (place.ptRegs s) fs gs
  have hleave := shows_leave h
  have hslot : ∀ g k, k < 19 → place.user s g = place.slot s k →
      place.word (s.run leaveText) (.pt (ptIndex g)) = c.frame k :=
    fun g k hk hg => (leave_user h g).trans (hg.trans (hframe k hk).symm)
  have hreg : ∀ g g', place.user s g = s.regs g' →
      place.word (s.run leaveText) (.pt (ptIndex g)) = c.regs (.gpr g') :=
    fun g g' hg => (leave_user h g).trans (hg.trans (hregs g').symm)
  rw [hspec, harg]
  refine ⟨?_, (hleave.cells (.arg 0) (by decide)).trans (hframe 17 (by decide)).symm⟩
  simp only [Place.ptRegs, PtRegs.mk.injEq]
  exact ⟨hslot .r15 10 (by decide) rfl, hslot .r14 11 (by decide) rfl, hslot .r13 12 (by decide) rfl,
    hslot .r12 13 (by decide) rfl, hreg .rbp .r12 rfl, hreg .rbx .rbx rfl, hreg .r11 .r11 rfl,
    hreg .r10 .r10 rfl, hreg .r9 .r9 rfl, hreg .r8 .r8 rfl, hreg .rax .rax rfl, hreg .rcx .rcx rfl,
    hreg .rdx .rdx rfl, hreg .rsi .rsi rfl, hreg .rdi .rdi rfl, hleave.cells (.pt 15) (by decide),
    (hleave.cells (.pt 16) (by decide)).trans (hregs .r14).symm, hleave.cells (.pt 18) (by decide),
    hreg .rsp .r13 rfl⟩

theorem main_saved (hcall : place.Called s) {body : Core}
    (hbody : BodyKeeps place (s.run mainText) body) {g : Gpr} (hg : g ∈ calleeSaved) :
    (body.run leaveText).regs g = s.regs g := by
  have hmain := shows_main hcall
  have hleave := shows_leave ((framed_main hcall).body hbody)
  have hword : ∀ k ≤ 8, place.word body (.stack k) =
      ((place.frame s 0).run mainText).cells (.stack k) := by
    intro k hk
    have hvalid : (Cell.stack k).Valid := Nat.lt_of_le_of_lt hk (by decide)
    rw [hbody.word (.stack k) hvalid hk]
    exact hmain.cells (.stack k) hvalid
  rw [hleave.regs]
  simp only [calleeSaved, List.mem_cons, List.not_mem_nil, or_false] at hg
  rcases hg with rfl | rfl | rfl | rfl | rfl | rfl
  · exact hword 2 (by decide)
  · exact hword 1 (by decide)
  · exact hword 3 (by decide)
  · exact hword 4 (by decide)
  · exact hword 5 (by decide)
  · exact hword 6 (by decide)

/-- After the last pop RSP points to the return address again, and that is still there. -/
theorem leave_rsp (hcall : place.Called s) {body : Core}
    (hbody : BodyKeeps place (s.run mainText) body) :
    (body.run leaveText).regs .rsp = s.regs .rsp ∧
      (body.run leaveText).returnAddr = s.returnAddr := by
  have hmain := shows_main hcall
  have hleave := shows_leave ((framed_main hcall).body hbody)
  have hrsp : (body.run leaveText).regs .rsp = place.top := by
    rw [hleave.regs, hleave.rsp]
    exact sub_zero _
  have htop : place.addr (.stack 0) = place.top := sub_zero _
  have hword : ∀ t : Core, t.regs .rsp = place.top → t.returnAddr = place.word t (.stack 0) := by
    intro t ht
    rw [Core.returnAddr, ht, Place.word, htop]
  refine ⟨hrsp.trans hcall.rsp.symm, ?_⟩
  rw [hword _ hrsp, hword s hcall.rsp, hleave.cells (.stack 0) (by decide)]
  refine (hbody.word (.stack 0) (by decide) (Nat.zero_le _)).trans ?_
  exact hmain.cells (.stack 0) (by decide)

end Main

/-- **Context switch.** For every content of `pt_regs` and `args`, the body starts with every general
register as in `pt_regs` and with the segment bases in their slots. Whatever it leaves there is in
`pt_regs` when the caller goes on, with R14 in `ip` and `Stack_IJ` in `args[0]`; the registers a
callee saves and RSP are those of the call, and no other field of `pt_regs` has changed. -/
theorem context_switch (place : Place) {s : Core} (hcall : place.Called s) :
    (∀ g, place.user (s.run mainText) g = place.word s (.pt (ptIndex g))) ∧
    place.slot (s.run mainText) 15 = place.word s (.arg 0) ∧
    place.slot (s.run mainText) 14 = place.word s (.arg 1) ∧
    (∀ k, (MemOp.stack k).addr (s.run mainText).regs = place.addr (.stack (k + 1))) ∧
    ∀ body, BodyKeeps place (s.run mainText) body →
      (∀ g, place.word (body.run leaveText) (.pt (ptIndex g)) = place.user body g) ∧
      place.word (body.run leaveText) (.pt 16) = body.regs .r14 ∧
      place.word (body.run leaveText) (.arg 0) = place.slot body 17 ∧
      (∀ g ∈ calleeSaved, (body.run leaveText).ret.regs g = s.regs g) ∧
      (body.run leaveText).ret.regs .rsp = s.regs .rsp + 8 ∧
      (body.run leaveText).returnAddr = s.returnAddr ∧
      ∀ k < 21, k ≠ 16 → (∀ g, k ≠ ptIndex g) →
        place.word (body.run leaveText) (.pt k) = place.word s (.pt k) := by
  have hmain := shows_main hcall
  have hframed := framed_main hcall
  refine ⟨main_user hcall, hmain.cells (.stack 16) (by decide), hmain.cells (.stack 15) (by decide),
    fun k => ?_, fun body hbody => ?_⟩
  · rw [MemOp.addr, hframed.rbp, Place.addr, sub_sub, Nat.mul_add, Nat.add_comm, BitVec.ofNat_add]
    rfl
  · have hframed' := hframed.body hbody
    have hleave := shows_leave hframed'
    obtain ⟨hrsp, hreturn⟩ := leave_rsp hcall hbody
    refine ⟨leave_user hframed', hleave.cells (.pt 16) (by decide), hleave.cells (.arg 0) (by decide),
      fun g hg => ?_, ?_, hreturn, fun k hk hip hother => ?_⟩
    · have hne : g ≠ .rsp := by
        rintro rfl
        exact absurd hg (by decide)
      rw [Core.ret_regs _ hne]
      exact main_saved hcall hbody hg
    · rw [Core.ret_rsp, hrsp]
    · rw [leave_other hframed' hk hip hother, hbody.word (.pt k) hk trivial]
      exact hmain.cells (.pt k) hk

/-- Addresses of two regions, the first of which ends before the second begins. -/
theorem region_ne {a b n m : Nat} (hab : a + n ≤ b) (hb : b + m ≤ 2 ^ 64) :
    ∀ i < n, ∀ j < m, BitVec.ofNat 64 a + BitVec.ofNat 64 i ≠ BitVec.ofNat 64 b + BitVec.ofNat 64 j := by
  intro i hi j hj h
  rw [← BitVec.ofNat_add, ← BitVec.ofNat_add] at h
  have hnat := congrArg BitVec.toNat h
  rw [BitVec.toNat_ofNat, BitVec.toNat_ofNat] at hnat
  omega

/-- Three regions that lie apart. -/
def somewhere : Place where
  pt := 0x1000
  args := 0x2100
  top := 0x2F00
  pt_args := region_ne (by decide) (by decide)
  pt_stack := by
    rw [show (0x2F00 : BitVec 64) - 152 = BitVec.ofNat 64 0x2E68 by decide]
    exact region_ne (by decide) (by decide)
  args_stack := by
    rw [show (0x2F00 : BitVec 64) - 152 = BitVec.ofNat 64 0x2E68 by decide]
    exact region_ne (by decide) (by decide)

/-- A call with another value in each register, and another one in each word of the three regions. -/
def someCall : Core where
  regs g :=
    match g with
    | .rsp => 0x2F00
    | .rdi => 0x1000
    | .rsi => 0x2100
    | g => 0x5000 + BitVec.ofNat 64 (ptIndex g)
  mem a := BitVec.ofNat 8 (a.toNat / 8)

/-- A body that changes RAX and R12 of the program, and leaves through a ladder. -/
def someBody (s : Core) : Core :=
  (((s.setReg .rax 0xAA).setReg .r14 0x401234).setMem
    (somewhere.addr (.stack 14)) 0xBEEF).setMem (somewhere.addr (.stack 18)) 0x401020

theorem someBody_word (s : Core) {c : Cell} (hc : c.Valid) : somewhere.word (someBody s) c =
    if c = .stack 18 then 0x401020 else if c = .stack 14 then 0xBEEF else somewhere.word s c := by
  rw [someBody, word_setMem (by decide) hc, word_setMem (by decide) hc]
  rfl

theorem someBody_keeps (s : Core) : BodyKeeps somewhere s (someBody s) := by
  refine ⟨rfl, rfl, fun c hvalid hkept => ?_⟩
  have hne : ∀ k, 8 < k → c ≠ .stack k := by
    rintro k hk rfl
    exact Nat.not_le.mpr hk hkept
  rw [someBody_word s hvalid, if_neg (hne 18 (by decide)), if_neg (hne 14 (by decide))]

theorem someBody_regs (s : Core) :
    somewhere.user (someBody s) .rax = 0xAA ∧ (someBody s).regs .r14 = 0x401234 := ⟨rfl, rfl⟩

theorem context_switch_someCall :
    somewhere.user (someCall.run mainText) .rax = 0x0a0a0a0a0a0a0a0a ∧
      somewhere.user (someCall.run mainText) .r12 = 0x0303030303030303 ∧
      ∃ left, left = (someBody (someCall.run mainText)).run leaveText ∧
        somewhere.word left (.pt 10) = 0xAA ∧ somewhere.word left (.pt 3) = 0xBEEF ∧
        somewhere.word left (.pt 16) = 0x401234 ∧ somewhere.word left (.arg 0) = 0x401020 ∧
        somewhere.word left (.pt 18) = 0x1212121212121212 ∧ left.ret.regs .r14 = 0x5001 := by
  have hcall : somewhere.Called someCall := ⟨rfl, rfl, rfl⟩
  obtain ⟨huser, -, -, -, hbody⟩ := context_switch somewhere hcall
  obtain ⟨hleft, hip, harg, hsaved, -, -, hother⟩ := hbody _ (someBody_keeps _)
  obtain ⟨hrax, hr14⟩ := someBody_regs (someCall.run mainText)
  have hflags : ∀ g, 18 ≠ ptIndex g := by
    intro g
    cases g <;> decide
  refine ⟨(huser .rax).trans (by decide), (huser .r12).trans (by decide), _, rfl,
    (hleft .rax).trans hrax, (hleft .r12).trans ?_, hip.trans hr14, harg.trans ?_, ?_,
    (hsaved .r14 (by decide)).trans rfl⟩
  · exact someBody_word _ (by decide)
  · exact someBody_word _ (by decide)
  · exact (hother 18 (by decide) (by decide) hflags).trans (by decide)

end UserspaceBypass
