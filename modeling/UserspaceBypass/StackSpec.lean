import UserspaceBypass.LibMemory
import UserspaceBypass.OperandHistory
import UserspaceBypass.SimulateSteps

/-! What the stack instructions do to the state of the original program. PUSH stores its operand
below RSP, POP loads from RSP and evaluates its destination with RSP incremented. The instruction set
is known as far as 64-bit moves go. Operands are those x86-64 can encode: RSP is no index, and RIP
comes with no other register. -/

namespace UserspaceBypass

open StraightLine Memory

/-- MOV, LEA and MOVABS of 64 bits, and the MOV of a 32-bit constant. -/
structure Isa.Moves (isa : Isa) : Prop where
  move : ∀ x y hidden env, isa.exec "MOV" [.reg 64 x, .reg 64 y] hidden env =
    some ⟨[some y, none], fun _ => none, env⟩
  load : ∀ x a hidden env, isa.exec "MOV" [.reg 64 x, .mem 64 a] hidden env =
    some ⟨[some (load64 env.mem a), none], fun _ => none, env⟩
  store : ∀ a x hidden env, isa.exec "MOV" [.mem 64 a, .reg 64 x] hidden env =
    some ⟨[none, none], fun _ => none, { env with mem := Memory.store 8 env.mem a x }⟩
  storeInt : ∀ a n hidden env, isa.exec "MOV" [.mem 32 a, .int ⟨n, 32⟩] hidden env =
    some ⟨[none, none], fun _ => none,
      { env with mem := Memory.store 4 env.mem a (BitVec.ofNat 64 n) }⟩
  lea : ∀ x a hidden env, isa.exec "LEA" [.reg 64 x, .mem 64 a] hidden env =
    some ⟨[some a, none], fun _ => none, env⟩
  movabs : ∀ x n hidden env, isa.exec "MOVABS" [.reg 64 x, .int ⟨n, 64⟩] hidden env =
    some ⟨[some (BitVec.ofNat 64 n), none], fun _ => none, env⟩

/-- An instruction set with nothing else. -/
def moveIsa : Isa where
  exec name operands _ env :=
    match name, operands with
    | "MOV", [.reg 64 _, .reg 64 y] => some ⟨[some y, none], fun _ => none, env⟩
    | "MOV", [.reg 64 _, .mem 64 a] => some ⟨[some (load64 env.mem a), none], fun _ => none, env⟩
    | "MOV", [.mem 64 a, .reg 64 x] =>
        some ⟨[none, none], fun _ => none, { env with mem := Memory.store 8 env.mem a x }⟩
    | "MOV", [.mem 32 a, .int ⟨n, 32⟩] =>
        some ⟨[none, none], fun _ => none,
          { env with mem := Memory.store 4 env.mem a (BitVec.ofNat 64 n) }⟩
    | "LEA", [.reg 64 _, .mem 64 a] => some ⟨[some a, none], fun _ => none, env⟩
    | "MOVABS", [.reg 64 _, .int ⟨n, 64⟩] =>
        some ⟨[some (BitVec.ofNat 64 n), none], fun _ => none, env⟩
    | _, _ => none
  shiftFlags _ _ flags := flags

theorem moveIsa_moves : moveIsa.Moves where
  move _ _ _ _ := rfl
  load _ _ _ _ := rfl
  store _ _ _ _ := rfl
  storeInt _ _ _ _ := rfl
  lea _ _ _ _ := rfl
  movabs _ _ _ _ := rfl

namespace State

def set (s : State) (f : Family) (value : BitVec 64) : State :=
  { s with regs := Function.update s.regs f value }

def setMem (s : State) (mem : BitVec 64 → BitVec 8) : State :=
  { s with env := { s.env with mem := mem } }

def sp (s : State) : BitVec 64 := s.regs (.gpr .rsp)

/-- The same for the program, which has no temporaries. -/
structure Same (s s' : State) : Prop where
  env : s'.env = s.env
  regs : ∀ f, (∀ t, f ≠ .tmp t) → s'.regs f = s.regs f

theorem Same.refl (s : State) : s.Same s := ⟨rfl, fun _ _ => rfl⟩

theorem Same.symm {s s' : State} (h : s.Same s') : s'.Same s :=
  ⟨h.env.symm, fun f hf => (h.regs f hf).symm⟩

theorem Same.trans {s s' s'' : State} (h : s.Same s') (h' : s'.Same s'') : s.Same s'' :=
  ⟨h'.env.trans h.env, fun f hf => (h'.regs f hf).trans (h.regs f hf)⟩

theorem Same.gpr {s s' : State} (h : s.Same s') (g : Gpr) : s'.regs (.gpr g) = s.regs (.gpr g) :=
  h.regs _ nofun

/-- RSP and memory are the same. -/
structure SameStack (s s' : State) : Prop where
  sp : s'.sp = s.sp
  mem : s'.env.mem = s.env.mem

theorem Same.sameStack {s s' : State} (h : s.Same s') : s.SameStack s' :=
  ⟨h.gpr .rsp, congrArg Env.mem h.env⟩

theorem SameStack.trans {s s' s'' : State} (h : s.SameStack s') (h' : s'.SameStack s'') :
    s.SameStack s'' :=
  ⟨h'.sp.trans h.sp, h'.mem.trans h.mem⟩

theorem Same.set {s s' : State} (h : s.Same s') (f : Family) (value : BitVec 64) :
    (s.set f value).Same (s'.set f value) := by
  refine ⟨h.env, fun g hg => ?_⟩
  by_cases hgf : g = f
  · subst hgf
    simp [State.set]
  · simp [State.set, hgf, h.regs g hg]

theorem Same.setMem {s s' : State} (h : s.Same s') (mem : BitVec 64 → BitVec 8) :
    (s.setMem mem).Same (s'.setMem mem) :=
  ⟨by simp only [State.setMem, h.env], h.regs⟩

/-- A temporary is nothing to the program. -/
theorem same_setTmp (s : State) (t : Tmp) (value : BitVec 64) : s.Same (s.set (.tmp t) value) :=
  ⟨rfl, fun _ hf => Function.update_of_ne (hf t) _ _⟩

end State

/-- The 64-bit registers, with the storage behind them. -/
def ExprId.full : ExprId → Option Family
  | .gpr g .q => some (.gpr g)
  | .tmp t => some (.tmp t)
  | _ => none

section Exec

variable {isa : Isa} {ip : BitVec 64} {s : State} {r r' : ExprId} {f f' : Family} {d : MemDict}

theorem ExprId.full_read (h : r.full = some f) (regs : Regs) : readReg ip regs r = regs f := by
  unfold ExprId.full at h
  split at h <;> cases h
  · exact Width.get_q _
  · rfl

theorem ExprId.full_eval (h : r.full = some f) (regs : Regs) :
    (Arg.reg r).eval (readReg ip regs) = .reg 64 (regs f) := by
  have hsize : (Arg.reg r).eval (readReg ip regs) = .reg 64 (readReg ip regs r) := by
    unfold ExprId.full at h
    split at h <;> cases h <;> rfl
  rw [hsize, ExprId.full_read h]

theorem ExprId.full_write (h : r.full = some f) (regs : Regs) (value : BitVec 64) :
    writeReg regs r value = Function.update regs f value := by
  unfold ExprId.full at h
  split at h <;> cases h <;> rfl

/-- An instruction that only writes its first operand. -/
theorem exec_written {name : String} {arg : Arg} {operand : Operand} {value : BitVec 64}
    (hr : r.full = some f) (harg : arg.eval (readReg ip s.regs) = operand)
    (h : isa.exec name [.reg 64 (s.regs f), operand] (hiddenRegs s.regs) s.env =
      some ⟨[some value, none], fun _ => none, s.env⟩) :
    execInst isa ip name [.reg r, arg] s = some (s.set f value) := by
  have hwrite : writeArgs [.reg r, arg] [some value, none] s.regs =
      Function.update s.regs f value := by
    rw [writeArgs, ExprId.full_write hr]
    cases arg <;> rfl
  simp only [execInst, List.map_cons, List.map_nil, ExprId.full_eval hr, harg, h, Option.map_some,
    hwrite, writeHidden_none fun _ => rfl, State.set]

/-- An instruction that only writes memory. -/
theorem exec_stored {name : String} {arg arg' : Arg} {operand operand' : Operand}
    {mem : BitVec 64 → BitVec 8} (harg : arg.eval (readReg ip s.regs) = operand)
    (harg' : arg'.eval (readReg ip s.regs) = operand')
    (h : isa.exec name [operand, operand'] (hiddenRegs s.regs) s.env =
      some ⟨[none, none], fun _ => none, { s.env with mem := mem }⟩) :
    execInst isa ip name [arg, arg'] s = some (s.setMem mem) := by
  have hwrite : writeArgs [arg, arg'] [none, none] s.regs = s.regs := writeArgs_none (by simp) _
  simp only [execInst, List.map_cons, List.map_nil, harg, harg', h, Option.map_some, hwrite,
    writeHidden_none fun _ => rfl, State.setMem]

theorem MemDict.eval {size : Nat} (hd : d.sz = size) (read : ExprId → BitVec 64) :
    (Arg.mem d).eval read = .mem size (d.address read) := by
  rw [Arg.eval, hd]

theorem exec_move (hisa : isa.Moves) (hr : r.full = some f) (hr' : r'.full = some f') :
    execInst isa ip "MOV" [.reg r, .reg r'] s = some (s.set f (s.regs f')) :=
  exec_written hr (ExprId.full_eval hr' _) (hisa.move ..)

theorem exec_load (hisa : isa.Moves) (hr : r.full = some f) (hd : d.sz = 64) :
    execInst isa ip "MOV" [.reg r, .mem d] s =
      some (s.set f (load64 s.env.mem (d.address (readReg ip s.regs)))) :=
  exec_written hr (MemDict.eval hd _) (hisa.load ..)

theorem exec_lea (hisa : isa.Moves) (hr : r.full = some f) (hd : d.sz = 64) :
    execInst isa ip "LEA" [.reg r, .mem d] s = some (s.set f (d.address (readReg ip s.regs))) :=
  exec_written hr (MemDict.eval hd _) (hisa.lea ..)

theorem exec_movabs (hisa : isa.Moves) (hr : r.full = some f) (n : Nat) :
    execInst isa ip "MOVABS" [.reg r, .int ⟨n, 64⟩] s = some (s.set f (BitVec.ofNat 64 n)) :=
  exec_written hr rfl (hisa.movabs ..)

theorem exec_store (hisa : isa.Moves) (hd : d.sz = 64) (hr : r.full = some f) :
    execInst isa ip "MOV" [.mem d, .reg r] s =
      some (s.setMem (Memory.store 8 s.env.mem (d.address (readReg ip s.regs)) (s.regs f))) :=
  exec_stored (MemDict.eval hd _) (ExprId.full_eval hr _) (hisa.store ..)

theorem exec_storeInt (hisa : isa.Moves) (hd : d.sz = 32) (n : Nat) :
    execInst isa ip "MOV" [.mem d, .int ⟨n, 32⟩] s =
      some (s.setMem (Memory.store 4 s.env.mem (d.address (readReg ip s.regs))
        (BitVec.ofNat 64 n))) :=
  exec_stored (MemDict.eval hd _) rfl (hisa.storeInt ..)

end Exec

/-- The registers an address is made of: 64-bit and 32-bit registers, RIP and EIP. -/
def ExprId.IsAddr : ExprId → Prop
  | .gpr _ .q | .gpr _ .d | .rip | .eip => True
  | _ => False

instance : DecidablePred ExprId.IsAddr
  | .gpr _ .q | .gpr _ .d | .rip | .eip => isTrue trivial
  | .gpr _ .w | .gpr _ .b | .high _ | .seg _ | .tmp _ | .xmm _ => isFalse id

namespace Addr

def bases (a : Addr) : List ExprId := a.terms.filterMap base

def indices (a : Addr) : List ExprId := (a.terms.filterMap scaled).map Prod.snd

/-- The addresses of x86-64. -/
structure Legal (a : Addr) : Prop extends a.Decoded where
  base : ∀ r ∈ a.bases, r.IsAddr
  index : ∀ r ∈ a.indices, r.IsAddr ∧ r.virt ≠ some .sp ∧ r.virt ≠ some .ip
  stack : (a.bases.filter fun r => r.virt = some .sp).length ≤ 1
  rip : ∀ r ∈ a.bases, r.virt = some .ip → a.bases = [r] ∧ a.indices = []

end Addr

/-- The registers of a memory operand. -/
def memRegs (segm : Option Seg) (ptr : Addr) : List ExprId :=
  (segm.map ExprId.seg).toList ++ ptr.bases ++ ptr.indices

/-- The virtual registers a memory operand needs. -/
def memVirts (segm : Option Seg) (ptr : Addr) : List Virt := (memRegs segm ptr).filterMap ExprId.virt

def operandAddress (segm : Option Seg) (ptr : Addr) (read : ExprId → BitVec 64) : BitVec 64 :=
  segBase read segm + ptr.value read

/-- The address that is printed: `heap` is the heap the operand is purified in, `heap'` the one it is
printed under. -/
def printedAddress (heap heap' : Heap) (segm : Option Seg) (ptr : Addr)
    (read : ExprId → BitVec 64) : BitVec 64 :=
  segBase read segm + (ptr.bases.map read).sum +
    (ptr.dispPart (fun n => BitVec.ofNat 64 (heap' n)) +
      ptr.scalePart (Addr.printedScale heap heap') read)

/-- The address a 64-bit operand is printed with when it is purified in `heap`. -/
def printedAt (heap : Heap) (segm : Option Seg) (ptr : Addr) (read : ExprId → BitVec 64) : BitVec 64 :=
  printedAddress heap (argPurify (.mem 64 segm ptr) heap).2 segm ptr read

/-- The constants of an operand print as they were decoded: none has been changed by an earlier line,
and none is also the odd scale of the operand itself. -/
def Expr.Intact (heap : Heap) (e : Expr) : Prop :=
  (∀ n ∈ e.scale, heap n = n.arg) ∧
    ∀ n ∈ e.constants, heap n = n.arg ∧ (n ∈ e.scale → n.arg % 2 = 0)

section Address

variable {ip : BitVec 64} {heap heap' : Heap} {stale : Finset ExprInt} {segm : Option Seg}
  {ptr : Addr}

theorem Expr.intact_iff (h : heap.Matches stale) (e : Expr) :
    e.Intact heap ↔ (∀ n ∈ e.scale, n ∉ stale) ∧ ∀ n ∈ e.constants, n ∉ e.spoil stale := by
  have hspoil : ∀ n, n ∉ e.spoil stale ↔ n ∉ stale ∧ (n ∈ e.scale → n.arg % 2 = 0) := by
    intro n
    unfold Expr.spoil
    cases e.scale with
    | none => simp
    | some m =>
        by_cases hm : m.arg % 2 = 1
        · simp only [hm, if_true, Finset.mem_insert, not_or, Option.mem_def, Option.some.injEq]
          constructor
          · rintro ⟨hne, hn⟩
            exact ⟨hn, fun heq => absurd heq.symm hne⟩
          · rintro ⟨hn, heven⟩
            refine ⟨?_, hn⟩
            rintro rfl
            have := heven rfl
            omega
        · simp only [hm, if_false, Option.mem_def, Option.some.injEq]
          refine ⟨fun hn => ⟨hn, ?_⟩, And.left⟩
          rintro rfl
          omega
  simp only [Expr.Intact, h.eq_arg_iff, hspoil]

theorem Expr.denotes_iff_intact {e : Expr} (hdec : e.Decoded) (h : heap.Matches stale) :
    e.Denotes (Arg.printed (argPurify e heap).2 (argPurify e heap).1) ↔ e.Intact heap := by
  rw [Expr.denotes_iff hdec h (h.argPurify hdec) (Finset.Subset.refl _), e.intact_iff h]

/-- A memory operand as it is printed: its address, and the registers it names. -/
theorem Addr.Decoded.printed_mem (h : ptr.Decoded) (size : Nat) (segm : Option Seg)
    (heap heap' : Heap) :
    ∃ d, Arg.printed heap' (argPurify (.mem size segm ptr) heap).1 = .mem d ∧ d.sz = size ∧
      (∀ read, d.address read = printedAddress heap heap' segm ptr read) ∧
      ∀ r, r ∈ extractReg (.mem d) ↔ r ∈ memRegs segm ptr := by
  refine ⟨_, rfl, rfl, fun read => ?_, fun r => ?_⟩
  · obtain ⟨d, hd, -, haddr⟩ := h.address_eq size segm heap heap' read
    obtain rfl := Arg.mem.inj hd
    exact haddr
  · have hmem := mem_foldl_memTerm h.shape ⟨(segm.map ExprId.seg).toList, none, none⟩ heap r
    have hone := eq_toList_head? h.oneScaled
    simp only [firstScaled, Option.isSome_none, Bool.false_eq_true, if_false, Option.map_none,
      Option.mem_def, reduceCtorEq, or_false, ← memAddr_eq_foldl] at hmem
    simp only [extractReg, memRegs, Addr.bases, Addr.indices, List.mem_append, Option.map_map,
      Function.comp_def, Option.mem_toList, or_assoc]
    rw [hmem, hone]
    cases (ptr.terms.filterMap scaled).head? <;> simp [eq_comm]

theorem operandAddress_eq (h : ptr.Decoded) (segm : Option Seg) (read : ExprId → BitVec 64) :
    operandAddress segm ptr read = segBase read segm + (ptr.bases.map read).sum +
      (ptr.dispPart (fun n => BitVec.ofNat 64 n.arg) +
        ptr.scalePart (fun n => BitVec.ofNat 64 n.arg) read) := by
  rw [operandAddress, h.value_eq, Addr.bases, add_assoc]

/-- A register of an address has the value all registers have, if it fits into 32 bits. -/
theorem readReg_const {r : ExprId} (hr : r.IsAddr) (hip : r.virt ≠ some .ip) {regs : Regs}
    {x : BitVec 64} (hregs : ∀ g, regs (.gpr g) = x) (hx : Width.d.get x = x) :
    readReg ip regs r = x := by
  unfold ExprId.IsAddr at hr
  split at hr
  · rw [readReg, hregs, Width.get_q]
  · rw [readReg, hregs, hx]
  · exact absurd rfl hip
  · exact absurd rfl hip
  · cases hr

/-- Two register states tell whether an operand is printed as it was decoded. -/
theorem Addr.Legal.denotes_of (hlegal : ptr.Legal) (size : Nat)
    (h : ∀ x : BitVec 64, x = 0 ∨ x = 1 → ∃ regs : Regs, (∀ g, regs (.gpr g) = x) ∧
      printedAddress heap heap' segm ptr (readReg ip regs) =
        operandAddress segm ptr (readReg ip regs)) :
    (Expr.mem size segm ptr).Denotes
      (Arg.printed heap' (argPurify (.mem size segm ptr) heap).1) := by
  have hparts : ∀ x : BitVec 64, x = 0 ∨ x = 1 → ∃ read : ExprId → BitVec 64,
      (∀ t ∈ (ptr.terms.filterMap Addr.scaled).head?, read t.2 = x) ∧
        ptr.dispPart (fun n => BitVec.ofNat 64 (heap' n)) +
            ptr.scalePart (Addr.printedScale heap heap') read =
          ptr.dispPart (fun n => BitVec.ofNat 64 n.arg) +
            ptr.scalePart (fun n => BitVec.ofNat 64 n.arg) read := by
    intro x hx
    obtain ⟨regs, hregs, heq⟩ := h x hx
    refine ⟨readReg ip regs, fun t ht => ?_,
      add_left_cancel (heq.trans (operandAddress_eq hlegal.toDecoded segm _))⟩
    have hmem : t.2 ∈ ptr.indices := List.mem_map_of_mem (List.mem_of_mem_head? ht)
    obtain ⟨haddr, -, hip⟩ := hlegal.index _ hmem
    exact readReg_const haddr hip hregs (by rcases hx with rfl | rfl <;> rfl)
  obtain ⟨read₀, hread₀, h₀⟩ := hparts 0 (Or.inl rfl)
  obtain ⟨read₁, hread₁, h₁⟩ := hparts 1 (Or.inr rfl)
  rw [hlegal.toDecoded.denotes_iff]
  exact ptr.parts_eq_of hread₀ hread₁ h₀ h₁

/-- What is printed is the address that was decoded, for all register values, exactly if its
constants are intact. -/
theorem printedAt_eq_iff (hlegal : ptr.Legal) (h : heap.Matches stale) :
    (∀ regs, printedAt heap segm ptr (readReg ip regs) =
        operandAddress segm ptr (readReg ip regs)) ↔
      (Expr.mem 64 segm ptr).Intact heap := by
  have hdec : (Expr.mem 64 segm ptr).Decoded := hlegal.toDecoded
  rw [← Expr.denotes_iff_intact hdec h]
  constructor
  · intro hall
    exact hlegal.denotes_of 64 fun x _ => ⟨fun _ => x, fun _ => rfl, hall _⟩
  · rintro ⟨d, hd, -, haddr⟩ regs
    obtain ⟨d', hd', -, haddr', -⟩ := hlegal.toDecoded.printed_mem 64 segm heap
      (argPurify (.mem 64 segm ptr) heap).2
    obtain rfl := Arg.mem.inj (hd.symm.trans hd')
    rw [printedAt, ← haddr', haddr, operandAddress]

/-- The registers with RSP moved. -/
def moveSp (regs : Regs) (bytes : BitVec 64) : Regs :=
  Function.update regs (.gpr .rsp) (regs (.gpr .rsp) + bytes)

theorem readReg_moveSp {r : ExprId} (hr : r.virt ≠ some .sp) (regs : Regs) (bytes : BitVec 64) :
    readReg ip (moveSp regs bytes) r = readReg ip regs r := by
  have hne : ∀ f : Family, f ≠ .gpr .rsp → moveSp regs bytes f = regs f :=
    fun f hf => Function.update_of_ne hf _ _
  cases r with
  | gpr g width =>
      have hg : Family.gpr g ≠ .gpr .rsp := by
        rintro ⟨⟩
        exact hr rfl
      rw [readReg, readReg, hne _ hg]
  | high h =>
      have hg : Family.gpr h.gpr ≠ .gpr .rsp := by cases h <;> decide
      rw [readReg, readReg, hne _ hg]
  | seg s => exact hne _ (by rintro ⟨⟩)
  | tmp t => exact hne _ (by rintro ⟨⟩)
  | _ => rfl

theorem mem_memVirts {v : Virt} : v ∈ memVirts segm ptr ↔ ∃ r ∈ memRegs segm ptr, r.virt = some v :=
  List.mem_filterMap

/-- The parts of an address depend on its own registers only. -/
theorem address_congr {read read' : ExprId → BitVec 64}
    (h : ∀ r ∈ memRegs segm ptr, read r = read' r) :
    segBase read segm + (ptr.bases.map read).sum = segBase read' segm + (ptr.bases.map read').sum ∧
      ∀ f, ptr.scalePart f read = ptr.scalePart f read' := by
  constructor
  · have hseg : segBase read segm = segBase read' segm := by
      cases segm with
      | none => rfl
      | some s => exact h (.seg s) (by simp [memRegs])
    rw [hseg, List.map_congr_left fun r hr => h r (by simp [memRegs, hr])]
  · intro f
    unfold Addr.scalePart
    cases hscaled : (ptr.terms.filterMap Addr.scaled).head? with
    | none => rfl
    | some t =>
        have hmem : t.2 ∈ ptr.indices := List.mem_map_of_mem (List.mem_of_mem_head? hscaled)
        rw [Option.elim_some, Option.elim_some, h t.2 (by simp [memRegs, hmem])]

theorem operandAddress_congr (hdec : ptr.Decoded) {read read' : ExprId → BitVec 64}
    (h : ∀ r ∈ memRegs segm ptr, read r = read' r) :
    operandAddress segm ptr read = operandAddress segm ptr read' := by
  obtain ⟨hsum, hscale⟩ := address_congr h
  rw [operandAddress_eq hdec, operandAddress_eq hdec, hsum, hscale]

theorem printedAddress_congr {read read' : ExprId → BitVec 64}
    (h : ∀ r ∈ memRegs segm ptr, read r = read' r) :
    printedAddress heap heap' segm ptr read = printedAddress heap heap' segm ptr read' := by
  obtain ⟨hsum, hscale⟩ := address_congr h
  rw [printedAddress, printedAddress, hsum, hscale]

/-- An address without RSP does not depend on it. -/
theorem operandAddress_moveSp (h : ptr.Decoded) (hsp : Virt.sp ∉ memVirts segm ptr) (regs : Regs)
    (bytes : BitVec 64) :
    operandAddress segm ptr (readReg ip (moveSp regs bytes)) =
      operandAddress segm ptr (readReg ip regs) :=
  operandAddress_congr h fun r hr =>
    readReg_moveSp (fun hv => hsp (mem_memVirts.mpr ⟨r, hr, hv⟩)) regs bytes

/-- No temporary is part of an address. -/
theorem Addr.Legal.not_tmp (h : ptr.Legal) {r : ExprId} (hr : r ∈ memRegs segm ptr) (tmp : Tmp) :
    r ≠ .tmp tmp := by
  rintro rfl
  rcases List.mem_append.mp hr with hr | hr
  · rcases List.mem_append.mp hr with hr | hr
    · cases segm <;> simp at hr
    · exact h.base _ hr
  · exact (h.index _ hr).1

theorem readReg_congr {regs regs' : Regs} (h : ∀ f, (∀ tmp, f ≠ .tmp tmp) → regs' f = regs f)
    {r : ExprId} (hr : ∀ tmp, r ≠ .tmp tmp) : readReg ip regs' r = readReg ip regs r := by
  cases r with
  | gpr g width => rw [readReg, readReg, h (.gpr g) fun _ => by simp]
  | high h' => rw [readReg, readReg, h (.gpr h'.gpr) fun _ => by simp]
  | seg x => exact h (.seg x) fun _ => by simp
  | tmp tmp => exact absurd rfl (hr tmp)
  | _ => rfl

theorem readReg_same {s s' : State} (h : s.Same s') {r : ExprId} (hr : ∀ tmp, r ≠ .tmp tmp) :
    readReg ip s'.regs r = readReg ip s.regs r := readReg_congr h.regs hr

theorem sum_map_filter {α : Type*} {f : α → BitVec 64} {p : α → Bool} {l : List α}
    (h : ∀ x ∈ l, p x = false → f x = 0) : (l.map f).sum = ((l.filter p).map f).sum := by
  induction l with
  | nil => rfl
  | cons x l ih =>
      obtain ⟨hx, hl⟩ := List.forall_mem_cons.mp h
      rw [List.map_cons, List.sum_cons, ih hl, List.filter_cons]
      cases hp : p x with
      | true => simp
      | false => simp [hx hp]

/-- All registers zero, but RSP. -/
def onlySp (value : BitVec 64) : Regs := Function.update (fun _ => 0) (.gpr .rsp) value

theorem readReg_onlySp {r : ExprId} (haddr : r.IsAddr) (hip : r.virt ≠ some .ip) (value : BitVec 64)
    (hvalue : Width.d.get value = value) :
    readReg ip (onlySp value) r = if r.virt = some .sp then value else 0 := by
  have hget : ∀ (g : Gpr) (width : Width), (width = .q ∨ width = .d) →
      readReg ip (onlySp value) (.gpr g width) =
        if (Family.gpr g).virt = some .sp then value else 0 := by
    intro g width hwidth
    have hself : width.get value = value := by
      rcases hwidth with rfl | rfl
      · exact Width.get_q _
      · exact hvalue
    by_cases hg : g = .rsp
    · subst hg
      exact hself
    · have hvirt : (Family.gpr g).virt ≠ some .sp := by
        intro hv
        exact hg (Family.gpr.inj (family_virt_injective hv rfl))
      rw [if_neg hvirt, readReg, onlySp, Function.update_of_ne fun h => hg (Family.gpr.inj h)]
      exact BitVec.zero_and
  unfold ExprId.IsAddr at haddr
  split at haddr
  · exact hget _ _ (Or.inl rfl)
  · exact hget _ _ (Or.inr rfl)
  · exact absurd rfl hip
  · exact absurd rfl hip
  · cases haddr

/-- The part of an address that is not constant, where RSP is the only register that is not zero. -/
theorem address_onlySp (hlegal : ptr.Legal) (hsp : Virt.sp ∈ memVirts segm ptr) (value : BitVec 64)
    (hvalue : Width.d.get value = value) (f : ExprInt → BitVec 64) :
    segBase (readReg ip (onlySp value)) segm + (ptr.bases.map (readReg ip (onlySp value))).sum = value ∧
      ptr.scalePart f (readReg ip (onlySp value)) = 0 := by
  have hindex : ∀ r ∈ ptr.indices, readReg ip (onlySp value) r = 0 := by
    intro r hr
    obtain ⟨haddr, hrsp, hip⟩ := hlegal.index r hr
    rw [readReg_onlySp haddr hip value hvalue, if_neg hrsp]
  -- RSP is a base, for it is no segment and no index
  obtain ⟨r₀, hr₀, hbase⟩ : ∃ r ∈ ptr.bases, r.virt = some .sp := by
    obtain ⟨r, hr, hv⟩ := mem_memVirts.mp hsp
    rcases List.mem_append.mp hr with hr | hr
    · rcases List.mem_append.mp hr with hr | hr
      · obtain ⟨s, -, rfl⟩ : ∃ s, segm = some s ∧ ExprId.seg s = r := by simpa using hr
        cases s <;> cases hv
      · exact ⟨r, hr, hv⟩
    · exact absurd hv (hlegal.index r hr).2.1
  have hnoIp : ∀ r ∈ ptr.bases, r.virt ≠ some .ip := by
    intro r hr hip
    have heq := List.mem_singleton.mp ((hlegal.rip r hr hip).1 ▸ hr₀)
    rw [heq, hip] at hbase
    cases hbase
  have hread : ∀ r ∈ ptr.bases, readReg ip (onlySp value) r = if r.virt = some .sp then value else 0 :=
    fun r hr => readReg_onlySp (hlegal.base r hr) (hnoIp r hr) value hvalue
  constructor
  · have hseg : segBase (readReg ip (onlySp value)) segm = 0 := by cases segm <;> rfl
    have hsum := sum_map_filter (f := readReg ip (onlySp value)) (p := fun r => r.virt = some .sp)
      (l := ptr.bases) fun r hr hv => by rw [hread r hr, if_neg (by simpa using hv)]
    obtain ⟨r, hone⟩ : ∃ r, ptr.bases.filter (fun r => r.virt = some .sp) = [r] := by
      refine List.length_eq_one_iff.mp (Nat.le_antisymm hlegal.stack ?_)
      exact List.length_pos_of_mem (List.mem_filter.mpr ⟨hr₀, by simpa using hbase⟩)
    have hr : r ∈ ptr.bases.filter (fun r => r.virt = some .sp) := by rw [hone]; simp
    obtain ⟨hmem, hv⟩ := List.mem_filter.mp hr
    rw [hseg, hsum, hone, List.map_singleton, List.sum_singleton, hread r hmem,
      if_pos (by simpa using hv), zero_add]
  · unfold Addr.scalePart
    cases hscaled : (ptr.terms.filterMap Addr.scaled).head? with
    | none => rfl
    | some t =>
        have hmem : t.2 ∈ ptr.indices := List.mem_map_of_mem (List.mem_of_mem_head? hscaled)
        rw [Option.elim_some, hindex t.2 hmem, mul_zero]

/-- A displacement is printed as it is, or one too low. -/
theorem dispPart_printed (h : heap.Matches stale) (ptr : Addr) :
    ptr.dispPart (fun n => BitVec.ofNat 64 (heap n)) =
        ptr.dispPart (fun n => BitVec.ofNat 64 n.arg) ∨
      ptr.dispPart (fun n => BitVec.ofNat 64 (heap n)) + 1 =
        ptr.dispPart (fun n => BitVec.ofNat 64 n.arg) := by
  unfold Addr.dispPart
  cases (ptr.terms.filterMap Addr.disp).head? with
  | none => exact Or.inl rfl
  | some n =>
      by_cases hn : n ∈ stale
      · have hodd := h.odd n hn
        have hsucc : n.arg = n.arg - 1 + 1 := by omega
        refine Or.inr ?_
        rw [Option.elim_some, Option.elim_some, h.low n hn]
        conv_rhs => rw [hsucc, BitVec.ofNat_add]
        rfl
      · rw [Option.elim_some, Option.elim_some, h.same n hn]
        exact Or.inl rfl

/-- With RSP moved by 8 in between, the operand must not name RSP. -/
theorem printedAt_moveSp_iff (hlegal : ptr.Legal) (h : heap.Matches stale) :
    (∀ regs, printedAt heap segm ptr (readReg ip (moveSp regs (-8))) =
        operandAddress segm ptr (readReg ip regs)) ↔
      Virt.sp ∉ memVirts segm ptr ∧ (Expr.mem 64 segm ptr).Intact heap := by
  rw [← @printedAt_eq_iff ip heap stale segm ptr hlegal h]
  constructor
  · intro hall
    have hsp : Virt.sp ∉ memVirts segm ptr := by
      intro hsp
      have hmove : moveSp (onlySp 0x1000) (-8) = onlySp 0xFF8 := by
        simp only [moveSp, onlySp, Function.update_self, Function.update_idem]
        rfl
      have hone := hall (onlySp 0x1000)
      obtain ⟨hleft, hscale⟩ := @address_onlySp ip segm ptr hlegal hsp 0xFF8 rfl
        (Addr.printedScale heap (argPurify (.mem 64 segm ptr) heap).2)
      obtain ⟨hleft', hscale'⟩ := @address_onlySp ip segm ptr hlegal hsp 0x1000 rfl
        fun n => BitVec.ofNat 64 n.arg
      rw [hmove, printedAt, printedAddress, hleft, hscale, operandAddress_eq hlegal.toDecoded, hleft', hscale',
        add_zero, add_zero] at hone
      have hdec : (Expr.mem 64 segm ptr).Decoded := hlegal.toDecoded
      rcases dispPart_printed (h.argPurify hdec) ptr with heq | heq
      · rw [heq] at hone
        exact absurd (add_right_cancel hone) (by decide)
      · rw [← heq, add_comm _ (1 : BitVec 64), ← add_assoc] at hone
        exact absurd (add_right_cancel hone) (by decide)
    refine ⟨hsp, fun regs => ?_⟩
    have hback : moveSp (moveSp regs 8) (-8) = regs := by
      simp only [moveSp, Function.update_self, Function.update_idem, add_neg_cancel_right,
        Function.update_eq_self]
    have hmoved := hall (moveSp regs 8)
    rw [hback, operandAddress_moveSp hlegal.toDecoded hsp] at hmoved
    exact hmoved
  · rintro ⟨hsp, hall⟩ regs
    rw [hall, operandAddress_moveSp hlegal.toDecoded hsp]

end Address

namespace State

def moveSp (s : State) (bytes : BitVec 64) : State := s.set (.gpr .rsp) (s.sp + bytes)

theorem moveSp_regs (s : State) (bytes : BitVec 64) :
    (s.moveSp bytes).regs = UserspaceBypass.moveSp s.regs bytes := rfl

theorem set_regs (s : State) (f : Family) (value : BitVec 64) : (s.set f value).regs f = value := by
  simp [set]

theorem moveSp_sp (s : State) (bytes : BitVec 64) : (s.moveSp bytes).sp = s.sp + bytes :=
  s.set_regs _ _

/-- RSP moves past the write of another register. -/
theorem moveSp_set {f : Family} (hf : f ≠ .gpr .rsp) (s : State) (value bytes : BitVec 64) :
    (s.set f value).moveSp bytes = (s.moveSp bytes).set f value := by
  have hsp : (s.set f value).sp = s.sp := Function.update_of_ne hf.symm _ _
  rw [moveSp, moveSp, hsp, set, set, set, set, Function.update_comm hf]

/-- The value at the top of the stack replaced. -/
def setTop (s : State) (value : BitVec 64) : State := s.setMem (store 8 s.env.mem s.sp value)

/-- PUSH of a value. -/
def push (s : State) (value : BitVec 64) : State := (s.moveSp (-8)).setTop value

theorem push_mem (s : State) (value : BitVec 64) :
    (s.push value).env.mem = store 8 s.env.mem (s.sp + -8) value := by
  rw [← moveSp_sp]
  rfl

theorem push_regs (s : State) (value : BitVec 64) : (s.push value).regs = (s.moveSp (-8)).regs := rfl

theorem push_sp (s : State) (value : BitVec 64) : (s.push value).sp = s.sp + -8 := by
  rw [State.sp, push_regs, ← State.sp, moveSp_sp]

theorem push_gpr {g : Gpr} (hg : g ≠ .rsp) (s : State) (value : BitVec 64) :
    (s.push value).regs (.gpr g) = s.regs (.gpr g) := by
  rw [push_regs, moveSp_regs, UserspaceBypass.moveSp, Function.update_of_ne]
  exact fun heq => hg (Family.gpr.inj heq)

/-- The value of a 64-bit operand. -/
def value (ip : BitVec 64) (s : State) : Expr → BitVec 64
  | .id r => readReg ip s.regs r
  | .mem _ segm ptr => load64 s.env.mem (operandAddress segm ptr (readReg ip s.regs))
  | .int n => BitVec.ofNat 64 n.arg
  | _ => 0

theorem value_gpr (ip : BitVec 64) (s : State) (g : Gpr) :
    s.value ip (.id (.gpr g .q)) = s.regs (.gpr g) := Width.get_q _

/-- A write to a 64-bit destination. -/
def write (ip : BitVec 64) (s : State) (value : BitVec 64) : Expr → State
  | .id r => { s with regs := writeReg s.regs r value }
  | .mem _ segm ptr =>
      s.setMem (store 8 s.env.mem (operandAddress segm ptr (readReg ip s.regs)) value)
  | _ => s

/-- POP: the destination is evaluated with RSP incremented. -/
def pop (ip : BitVec 64) (s : State) (dst : Expr) : State :=
  (s.moveSp 8).write ip (load64 s.env.mem s.sp) dst

theorem Same.moveSp {s s' : State} (h : s.Same s') (bytes : BitVec 64) :
    (s.moveSp bytes).Same (s'.moveSp bytes) := by
  rw [State.moveSp, State.moveSp, State.sp, State.sp, h.gpr]
  exact h.set _ _

theorem Same.setTop {s s' : State} (h : s.Same s') (value : BitVec 64) :
    (s.setTop value).Same (s'.setTop value) := by
  rw [State.setTop, State.setTop, State.sp, State.sp, h.env, h.gpr]
  exact h.setMem _

theorem Same.push {s s' : State} (h : s.Same s') (value : BitVec 64) :
    (s.push value).Same (s'.push value) := (h.moveSp (-8)).setTop value

end State

/-- A 64-bit register or memory operand. -/
def Expr.Legal64 : Expr → Prop
  | .id (.gpr _ .q) => True
  | .mem size _ ptr => size = 64 ∧ ptr.Legal
  | _ => False

end UserspaceBypass
