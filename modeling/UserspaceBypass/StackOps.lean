import UserspaceBypass.LineStart

/-! PUSH and POP. The handlers split the instruction into an adjustment of RSP and moves; what the
moves do is compared with the instruction on every state. -/

namespace UserspaceBypass

open StraightLine Memory

variable {isa : Isa} {world : World} {offset : Nat} {held : Option Tmp} {stale : Finset ExprInt}

inductive StackOp where
  | push
  | pop
  deriving DecidableEq, Repr

namespace StackOp

def process : StackOp → Expr → List Step
  | .push => processPush
  | .pop => processPop

/-- The instruction of x86-64; `ip` is the address after it. -/
def exec (ip : BitVec 64) : StackOp → Expr → State → State
  | .push, arg, s => s.push (s.value ip arg)
  | .pop, arg, s => s.pop ip arg

/-- The operands of a 64-bit PUSH or POP. -/
def Legal : StackOp → Expr → Prop
  | .push, .int n => n.size = 64
  | _, arg => arg.Legal64

end StackOp

/-- A memory operand that does not combine RIP with a segment base. -/
def SegFree (segm : Option Seg) (ptr : Addr) : Prop :=
  Virt.ip ∈ memVirts segm ptr → Virt.fs ∉ memVirts segm ptr ∧ Virt.gs ∉ memVirts segm ptr

/-- Operands that survive the split: registers but RSP, and memory operands that do not use RSP, do
not combine RIP with a segment base, and have their constants intact. -/
def Expr.StackSafe (heap : Heap) : Expr → Prop
  | .id r => r ≠ rsp
  | .mem size segm ptr =>
      Virt.sp ∉ memVirts segm ptr ∧ SegFree segm ptr ∧ (Expr.mem size segm ptr).Intact heap
  | _ => False

/-- Making an even constant changes nothing. -/
theorem make_even {heap : Heap} (h : heap.Matches stale) (world : World) {n : ExprInt}
    (hn : n.arg % 2 = 0) : heap n = n.arg ∧ world.make n heap = heap := by
  have hsame : heap n = n.arg := h.same n fun hmem => by
    have hodd := h.odd n hmem
    omega
  refine ⟨hsame, ?_⟩
  unfold World.make
  split
  · rw [← hsame, Function.update_eq_self]
  · rfl

theorem conflictRegs_of_rsp {args : List Arg} (h : ∀ a ∈ args, ∀ r ∈ extractReg a, r = rsp) :
    ∀ v ∈ conflictRegs args, v = .sp := by
  intro v hv
  obtain ⟨a, ha, r, hr, hrv⟩ := mem_conflictRegs.mp hv
  rw [h a ha r hr] at hrv
  exact (Option.some.inj hrv).symm

/-- The distances RSP is moved by: a word, or two bytes. -/
inductive StackMove : Int → BitVec 64 → Prop
  | push : StackMove (-8) (-8)
  | pop : StackMove 8 8
  | push16 : StackMove (-2) (-2)
  | pop16 : StackMove 2 2

/-- The call for `LEA RSP, [RSP + bytes]`. -/
theorem moveStack_call {bytes : Int} {b : BitVec 64}
    (hbytes : StackMove bytes b) {heap : Heap} (hheap : heap.Matches stale) (world : World)
    (offset : Nat) :
    ∃ n : ExprInt, BitVec.ofNat 64 (heap n) = b ∧
      (Step.moveStack bytes).heapAfter world offset heap = heap ∧
      (Step.moveStack bytes).call world offset heap =
        some ⟨"LEA", [.reg rsp, .mem ⟨64, [rsp], some ⟨heap n, n.size⟩, none⟩], false⟩ := by
  obtain ⟨n, hn, hbits, hmade, hcall⟩ : ∃ n : ExprInt, n.arg % 2 = 0 ∧
      BitVec.ofNat 64 n.arg = b ∧
      (Step.moveStack bytes).heapAfter world offset heap = world.make n heap ∧
      (Step.moveStack bytes).call world offset heap = some ⟨"LEA", [.reg rsp,
        .mem ⟨64, [rsp], some ⟨world.make n heap n, n.size⟩, none⟩], false⟩ := by
    cases hbytes with
    | push => exact ⟨⟨2 ^ 64 - 8, 64⟩, by decide, by decide, rfl, rfl⟩
    | pop => exact ⟨⟨8, 64⟩, by decide, by decide, rfl, rfl⟩
    | push16 => exact ⟨⟨2 ^ 64 - 2, 64⟩, by decide, by decide, rfl, rfl⟩
    | pop16 => exact ⟨⟨2, 64⟩, by decide, by decide, rfl, rfl⟩
  obtain ⟨harg, hmake⟩ := make_even hheap world hn
  rw [hmake] at hmade hcall
  exact ⟨n, by rw [harg, hbits], hmade, hcall⟩

/-- `LEA RSP, [RSP + bytes]`. -/
theorem ran_moveStack (hisa : isa.Moves) {bytes : Int} {b : BitVec 64}
    (hbytes : StackMove bytes b) {t t' : TransState} {text : List Asm}
    (h : Held t.regMap held) (hheap : t.heap.Matches stale)
    (hrun : (Step.moveStack bytes).run world offset t = some (text, t')) :
    Held t'.regMap held ∧ t'.heap = t.heap ∧ Executes isa text ∧
      Sim isa text t.regMap t'.regMap fun s s' => s' = s.moveSp b := by
  obtain ⟨n, hbits, hmade, hcall⟩ := moveStack_call hbytes hheap world offset
  have hconflict := @conflictRegs_of_rsp
    [.reg rsp, .mem ⟨64, [rsp], some ⟨t.heap n, n.size⟩, none⟩] (by simp [extractReg])
  have hinst : ∀ s, execInst isa (BitVec.ofNat 64 offset) "LEA"
      [.reg rsp, .mem ⟨64, [rsp], some ⟨t.heap n, n.size⟩, none⟩] s =
        some (s.moveSp b) := by
    intro s
    have hread : readReg (BitVec.ofNat 64 offset) s.regs rsp = s.sp := ExprId.full_read rfl _
    rw [exec_lea hisa rfl rfl]
    simp only [MemDict.address, List.map_cons, List.map_nil, List.sum_cons, List.sum_nil, hread,
      Option.elim_some, Option.elim_none, hbits, add_zero]
    rfl
  obtain ⟨hheld, hsim, hexec⟩ := h.ran_call hcall (fun v hv ht => by
    rw [hconflict v hv] at ht
    cases ht) hinst hrun
  refine ⟨hheld, (Step.run_heap hrun).trans hmade, hexec fun hip => ?_, hsim⟩
  cases hconflict _ hip

theorem run_moveStack {bytes : Int} {b : BitVec 64}
    (hbytes : StackMove bytes b) {t : TransState} (hm : MapInv t.regMap)
    (hheap : t.heap.Matches stale) (world : World) (offset : Nat) :
    ∃ text t', (Step.moveStack bytes).run world offset t = some (text, t') := by
  obtain ⟨n, -, -, hcall⟩ := moveStack_call hbytes hheap world offset
  refine Step.run_of_room hcall hm (room_of_resident fun v hv => ?_) (by simp [sz2pfx])
  rw [conflictRegs_of_rsp (by simp [extractReg]) v hv]
  exact ⟨.p13, hm.sp⟩

/-- A register that is no temporary, or the one that is held. -/
def OnlyHeld (held : Option Tmp) (r : ExprId) : Prop :=
  ∀ v, r.virt = some v → v.isTmp → held.map Tmp.virt = some v

theorem onlyHeld_tmp (tmp : Tmp) : OnlyHeld (some tmp) (.tmp tmp) := by
  intro v hv _
  rw [← hv]
  cases tmp <;> rfl

theorem onlyHeld_gpr (held : Option Tmp) (g : Gpr) (width : Width) : OnlyHeld held (.gpr g width) := by
  intro v hv ht
  have hfalse := isTmp_of_family (f := .gpr g) (fun _ => nofun) hv
  rw [hfalse] at ht
  cases ht

theorem ExprId.full_ne_ip {r : ExprId} {f : Family} (h : r.full = some f) : r.virt ≠ some .ip := by
  unfold ExprId.full at h
  split at h <;> cases h
  · exact family_virt_ne_ip _
  · exact family_virt_ne_ip _

/-- A move between a register and the top of the stack, in either direction. -/
structure TopMove (r : ExprId) (args : List Expr) (printed : List Arg) : Prop where
  call : ∀ heap, Call.of "MOV" args false heap = ⟨"MOV", printed, false⟩
  heap : ∀ heap, (purifyArgs args heap).2 = heap
  printed : ∀ a ∈ printed, a = .reg r ∨ ∃ size ∈ sz2pfx, a = .mem ⟨size, [rsp], none, none⟩

section Top

variable {r : ExprId} {f : Family} {t t' : TransState} {text : List Asm} {args : List Expr}
  {printed : List Arg}

theorem topMove_store (r : ExprId) : TopMove r [.dict (makeMemDict 64 rsp 0), .id r]
    [.mem ⟨64, [rsp], none, none⟩, .reg r] :=
  ⟨fun _ => rfl, fun _ => rfl, by simp [sz2pfx]⟩

theorem topMove_load (r : ExprId) : TopMove r [.id r, .dict (makeMemDict 64 rsp 0)]
    [.reg r, .mem ⟨64, [rsp], none, none⟩] :=
  ⟨fun _ => rfl, fun _ => rfl, by simp [sz2pfx]⟩

namespace TopMove

theorem conflictRegs (h : TopMove r args printed) :
    ∀ v ∈ conflictRegs printed, v = .sp ∨ r.virt = some v := by
  intro v hv
  obtain ⟨a, ha, q, hq, hqv⟩ := mem_conflictRegs.mp hv
  rcases h.printed a ha with rfl | ⟨size, -, rfl⟩
  · obtain rfl : q = r := by simpa [extractReg] using hq
    exact Or.inr hqv
  · obtain rfl : q = rsp := by simpa [extractReg] using hq
    exact Or.inl (Option.some.inj hqv).symm

theorem step_call (h : TopMove r args printed) (world : World) (offset : Nat) (heap : Heap) :
    (Step.normal "MOV" args false).call world offset heap = some ⟨"MOV", printed, false⟩ :=
  congrArg some (h.call heap)

theorem ran (hmove : TopMove r args printed) {g : State → State} (hip : r.virt ≠ some .ip)
    (hheld : OnlyHeld held r)
    (hinst : ∀ s, execInst isa (BitVec.ofNat 64 offset) "MOV" printed s = some (g s))
    (h : Held t.regMap held)
    (hrun : (Step.normal "MOV" args false).run world offset t = some (text, t')) :
    Held t'.regMap held ∧ t'.heap = t.heap ∧ Executes isa text ∧
      Sim isa text t.regMap t'.regMap fun s s' => s' = g s := by
  have htmp : ∀ v ∈ UserspaceBypass.conflictRegs printed, v.isTmp → held.map Tmp.virt = some v := by
    intro v hv ht
    rcases hmove.conflictRegs v hv with rfl | hrv
    · cases ht
    · exact hheld v hrv ht
  obtain ⟨hheld', hsim, hexec⟩ := h.ran_call (hmove.step_call world offset t.heap) htmp hinst hrun
  refine ⟨hheld', (Step.run_heap hrun).trans (hmove.heap t.heap), hexec fun hmem => ?_, hsim⟩
  rcases hmove.conflictRegs _ hmem with hsp | hrip
  · cases hsp
  · exact absurd hrip hip

theorem run_of_room (hmove : TopMove r args printed) (hm : MapInv t.regMap)
    (hroom : Room t.regMap (UserspaceBypass.conflictRegs printed)) (world : World) (offset : Nat) :
    ∃ text t', (Step.normal "MOV" args false).run world offset t = some (text, t') := by
  refine Step.run_of_room (hmove.step_call world offset t.heap) hm hroom fun d hd => ?_
  rcases hmove.printed _ hd with heq | ⟨size, hsize, heq⟩ <;> cases heq
  exact hsize

/-- A register that is no temporary is moved in every pop order. -/
theorem run_reg {g : Gpr} {width : Width} (hmove : TopMove (.gpr g width) args printed)
    (h : Held t.regMap none) (world : World) (offset : Nat) :
    ∃ text t', (Step.normal "MOV" args false).run world offset t = some (text, t') := by
  refine hmove.run_of_room h.map ?_ world offset
  by_cases hres : ∀ v ∈ UserspaceBypass.conflictRegs printed, t.regMap.Resident v
  · exact room_of_resident hres
  · push Not at hres
    obtain ⟨w, hw, habsent⟩ := hres
    have hwr : (ExprId.gpr g width).virt = some w := by
      rcases hmove.conflictRegs w hw with rfl | hwr
      · exact absurd ⟨.p13, h.map.sp⟩ habsent
      · exact hwr
    refine Or.inl (h.room habsent fun v hv => ?_)
    rcases hmove.conflictRegs v hv with rfl | hvr
    · exact Or.inr (Or.inl rfl)
    · exact Or.inl (Option.some.inj (hvr.symm.trans hwr))

theorem resident {tmp : Tmp} (hmove : TopMove (.tmp tmp) args printed) (h : Held t.regMap (some tmp)) :
    ∀ v ∈ UserspaceBypass.conflictRegs printed, t.regMap.Resident v := by
  intro v hv
  rcases hmove.conflictRegs v hv with rfl | htmp
  · exact ⟨.p13, h.map.sp⟩
  · obtain rfl : tmp.virt = v := by
      cases tmp <;> exact Option.some.inj htmp
    exact (h.tmp _ tmp.virt_isTmp).mpr rfl

/-- So is the temporary that is held. -/
theorem run_tmp {tmp : Tmp} (hmove : TopMove (.tmp tmp) args printed) (h : Held t.regMap (some tmp))
    (world : World) (offset : Nat) :
    ∃ text t', (Step.normal "MOV" args false).run world offset t = some (text, t') :=
  hmove.run_of_room h.map (room_of_resident (hmove.resident h)) world offset

end TopMove

theorem address_top (ip : BitVec 64) (s : State) (size : Nat) :
    MemDict.address (readReg ip s.regs) ⟨size, [rsp], none, none⟩ = s.sp := by
  have hread : readReg ip s.regs rsp = s.sp := ExprId.full_read rfl _
  simp [MemDict.address, hread]

/-- `MOV [RSP], r`. -/
theorem ran_storeTop (hisa : isa.Moves) (hr : r.full = some f)
    (hheld : OnlyHeld held r)
    (h : Held t.regMap held)
    (hrun : (Step.normal "MOV" [.dict (makeMemDict 64 rsp 0), .id r] false).run world offset t =
      some (text, t')) :
    Held t'.regMap held ∧ t'.heap = t.heap ∧ Executes isa text ∧
      Sim isa text t.regMap t'.regMap fun s s' =>
        s' = s.setTop (s.regs f) := by
  refine (topMove_store r).ran (ExprId.full_ne_ip hr) hheld (fun s => ?_) h hrun
  rw [exec_store hisa rfl hr, address_top]
  rfl

/-- `MOV r, [RSP]`. -/
theorem ran_loadTop (hisa : isa.Moves) (hr : r.full = some f)
    (hheld : OnlyHeld held r)
    (h : Held t.regMap held)
    (hrun : (Step.normal "MOV" [.id r, .dict (makeMemDict 64 rsp 0)] false).run world offset t =
      some (text, t')) :
    Held t'.regMap held ∧ t'.heap = t.heap ∧ Executes isa text ∧
      Sim isa text t.regMap t'.regMap fun s s' => s' = s.set f (load64 s.env.mem s.sp) := by
  refine (topMove_load r).ran (ExprId.full_ne_ip hr) hheld (fun s => ?_) h hrun
  rw [exec_load hisa hr rfl, address_top]

end Top

section Memory

variable {tmp : Tmp} {segm : Option Seg} {ptr : Addr} {t t' : TransState} {text : List Asm}

/-- The virtual registers of a move between a temporary and a memory operand. -/
theorem conflictRegs_held {d : MemDict} (hregs : ∀ r, r ∈ extractReg (.mem d) ↔ r ∈ memRegs segm ptr)
    {args : List Arg} (hargs : ∀ a, a ∈ args ↔ a = .reg (.tmp tmp) ∨ a = .mem d) (v : Virt) :
    v ∈ conflictRegs args ↔ v = tmp.virt ∨ v ∈ memVirts segm ptr := by
  have htmp : (ExprId.tmp tmp).virt = some tmp.virt := by cases tmp <;> rfl
  rw [mem_conflictRegs, mem_memVirts]
  constructor
  · rintro ⟨a, ha, r, hr, hrv⟩
    rcases (hargs a).mp ha with rfl | rfl
    · obtain rfl : r = .tmp tmp := by simpa [extractReg] using hr
      exact Or.inl (Option.some.inj (hrv.symm.trans htmp))
    · exact Or.inr ⟨r, (hregs r).mp hr, hrv⟩
  · rintro (rfl | ⟨r, hr, hrv⟩)
    · exact ⟨_, (hargs _).mpr (Or.inl rfl), _, by simp [extractReg], htmp⟩
    · exact ⟨_, (hargs _).mpr (Or.inr rfl), r, (hregs r).mpr hr, hrv⟩

/-- RIP comes alone in an address, apart from a segment base. -/
theorem Addr.Legal.virts_of_rip (h : ptr.Legal) (hip : Virt.ip ∈ memVirts segm ptr) (v : Virt) :
    v ∈ memVirts segm ptr ↔ v = .ip ∨ (segm.bind fun s => (ExprId.seg s).virt) = some v := by
  obtain ⟨r, hr, hrip⟩ : ∃ r ∈ ptr.bases, r.virt = some .ip := by
    obtain ⟨r, hr, hv⟩ := mem_memVirts.mp hip
    rcases List.mem_append.mp hr with hr | hr
    · rcases List.mem_append.mp hr with hr | hr
      · obtain ⟨s, -, rfl⟩ : ∃ s, segm = some s ∧ ExprId.seg s = r := by simpa using hr
        exact absurd hv (family_virt_ne_ip _)
      · exact ⟨r, hr, hv⟩
    · exact absurd hv (h.index r hr).2.2
  obtain ⟨hbases, hindices⟩ := h.rip r hr hrip
  rw [mem_memVirts, memRegs, hbases, hindices, List.append_nil]
  constructor
  · rintro ⟨q, hq, hqv⟩
    rcases List.mem_append.mp hq with hq | hq
    · obtain ⟨s, rfl, rfl⟩ : ∃ s, segm = some s ∧ ExprId.seg s = q := by simpa using hq
      exact Or.inr hqv
    · rw [List.mem_singleton.mp hq, hrip] at hqv
      exact Or.inl (Option.some.inj hqv).symm
  · rintro (rfl | hv)
    · exact ⟨r, by simp, hrip⟩
    · obtain ⟨s, rfl, hs⟩ := Option.bind_eq_some_iff.mp hv
      exact ⟨.seg s, by simp, hs⟩

theorem seg_virt (s : Seg) : (ExprId.seg s).virt = none ∨ (ExprId.seg s).virt = some .fs ∨
    (ExprId.seg s).virt = some .gs := by
  cases s <;> decide

theorem SegFree.ripAlone (h : SegFree segm ptr) (hlegal : ptr.Legal) {conflict : List Virt}
    (hconflict : ∀ v, v ∈ conflict ↔ v = tmp.virt ∨ v ∈ memVirts segm ptr) :
    RipAlone (some tmp) conflict := by
  intro hip v hv
  have hmem : Virt.ip ∈ memVirts segm ptr := by
    rcases (hconflict _).mp hip with htmp | hmem
    · cases tmp <;> cases htmp
    · exact hmem
  rcases (hconflict v).mp hv with rfl | hv
  · exact Or.inr rfl
  rcases (hlegal.virts_of_rip hmem v).mp hv with rfl | hseg
  · exact Or.inl rfl
  · obtain ⟨s, -, hs⟩ := Option.bind_eq_some_iff.mp hseg
    obtain ⟨hfs, hgs⟩ := h hmem
    rcases seg_virt s with hnone | hsome | hsome <;> rw [hs] at *
    · cases hnone
    · cases hsome
      exact absurd hv hfs
    · cases hsome
      exact absurd hv hgs

/-- A move between a temporary and a memory operand, in either direction. -/
structure MemMove (tmp : Tmp) (size : Nat) (segm : Option Seg) (ptr : Addr) (args : List Expr)
    (printed : Arg → List Arg) : Prop where
  mem_printed : ∀ a b, b ∈ printed a ↔ b = .reg (.tmp tmp) ∨ b = a
  call : ∀ heap, Call.of "MOV" args false heap =
    ⟨"MOV", printed (Arg.printed (argPurify (.mem size segm ptr) heap).2
      (argPurify (.mem size segm ptr) heap).1), false⟩

theorem memMove_load (tmp : Tmp) (size : Nat) (segm : Option Seg) (ptr : Addr) :
    MemMove tmp size segm ptr [.id (.tmp tmp), .mem size segm ptr] fun a => [.reg (.tmp tmp), a] :=
  ⟨by simp, fun _ => rfl⟩

theorem memMove_store (tmp : Tmp) (size : Nat) (segm : Option Seg) (ptr : Addr) :
    MemMove tmp size segm ptr [.mem size segm ptr, .id (.tmp tmp)] fun a => [a, .reg (.tmp tmp)] :=
  ⟨by simp [or_comm], fun _ => rfl⟩

/-- The operand fits beside the temporary. -/
def Fits (tmp : Tmp) (segm : Option Seg) (ptr : Addr) : Prop :=
  Room (tmpMap tmp) (tmp.virt :: memVirts segm ptr)

section Move

variable {size : Nat} {args : List Expr} {printed : Arg → List Arg}

/-- The call, as it is printed. -/
theorem MemMove.step_call (hmove : MemMove tmp size segm ptr args printed) (hlegal : ptr.Legal)
    (heap : Heap) :
    ∃ d : MemDict, d.sz = size ∧
      (∀ read, d.address read = printedAddress heap (argPurify (.mem size segm ptr) heap).2 segm ptr
        read) ∧
      (∀ world offset, (Step.normal "MOV" args false).call world offset heap =
        some ⟨"MOV", printed (.mem d), false⟩) ∧
      ∀ v, v ∈ conflictRegs (printed (.mem d)) ↔ v = tmp.virt ∨ v ∈ memVirts segm ptr := by
  obtain ⟨d, hd, hsz, haddr, hregs⟩ := hlegal.toDecoded.printed_mem size segm heap
    (argPurify (.mem size segm ptr) heap).2
  refine ⟨d, hsz, haddr, fun world offset => ?_, conflictRegs_held hregs (hmove.mem_printed _)⟩
  exact congrArg some ((hmove.call heap).trans (by rw [hd]))

theorem held_memVirts (hlegal : ptr.Legal) {conflict : List Virt}
    (hconflict : ∀ v, v ∈ conflict ↔ v = tmp.virt ∨ v ∈ memVirts segm ptr) :
    ∀ v ∈ conflict, v.isTmp → (some tmp).map Tmp.virt = some v := by
  intro v hv ht
  rcases (hconflict v).mp hv with rfl | hv
  · rfl
  · obtain ⟨r, hr, hrv⟩ := mem_memVirts.mp hv
    obtain ⟨tmp', rfl⟩ := ExprId.virt_isTmp hrv ht
    exact absurd rfl (hlegal.not_tmp hr tmp')

theorem MemMove.ran (hmove : MemMove tmp 64 segm ptr args printed) (hlegal : ptr.Legal)
    {g : MemDict → State → State}
    (hinst : ∀ d : MemDict, d.sz = 64 → ∀ s,
      execInst isa (BitVec.ofNat 64 offset) "MOV" (printed (.mem d)) s = some (g d s))
    (h : Held t.regMap (some tmp))
    (hrun : (Step.normal "MOV" args false).run world offset t = some (text, t')) :
    ∃ d : MemDict, (∀ read, d.address read = printedAt t.heap segm ptr read) ∧
      Held t'.regMap (some tmp) ∧ (Sim isa text t.regMap t'.regMap fun s s' => s' = g d s) ∧
      (SegFree segm ptr → Executes isa text) := by
  obtain ⟨d, hsz, haddr, hcall, hconflict⟩ := hmove.step_call hlegal t.heap
  obtain ⟨hheld, hsim, hexec⟩ := h.ran_call (hcall world offset) (held_memVirts hlegal hconflict)
    (hinst d hsz) hrun
  exact ⟨d, haddr, hheld, hsim, fun hfree => hexec (hfree.ripAlone hlegal hconflict)⟩

end Move

/-- `MOV tmp, [..]`. -/
theorem ran_loadMem (hisa : isa.Moves) (hlegal : ptr.Legal) (h : Held t.regMap (some tmp))
    (hrun : (Step.normal "MOV" [.id (.tmp tmp), .mem 64 segm ptr] false).run world offset t =
      some (text, t')) :
    Held t'.regMap (some tmp) ∧
      (Sim isa text t.regMap t'.regMap fun s s' => s' = s.set (.tmp tmp) (load64 s.env.mem
        (printedAt t.heap segm ptr (readReg (BitVec.ofNat 64 offset) s.regs)))) ∧
      (SegFree segm ptr → Executes isa text) := by
  obtain ⟨d, haddr, hheld, hsim, hexec⟩ := (memMove_load tmp 64 segm ptr).ran hlegal
    (fun d hd s => exec_load hisa rfl hd) h hrun
  refine ⟨hheld, hsim.mono fun s s' hs => ?_, hexec⟩
  rw [hs, haddr]

/-- `MOV [..], tmp`. -/
theorem ran_storeMem (hisa : isa.Moves) (hlegal : ptr.Legal) (h : Held t.regMap (some tmp))
    (hrun : (Step.normal "MOV" [.mem 64 segm ptr, .id (.tmp tmp)] false).run world offset t =
      some (text, t')) :
    Held t'.regMap (some tmp) ∧
      (Sim isa text t.regMap t'.regMap fun s s' => s' = s.setMem (store 8 s.env.mem
        (printedAt t.heap segm ptr (readReg (BitVec.ofNat 64 offset) s.regs))
          (s.regs (.tmp tmp)))) ∧
      (SegFree segm ptr → Executes isa text) := by
  obtain ⟨d, haddr, hheld, hsim, hexec⟩ := (memMove_store tmp 64 segm ptr).ran hlegal
    (fun d hd s => exec_store hisa hd rfl) h hrun
  refine ⟨hheld, hsim.mono fun s s' hs => ?_, hexec⟩
  rw [hs, haddr]

end Memory

theorem operandAddress_same {segm : Option Seg} {ptr : Addr} (hlegal : ptr.Legal) {s s' : State}
    (h : s.Same s') (ip : BitVec 64) :
    operandAddress segm ptr (readReg ip s'.regs) = operandAddress segm ptr (readReg ip s.regs) :=
  operandAddress_congr hlegal.toDecoded fun _ hr => readReg_same h fun tmp => hlegal.not_tmp hr tmp

theorem printedAt_same {heap : Heap} {segm : Option Seg} {ptr : Addr} (hlegal : ptr.Legal)
    {s s' : State} (h : s.Same s') (ip : BitVec 64) :
    printedAt heap segm ptr (readReg ip s'.regs) = printedAt heap segm ptr (readReg ip s.regs) :=
  printedAddress_congr fun _ hr => readReg_same h fun tmp => hlegal.not_tmp hr tmp

section Handlers

variable {t t' : TransState} {text : List Asm} {segm : Option Seg} {ptr : Addr}

/-- What PUSH of a memory operand does. -/
theorem sim_pushMem (hisa : isa.Moves) (hlegal : ptr.Legal) (h : Start t stale)
    (hrun : runSteps world offset (processPush (.mem 64 segm ptr)) t = some (text, t')) :
    (Sim isa text t.regMap t'.regMap fun s s' => (s.push (load64 s.env.mem (printedAt t.heap segm ptr
      (readReg (BitVec.ofNat 64 offset) (s.moveSp (-8)).regs)))).Same s') ∧
      (SegFree segm ptr → Executes isa text) := by
  obtain ⟨text₁, t₁, _, hmove, hrest₁, rfl⟩ := runSteps_cons hrun
  obtain ⟨text₂, t₂, _, hresolve, hrest₂, rfl⟩ := runSteps_cons hrest₁
  obtain ⟨text₃, t₃, _, hload, hrest₃, rfl⟩ := runSteps_cons hrest₂
  obtain ⟨text₄, t₄, text₅, hstore, hrest₄, rfl⟩ := runSteps_cons hrest₃
  have hrelease := runSteps_singleton hrest₄
  obtain ⟨held₁, heap₁, exec₁, sim₁⟩ := ran_moveStack hisa .push h.held h.heap hmove
  obtain ⟨exec₂, sim₂⟩ := held₁.sim_resolve hresolve
  have held₂ := held₁.resolve hresolve
  obtain ⟨held₃, sim₃, exec₃⟩ := ran_loadMem hisa hlegal held₂ hload
  obtain ⟨held₄, -, exec₄, sim₄⟩ := ran_storeTop hisa rfl (onlyHeld_tmp .t1) held₃ hstore
  obtain ⟨exec₅, sim₅⟩ := held₄.sim_releaseTmp hrelease
  have hheap : t₂.heap = t.heap := (Step.run_heap hresolve).trans heap₁
  rw [hheap] at sim₃
  refine ⟨(sim₁.append (sim₂.append (sim₃.append (sim₄.append sim₅)))).mono ?_, fun hfree =>
    total_append exec₁ (total_append exec₂ (total_append (exec₃ hfree) (total_append exec₄ exec₅)))⟩
  rintro s s₅ ⟨s₁, rfl, s₂, hs₂, s₃, rfl, s₄, rfl, hs₅⟩
  rw [State.set_regs, hs₂.env, printedAt_same hlegal hs₂] at hs₅
  exact ((hs₂.trans (s₂.same_setTmp .t1 _)).setTop _).trans hs₅

/-- Behind the store of POP the constants are as they are behind its operand. -/
theorem popMem_heap {t₁ t₂ t₃ : TransState} {text₁ text₂ text₃ : List Asm} (hlegal : ptr.Legal)
    (h : Start t stale) (hresolve : (Step.resolve .t1).run world offset t = some (text₁, t₁))
    (hload : (Step.normal "MOV" [.id (.tmp .t1), .dict (makeMemDict 64 rsp 0)] false).run world offset
      t₁ = some (text₂, t₂))
    (hstore : (Step.normal "MOV" [.mem 64 segm ptr, .id (.tmp .t1)] false).run world offset t₂ =
      some (text₃, t₃)) : t₃.heap.Matches ((Expr.mem 64 segm ptr).spoil stale) := by
  have hdec : (Expr.mem 64 segm ptr).Decoded := hlegal.toDecoded
  have hsame : t₂.heap = t.heap := (Step.run_heap hload).trans (Step.run_heap hresolve)
  rw [Step.run_heap hstore, hsame]
  exact h.heap.argPurify hdec

/-- What POP to a memory operand does. -/
theorem sim_popMem (hisa : isa.Moves) (hlegal : ptr.Legal) (h : Start t stale)
    (hrun : runSteps world offset (processPop (.mem 64 segm ptr)) t = some (text, t')) :
    (Sim isa text t.regMap t'.regMap fun s s' =>
      ((s.setMem (store 8 s.env.mem (printedAt t.heap segm ptr
        (readReg (BitVec.ofNat 64 offset) s.regs)) (load64 s.env.mem s.sp))).moveSp 8).Same s') ∧
      (SegFree segm ptr → Executes isa text) := by
  obtain ⟨text₁, t₁, _, hresolve, hrest₁, rfl⟩ := runSteps_cons hrun
  obtain ⟨text₂, t₂, _, hload, hrest₂, rfl⟩ := runSteps_cons hrest₁
  obtain ⟨text₃, t₃, _, hstore, hrest₃, rfl⟩ := runSteps_cons hrest₂
  obtain ⟨text₄, t₄, text₅, hrelease, hrest₄, rfl⟩ := runSteps_cons hrest₃
  have hmove := runSteps_singleton hrest₄
  have held₁ := h.held.resolve hresolve
  obtain ⟨exec₁, sim₁⟩ := h.held.sim_resolve hresolve
  obtain ⟨held₂, heap₂, exec₂, sim₂⟩ := ran_loadTop hisa rfl (onlyHeld_tmp .t1) held₁ hload
  obtain ⟨held₃, sim₃, exec₃⟩ := ran_storeMem hisa hlegal held₂ hstore
  obtain ⟨exec₄, sim₄⟩ := held₃.sim_releaseTmp hrelease
  have hheap : t₂.heap = t.heap := heap₂.trans (Step.run_heap hresolve)
  have hheap₄ : t₄.heap.Matches ((Expr.mem 64 segm ptr).spoil stale) := by
    have hreleased : t₄.heap = t₃.heap := Step.run_heap hrelease
    rw [hreleased]
    exact popMem_heap hlegal h hresolve hload hstore
  have held₄ : Held t₄.regMap none := by
    cases hrelease
    exact held₃.releaseTmp
  obtain ⟨-, -, exec₅, sim₅⟩ := ran_moveStack hisa .pop held₄ hheap₄ hmove
  rw [hheap] at sim₃
  refine ⟨(sim₁.append (sim₂.append (sim₃.append (sim₄.append sim₅)))).mono ?_, fun hfree =>
    total_append exec₁ (total_append exec₂ (total_append (exec₃ hfree) (total_append exec₄ exec₅)))⟩
  rintro s s₅ ⟨s₁, hs₁, s₂, rfl, s₃, rfl, s₄, hs₄, rfl⟩
  have hsame := hs₁.trans (s₁.same_setTmp .t1 (load64 s₁.env.mem s₁.sp))
  have hvalue : load64 s₁.env.mem s₁.sp = load64 s.env.mem s.sp := by
    rw [hs₁.env, State.sp, State.sp, hs₁.gpr]
  rw [State.set_regs, printedAt_same hlegal hsame, hsame.env, hvalue] at hs₄
  exact ((hvalue ▸ hsame).setMem _ |>.trans hs₄).moveSp 8

theorem processPush_gpr (g : Gpr) : processPush (.id (.gpr g .q)) =
    [.moveStack (-8), .normal "MOV" [.dict (makeMemDict 64 rsp 0), .id (.gpr g .q)] false] := by
  simp [processPush, Expr.size, ExprId.size, Width.bits, im64Abs]

theorem processPop_gpr (g : Gpr) : processPop (.id (.gpr g .q)) =
    [.normal "MOV" [.id (.gpr g .q), .dict (makeMemDict 64 rsp 0)] false, .moveStack 8] := by
  simp [processPop, Expr.size, ExprId.size, Width.bits]

theorem processPush_int (n : ExprInt) :
    processPush (.int n) = [.moveStack (-(n.size / 8 : Nat)), .pushInt n] := rfl

theorem pushInt_call (n : ExprInt) (world : World) (offset : Nat) (heap : Heap) :
    ∃ k, (Step.pushInt n).call world offset heap =
      some ⟨"MOV", [.mem ⟨32, [rsp], none, none⟩, .int ⟨k, 32⟩], false⟩ := by
  have hname : "MOV" ++ im64Abs (.int (pushedInt n heap)) = "MOV" := by simp [im64Abs, pushedInt]
  refine ⟨world.make (pushedInt n heap) heap (pushedInt n heap), ?_⟩
  rw [Step.call, hname]
  rfl

/-- What PUSH of a register does. -/
theorem sim_pushReg (hisa : isa.Moves) {g : Gpr} (h : Start t stale)
    (hrun : runSteps world offset (processPush (.id (.gpr g .q))) t = some (text, t')) :
    (Sim isa text t.regMap t'.regMap fun s s' =>
      (s.push ((s.moveSp (-8)).regs (.gpr g))).Same s') ∧ Executes isa text := by
  rw [processPush_gpr] at hrun
  obtain ⟨text₁, t₁, text₂, hmove, hrest, rfl⟩ := runSteps_cons hrun
  have hstore := runSteps_singleton hrest
  obtain ⟨held₁, -, exec₁, sim₁⟩ := ran_moveStack hisa .push h.held h.heap hmove
  obtain ⟨-, -, exec₂, sim₂⟩ := ran_storeTop hisa rfl (onlyHeld_gpr none g .q) held₁ hstore
  refine ⟨(sim₁.append sim₂).mono ?_, total_append exec₁ exec₂⟩
  rintro s s₂ ⟨s₁, rfl, rfl⟩
  exact State.Same.refl _

/-- What POP to a register does. -/
theorem sim_popReg (hisa : isa.Moves) {g : Gpr} (h : Start t stale)
    (hrun : runSteps world offset (processPop (.id (.gpr g .q))) t = some (text, t')) :
    (Sim isa text t.regMap t'.regMap fun s s' =>
      ((s.set (.gpr g) (load64 s.env.mem s.sp)).moveSp 8).Same s') ∧ Executes isa text := by
  rw [processPop_gpr] at hrun
  obtain ⟨text₁, t₁, text₂, hload, hrest, rfl⟩ := runSteps_cons hrun
  have hmove := runSteps_singleton hrest
  obtain ⟨held₁, heap₁, exec₁, sim₁⟩ := ran_loadTop hisa rfl (onlyHeld_gpr none g .q) h.held hload
  obtain ⟨-, -, exec₂, sim₂⟩ := ran_moveStack hisa .pop held₁ (heap₁ ▸ h.heap) hmove
  refine ⟨(sim₁.append sim₂).mono ?_, total_append exec₁ exec₂⟩
  rintro s s₂ ⟨s₁, rfl, rfl⟩
  exact State.Same.refl _

/-- What PUSH of a constant does: four bytes are stored, whatever RSP is moved by. -/
theorem sim_pushInt (hisa : isa.Moves) {bytes : Int} {b : BitVec 64} (hbytes : StackMove bytes b)
    {n : ExprInt} (hprocess : processPush (.int n) = [.moveStack bytes, .pushInt n])
    (h : Start t stale) (hrun : runSteps world offset (processPush (.int n)) t = some (text, t')) :
    ∃ k, Sim isa text t.regMap t'.regMap fun s s' =>
      ((s.moveSp b).setMem (store 4 s.env.mem (s.sp + b) (BitVec.ofNat 64 k))).Same s' := by
  rw [hprocess] at hrun
  obtain ⟨text₁, t₁, text₂, hmove, hrest, rfl⟩ := runSteps_cons hrun
  have hpush := runSteps_singleton hrest
  obtain ⟨held₁, -, -, sim₁⟩ := ran_moveStack hisa hbytes h.held h.heap hmove
  obtain ⟨k, hcall⟩ := pushInt_call n world offset t₁.heap
  have hconflict := @conflictRegs_of_rsp [.mem ⟨32, [rsp], none, none⟩, .int ⟨k, 32⟩]
    (by simp [extractReg])
  have hinst : ∀ s, execInst isa (BitVec.ofNat 64 offset) "MOV"
      [.mem ⟨32, [rsp], none, none⟩, .int ⟨k, 32⟩] s =
        some (s.setMem (store 4 s.env.mem s.sp (BitVec.ofNat 64 k))) := by
    intro s
    rw [exec_storeInt hisa rfl, address_top]
  obtain ⟨-, sim₂, -⟩ := held₁.ran_call hcall (fun v hv ht => by
    rw [hconflict v hv] at ht
    cases ht) hinst hpush
  refine ⟨k, (sim₁.append sim₂).mono ?_⟩
  rintro s s₂ ⟨s₁, rfl, rfl⟩
  rw [State.moveSp_sp]
  exact State.Same.refl _

end Handlers

section Compare

variable {t t' : TransState} {text : List Asm} {segm : Option Seg} {ptr : Addr}

/-- Two pushed values that differ in their first byte. -/
theorem byte_of_push {s : State} {value value' : BitVec 64}
    (h : (s.push value).SameStack (s.push value')) : byte value' 0 = byte value 0 :=
  byte_zero_of_store_eq (by decide) h.mem

/-- A state with the given registers and memory. -/
def stateOf (regs : Regs) (mem : BitVec 64 → BitVec 8) : State :=
  ⟨regs, ⟨fun _ => false, mem, fun _ => 0⟩⟩

theorem load64_same {s s' : State} (h : s.Same s') :
    load64 s'.env.mem s'.sp = load64 s.env.mem s.sp := by
  rw [h.env, State.sp, State.sp, h.gpr]

/-- The instruction does not see temporaries. -/
theorem StackOp.respects {op : StackOp} {arg : Expr} (hlegal : op.Legal arg) (ip : BitVec 64) :
    Respects (op.exec ip arg) := by
  intro s s' hs
  cases op with
  | push =>
      have hvalue : s'.value ip arg = s.value ip arg := by
        cases arg with
        | id r =>
            cases r with
            | gpr g width => exact congrArg width.get (hs.gpr g)
            | _ => cases hlegal
        | mem size segm ptr =>
            rw [State.value, State.value, operandAddress_same hlegal.2 hs, hs.env]
        | _ => rfl
      rw [StackOp.exec, StackOp.exec, hvalue]
      exact hs.push _
  | pop =>
      rw [StackOp.exec, StackOp.exec, State.pop, State.pop, load64_same hs]
      cases arg with
      | id r =>
          cases r with
          | gpr g width =>
              cases width with
              | q => exact (hs.moveSp 8).set _ _
              | _ => cases hlegal
          | _ => cases hlegal
      | mem size segm ptr =>
          rw [State.write, State.write, operandAddress_same hlegal.2 (hs.moveSp 8), (hs.moveSp 8).env]
          exact (hs.moveSp 8).setMem _
      | _ => cases hlegal

theorem doesIff_pushReg (hisa : isa.Moves) {g : Gpr} (h : Start t stale)
    (hrun : runSteps world offset (processPush (.id (.gpr g .q))) t = some (text, t')) :
    DoesIff isa text t.regMap t'.regMap (StackOp.push.exec (BitVec.ofNat 64 offset) (.id (.gpr g .q)))
      (ExprId.gpr g .q ≠ rsp) := by
  obtain ⟨hsim, hexec⟩ := sim_pushReg hisa h hrun
  have hlegal : StackOp.push.Legal (.id (.gpr g .q)) := trivial
  refine doesIff_of_sim h.held.map.inj hsim (StackOp.respects hlegal _) ?_ ?_ ?_
  · intro s s' hs
    dsimp only
    rw [(hs.moveSp (-8)).gpr]
    exact hs.push _
  · refine fun hne => ⟨hexec, fun s => ?_⟩
    have hg : Family.gpr g ≠ .gpr .rsp := by
      rintro ⟨⟩
      exact hne rfl
    have hregs : (s.moveSp (-8)).regs (.gpr g) = s.regs (.gpr g) := Function.update_of_ne hg _ _
    rw [StackOp.exec, State.value_gpr, hregs]
    exact State.Same.refl _
  · intro _ hall heq
    cases heq
    have hbyte := byte_of_push (hall (stateOf (fun _ => 0x1000) fun _ => 0))
    rw [State.value_gpr] at hbyte
    exact absurd hbyte (by decide)

theorem doesIff_popReg (hisa : isa.Moves) {g : Gpr} (h : Start t stale)
    (hrun : runSteps world offset (processPop (.id (.gpr g .q))) t = some (text, t')) :
    DoesIff isa text t.regMap t'.regMap (StackOp.pop.exec (BitVec.ofNat 64 offset) (.id (.gpr g .q)))
      (ExprId.gpr g .q ≠ rsp) := by
  obtain ⟨hsim, hexec⟩ := sim_popReg hisa h hrun
  have hpop : ∀ s, StackOp.pop.exec (BitVec.ofNat 64 offset) (.id (.gpr g .q)) s =
      (s.moveSp 8).set (.gpr g) (load64 s.env.mem s.sp) := fun s => rfl
  have hlegal : StackOp.pop.Legal (.id (.gpr g .q)) := trivial
  refine doesIff_of_sim h.held.map.inj hsim (StackOp.respects hlegal _) ?_ ?_ ?_
  · intro s s' hs
    dsimp only
    rw [load64_same hs]
    exact (hs.set _ _).moveSp 8
  · refine fun hne => ⟨hexec, fun s => ?_⟩
    have hg : Family.gpr g ≠ .gpr .rsp := by
      rintro ⟨⟩
      exact hne rfl
    rw [hpop, State.moveSp_set hg]
    exact State.Same.refl _
  · intro _ hall heq
    cases heq
    have hsp := (hall (stateOf (fun _ => 0) fun _ => 0)).sp
    have hset : ∀ (s : State) value, (s.set (.gpr .rsp) value).sp = value := fun s => s.set_regs _
    rw [hpop, State.moveSp_sp, hset, hset] at hsp
    exact absurd (add_left_cancel (hsp.trans (add_zero _).symm)) (by decide)

theorem not_continues_pushInt (hisa : isa.Moves) {n : ExprInt} (hn : n.size = 64) (h : Start t stale)
    (hrun : runSteps world offset (processPush (.int n)) t = some (text, t')) :
    DoesIff isa text t.regMap t'.regMap (StackOp.push.exec (BitVec.ofNat 64 offset) (.int n)) False := by
  obtain ⟨k, hsim⟩ := sim_pushInt hisa .push (by rw [processPush_int, hn]; rfl) h hrun
  have hlegal : StackOp.push.Legal (.int n) := hn
  refine doesIff_of_sim h.held.map.inj hsim (StackOp.respects hlegal _) ?_ False.elim ?_
  · intro s s' hs
    dsimp only
    rw [hs.env, State.sp, State.sp, hs.gpr]
    exact (hs.moveSp (-8)).setMem _
  · -- the fifth byte of the slot is the old one
    intro _ hall
    obtain ⟨s, hs⟩ : ∃ s : State, s.env.mem = fun _ => byte (BitVec.ofNat 64 n.arg) 4 + 1 :=
      ⟨stateOf (fun _ => 0) _, rfl⟩
    have hmem : store 4 s.env.mem (s.sp + -8) (BitVec.ofNat 64 k) =
        (s.push (BitVec.ofNat 64 n.arg)).env.mem := (hall s).mem
    rw [State.push_mem, hs] at hmem
    exact store_narrow_ne (by decide) (by decide) _ _ _ hmem

theorem doesIff_pushMem (hisa : isa.Moves) (hlegal : ptr.Legal) (h : Start t stale)
    (hrun : runSteps world offset (processPush (.mem 64 segm ptr)) t = some (text, t')) :
    DoesIff isa text t.regMap t'.regMap
      (StackOp.push.exec (BitVec.ofNat 64 offset) (.mem 64 segm ptr))
      (Executes isa text ∧ Virt.sp ∉ memVirts segm ptr ∧ (Expr.mem 64 segm ptr).Intact t.heap) := by
  obtain ⟨hsim, -⟩ := sim_pushMem hisa hlegal h hrun
  have hmem : StackOp.push.Legal (.mem 64 segm ptr) := And.intro rfl hlegal
  rw [← @printedAt_moveSp_iff (BitVec.ofNat 64 offset) _ _ _ _ hlegal h.heap]
  refine doesIff_of_sim h.held.map.inj hsim (StackOp.respects hmem _) ?_ ?_ ?_
  · intro s s' hs
    dsimp only
    rw [printedAt_same hlegal (hs.moveSp (-8)), hs.env]
    exact hs.push _
  · rintro ⟨hexec, hall⟩
    refine ⟨hexec, fun s => ?_⟩
    rw [StackOp.exec, State.value, ← hall]
    exact State.Same.refl _
  · intro hexec hall
    refine ⟨hexec, fun regs => ?_⟩
    let a := printedAt t.heap segm ptr (readReg (BitVec.ofNat 64 offset) (moveSp regs (-8)))
    have hbyte := byte_of_push (hall (stateOf regs (point a)))
    exact eq_of_byte_point hbyte

theorem doesIff_popMem (hisa : isa.Moves) (hlegal : ptr.Legal) (h : Start t stale)
    (hrun : runSteps world offset (processPop (.mem 64 segm ptr)) t = some (text, t')) :
    DoesIff isa text t.regMap t'.regMap
      (StackOp.pop.exec (BitVec.ofNat 64 offset) (.mem 64 segm ptr))
      (Executes isa text ∧ Virt.sp ∉ memVirts segm ptr ∧ (Expr.mem 64 segm ptr).Intact t.heap) := by
  obtain ⟨hsim, -⟩ := sim_popMem hisa hlegal h hrun
  have hlegal' : StackOp.pop.Legal (.mem 64 segm ptr) := And.intro rfl hlegal
  have hpop : ∀ s : State, StackOp.pop.exec (BitVec.ofNat 64 offset) (.mem 64 segm ptr) s =
      (s.moveSp 8).setMem (store 8 s.env.mem (operandAddress segm ptr
        (readReg (BitVec.ofNat 64 offset) (s.moveSp 8).regs)) (load64 s.env.mem s.sp)) := fun s => rfl
  have hback : ∀ regs : Regs, moveSp (moveSp regs (-8)) 8 = regs ∧ moveSp (moveSp regs 8) (-8) = regs := by
    intro regs
    simp only [moveSp, Function.update_self, Function.update_idem, neg_add_cancel_right,
      add_neg_cancel_right, Function.update_eq_self, and_self]
  rw [← @printedAt_moveSp_iff (BitVec.ofNat 64 offset) _ _ _ _ hlegal h.heap]
  refine doesIff_of_sim h.held.map.inj hsim (StackOp.respects hlegal' _) ?_ ?_ ?_
  · intro s s' hs
    dsimp only
    rw [printedAt_same hlegal hs, load64_same hs, hs.env]
    exact (hs.setMem _).moveSp 8
  · rintro ⟨hexec, hall⟩
    refine ⟨hexec, fun s => ?_⟩
    have haddr := hall (s.moveSp 8).regs
    rw [State.moveSp_regs, (hback s.regs).2] at haddr
    rw [hpop, State.moveSp_regs, ← haddr]
    exact State.Same.refl _
  · intro hexec hall
    refine ⟨hexec, fun regs => ?_⟩
    let p := moveSp regs (-8) (.gpr .rsp)
    have hmem := (hall (stateOf (moveSp regs (-8)) (point p))).mem
    have hone : load64 (point p) p = 1 := load64_point (by decide) p
    have hstore : store 8 (point p) (printedAt t.heap segm ptr
          (readReg (BitVec.ofNat 64 offset) (moveSp regs (-8)))) (load64 (point p) p) =
        store 8 (point p) (operandAddress segm ptr (readReg (BitVec.ofNat 64 offset)
          (moveSp (moveSp regs (-8)) 8))) (load64 (point p) p) := hmem
    rw [hone, (hback regs).1] at hstore
    exact store_one_injective hstore

/-- What an operand must be, apart from the placing of RIP. -/
def Expr.StackShape (heap : Heap) : Expr → Prop
  | .id r => r ≠ rsp
  | .mem size segm ptr => Virt.sp ∉ memVirts segm ptr ∧ (Expr.mem size segm ptr).Intact heap
  | _ => False

theorem Expr.Legal64.cases {arg : Expr} (h : arg.Legal64) :
    (∃ g, arg = .id (.gpr g .q)) ∨ ∃ segm ptr, arg = .mem 64 segm ptr ∧ ptr.Legal := by
  cases arg with
  | id r =>
      cases r with
      | gpr g width => cases width <;> first | exact Or.inl ⟨g, rfl⟩ | cases h
      | _ => cases h
  | mem size segm ptr =>
      obtain ⟨rfl, hptr⟩ := h
      exact Or.inr ⟨segm, ptr, rfl, hptr⟩
  | _ => cases h

theorem StackOp.Legal.cases {op : StackOp} {arg : Expr} (h : op.Legal arg) :
    arg.Legal64 ∨ op = .push ∧ ∃ n, arg = .int n ∧ n.size = 64 := by
  cases op with
  | push =>
      cases arg with
      | int n => exact Or.inr ⟨rfl, n, rfl, h⟩
      | _ => exact Or.inl h
  | pop => cases arg <;> exact Or.inl h

/-- The handlers, on one run of the translator. -/
theorem StackOp.doesIff (hisa : isa.Moves) (h : Start t stale) {op : StackOp} {arg : Expr}
    (hlegal : op.Legal arg) (hrun : runSteps world offset (op.process arg) t = some (text, t')) :
    DoesIff isa text t.regMap t'.regMap (op.exec (BitVec.ofNat 64 offset) arg)
      (Executes isa text ∧ arg.StackShape t.heap) := by
  rcases hlegal.cases with h64 | ⟨rfl, n, rfl, hn⟩
  · rcases h64.cases with ⟨g, rfl⟩ | ⟨segm, ptr, rfl, hptr⟩
    · cases op with
      | push =>
          have hiff := doesIff_pushReg hisa h hrun
          exact ⟨fun hc => hiff.sound hc.2, fun hc => ⟨(hiff.sound (hiff.exact hc)).1, hiff.exact hc⟩⟩
      | pop =>
          have hiff := doesIff_popReg hisa h hrun
          exact ⟨fun hc => hiff.sound hc.2, fun hc => ⟨(hiff.sound (hiff.exact hc)).1, hiff.exact hc⟩⟩
    · cases op with
      | push => exact doesIff_pushMem hisa hptr h hrun
      | pop => exact doesIff_popMem hisa hptr h hrun
  · have hiff := not_continues_pushInt hisa hn h hrun
    exact ⟨fun hc => hc.2.elim, fun hc => (hiff.exact hc).elim⟩

theorem StackOp.executes (hisa : isa.Moves) (h : Start t stale) {op : StackOp} {arg : Expr}
    (hlegal : op.Legal arg) (hsafe : arg.StackSafe t.heap)
    (hrun : runSteps world offset (op.process arg) t = some (text, t')) : Executes isa text := by
  rcases hlegal.cases with h64 | ⟨rfl, n, rfl, -⟩
  · rcases h64.cases with ⟨g, rfl⟩ | ⟨segm, ptr, rfl, hptr⟩
    · cases op with
      | push => exact (sim_pushReg hisa h hrun).2
      | pop => exact (sim_popReg hisa h hrun).2
    · cases op with
      | push => exact (sim_pushMem hisa hptr h hrun).2 hsafe.2.1
      | pop => exact (sim_popMem hisa hptr h hrun).2 hsafe.2.1
  · cases hsafe

theorem Expr.StackSafe.shape {heap : Heap} {arg : Expr} (h : arg.StackSafe heap) :
    arg.StackShape heap := by
  cases arg with
  | mem size segm ptr => exact ⟨h.1, h.2.2⟩
  | _ => exact h

/-- In every pop order, and wherever translation succeeds, the handler's text does what the
instruction does. -/
def StackOp.Correct (isa : Isa) (resave : Bool) (offset : Nat) (op : StackOp) (arg : Expr)
    (t : TransState) : Prop :=
  ∀ order text t', runSteps ⟨order, resave⟩ offset (op.process arg) t = some (text, t') →
    Implements isa text t.regMap t'.regMap (op.exec (BitVec.ofNat 64 offset) arg)

end Compare

end UserspaceBypass
