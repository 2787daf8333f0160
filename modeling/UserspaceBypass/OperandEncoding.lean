import UserspaceBypass.LineStart

/-! Which operands the assembler can encode. A memory operand has room for a base and an index, and
the translator makes a segment override one more register and an odd scale two. A REX prefix selects
R8 to R15 and takes AH, BH, CH and DH away, and RSP, RBP, RIP and the segment bases become one of R12
to R15. -/

namespace UserspaceBypass

variable {world : World} {offset : Nat}

/-- A base and an index with its scale; an unscaled register may be the index. -/
def MemDict.Assembles (d : MemDict) : Prop :=
  match d.mul with
  | none => d.regs.length ≤ 2
  | some (scale, _) => d.regs.length ≤ 1 ∧ scale.arg ∈ [1, 2, 4, 8]

instance (d : MemDict) : Decidable d.Assembles := by
  unfold MemDict.Assembles
  split <;> infer_instance

/-- R8 to R15. -/
def ExprId.extended : ExprId → Bool
  | .gpr g _ => g ∈ [Gpr.r8, .r9, .r10, .r11, .r12, .r13, .r14, .r15]
  | _ => false

def Arg.isHigh : Arg → Bool
  | .reg (.high _) => true
  | _ => false

def Arg.Assembles : Arg → Prop
  | .mem d => d.Assembles
  | _ => True

instance (a : Arg) : Decidable a.Assembles := by
  cases a <;> unfold Arg.Assembles <;> infer_instance

/-- A line of the text that has an encoding, as far as its registers go. -/
def Asm.Assembles : Asm → Prop
  | .inst _ args => (∀ a ∈ args, a.Assembles) ∧
      ((∃ a ∈ args, a.isHigh) → ∀ a ∈ args, ∀ r ∈ extractReg a, r.extended = false)
  | _ => True

instance (a : Asm) : Decidable a.Assembles := by
  cases a <;> unfold Asm.Assembles <;> infer_instance

/-- What ModRM and SIB encode, with equal registers added up by the disassembler: the scale is one
more than a power of two where the index is the base as well. -/
structure Addr.Encoded (a : Addr) : Prop extends a.Legal where
  count : a.bases.length + a.indices.length ≤ 2
  scale : ∀ t ∈ a.terms.filterMap Addr.scaled,
    t.1.arg ∈ [2, 4, 8] ∨ t.1.arg ∈ [3, 5, 9] ∧ a.bases = []

/-- An argument of the disassembler, of a size in `sz2pfx` if it is in memory. -/
def Expr.Legal : Expr → Prop
  | .mem size _ ptr => size ∈ sz2pfx ∧ ptr.Encoded
  | .dict _ => False
  | _ => True

/-- An instruction of x86-64. Only one of its operands is encoded by ModRM and SIB; AH, BH, CH and DH
exclude R8 to R15, and are not pushed or popped. -/
structure Line.Legal (line : Line) : Prop extends line.Decoded where
  args : ∀ e ∈ line.args, e.Legal
  oneScale : (line.args.filterMap Expr.scale).length ≤ 1
  high : ∀ h, .id (.high h) ∈ line.args → ∀ e ∈ line.args, ∀ r ∈ e.regs, r.extended = false
  stack : line.name ∈ ["PUSH", "POP"] → ∀ h, .id (.high h) ∉ line.args

/-- A memory operand with a segment override has one register at most, and its scale is found
even. -/
def Expr.Fits (heap : Heap) : Expr → Prop
  | .mem size (some s) ptr => ptr.bases.length + ptr.indices.length ≤ 1 ∧
      ∀ n ∈ (Expr.mem size (some s) ptr).scale, heap n % 2 = 0
  | _ => True

/-- The arguments of a line that reach an operand of the text. -/
def Line.shown (line : Line) : List Expr :=
  if line.name ∈ specialInstruction then
    if getInstName line ∈ ["CALL", "PUSH", "POP"] then line.args.take 1 else []
  else if line.name ∈ conditionalBranch ∨ line.name ∈ unconditionalBranch then line.args.take 1
  else line.args

/-- The constants as the operands of a line find them: a CALL makes its return address first. -/
def Line.shownHeap (world : World) (offset : Nat) (line : Line) (heap : Heap) : Heap :=
  if getInstName line = "CALL" then world.make ⟨offset, 64⟩ heap else heap

/-- The condition under which all operands of a line can be encoded. -/
structure Line.Fits (world : World) (offset : Nat) (heap : Heap) (line : Line) : Prop where
  mem : ∀ e ∈ line.shown, e.Fits (line.shownHeap world offset heap)
  high : (∃ h, .id (.high h) ∈ line.shown) → ∀ e ∈ line.shown, ∀ r ∈ e.regs, r.virt = none

section Call

variable {m : RegMap}

theorem extended_applyMapReg {r r' : ExprId} (h : applyMapReg m r = some r') :
    r'.extended = false ↔ r.virt = none ∧ r.extended = false := by
  cases hv : r.virt with
  | none =>
      rw [applyMapReg_plain hv] at h
      cases h
      simp
  | some v =>
      obtain ⟨p, -, rfl⟩ := applyMapReg_resident hv h
      cases p <;> simp [Phys.reg, Phys.gpr, ExprId.extended]

theorem assembles_applyMapMem {d d' : MemDict} (h : applyMapMem m d = some d') :
    d'.Assembles ↔ d.Assembles := by
  obtain ⟨-, -, hregs, hmul⟩ := applyMapMem_some h
  have hlen := MapM.length_eq hregs
  rcases hmul with ⟨hnone, hnone'⟩ | ⟨scale, r, r', hsome, hsome', -⟩
  · simp only [MemDict.Assembles, hnone, hnone', hlen]
  · simp only [MemDict.Assembles, hsome, hsome', hlen]

theorem assembles_applyMapArg {a a' : Arg} (h : applyMapArg m a = some a') :
    a'.Assembles ↔ a.Assembles := by
  cases a with
  | mem d =>
      obtain ⟨d', hd, rfl⟩ := Option.map_eq_some_iff.mp h
      exact assembles_applyMapMem hd
  | reg r =>
      obtain ⟨r', -, rfl⟩ := Option.map_eq_some_iff.mp h
      exact Iff.rfl
  | _ =>
      cases h
      exact Iff.rfl

theorem isHigh_applyMapArg {a a' : Arg} (h : applyMapArg m a = some a') :
    a'.isHigh = a.isHigh := by
  cases a with
  | mem d =>
      obtain ⟨d', hd, rfl⟩ := Option.map_eq_some_iff.mp h
      rfl
  | reg r =>
      obtain ⟨r', hr, rfl⟩ := Option.map_eq_some_iff.mp h
      cases hv : r.virt with
      | none =>
          rw [applyMapReg_plain hv] at hr
          cases hr
          rfl
      | some v =>
          obtain ⟨p, -, rfl⟩ := applyMapReg_resident hv hr
          cases r <;> first | rfl | cases hv
  | _ =>
      cases h
      rfl

theorem extended_applyMapArg {a a' : Arg} (h : applyMapArg m a = some a') :
    (∀ r ∈ extractReg a', r.extended = false) ↔
      ∀ r ∈ extractReg a, r.virt = none ∧ r.extended = false := by
  cases a with
  | mem d =>
      obtain ⟨d', hd, rfl⟩ := Option.map_eq_some_iff.mp h
      obtain ⟨-, -, hregs, hmul⟩ := applyMapMem_some hd
      have hall := MapM.forall_mem_iff hregs fun r r' => extended_applyMapReg
      simp only [extractReg, List.forall_mem_append, hall]
      rcases hmul with ⟨hnone, hnone'⟩ | ⟨scale, r, r', hsome, hsome', hr⟩
      · simp [hnone, hnone']
      · simp [hsome, hsome', extended_applyMapReg hr]
  | reg r =>
      obtain ⟨r', hr, rfl⟩ := Option.map_eq_some_iff.mp h
      simpa [extractReg] using extended_applyMapReg hr
  | _ =>
      cases h
      simp [extractReg]

/-- The condition on the operands of a call as they are printed, before they are renamed. -/
structure ArgsAssemble (args : List Arg) : Prop where
  mem : ∀ a ∈ args, a.Assembles
  high : (∃ a ∈ args, a.isHigh) → ∀ a ∈ args, ∀ r ∈ extractReg a, r.virt = none ∧ r.extended = false

theorem assembles_applyMap {args args' : List Arg} (h : applyMap m args = some args')
    (name : String) : (Asm.inst name args').Assembles ↔ ArgsAssemble args := by
  have hmem := MapM.forall_mem_iff h fun a a' => assembles_applyMapArg
  have hregs := MapM.forall_mem_iff h fun a a' => extended_applyMapArg
  have hnone := MapM.forall_mem_iff h (P := fun a => a.isHigh = false)
    fun a a' ha => by rw [isHigh_applyMapArg ha]
  have hhigh : (∃ a ∈ args', a.isHigh) ↔ ∃ a ∈ args, a.isHigh := by
    simpa using not_congr hnone
  rw [Asm.Assembles, hmem, hhigh, hregs]
  exact ⟨fun h => ⟨h.1, h.2⟩, fun h => ⟨h.mem, h.high⟩⟩

theorem Asm.assembles_of_isMove {a : Asm} (h : a.isMove = true) : a.Assembles := by
  cases a with
  | inst name args => cases h
  | _ => trivial

theorem forall_assembles_append {text text' : List Asm} (h : ∀ a ∈ text, a.Assembles) :
    (∀ a ∈ text ++ text', a.Assembles) ↔ ∀ a ∈ text', a.Assembles := by
  rw [List.forall_mem_append]
  exact and_iff_right h

/-- The moves around an instruction have no operands of their own. -/
theorem Stages.assembles_iff {name : String} {args : List Arg} {canCheck : Bool} {t t' : TransState}
    {text : List Asm} (st : Stages world name args offset canCheck t text t') :
    (∀ a ∈ text, a.Assembles) ↔ ArgsAssemble args := by
  rw [st.text_eq,
    forall_assembles_append fun a ha => Asm.assembles_of_isMove (resolveLoop_isMove st.resolve a ha),
    forall_assembles_append fun a ha => Asm.assembles_of_isMove (checkInst_isMove _ _ a ha),
    List.forall_mem_append, and_iff_left fun a ha =>
      Asm.assembles_of_isMove (recoverStable_isMove _ a ha)]
  rw [List.forall_mem_singleton]
  exact assembles_applyMap st.rename name

/-- The condition on a list of calls, each with the constants it finds. -/
def StepsAssemble (world : World) (offset : Nat) : List Step → Heap → Prop
  | [], _ => True
  | step :: steps, heap => (∀ call ∈ step.call world offset heap, ArgsAssemble call.args) ∧
      StepsAssemble world offset steps (step.heapAfter world offset heap)

theorem Step.assembles_iff {step : Step} {t t' : TransState} {text : List Asm}
    (hm : MapInv t.regMap) (hrun : step.run world offset t = some (text, t')) :
    (∀ a ∈ text, a.Assembles) ↔ ∀ call ∈ step.call world offset t.heap, ArgsAssemble call.args := by
  cases hcall : step.call world offset t.heap with
  | some call =>
      obtain ⟨heap, ⟨st⟩⟩ := Step.stages hcall hm hrun
      rw [st.assembles_iff]
      simp
  | none =>
      simp only [Option.mem_def, reduceCtorEq, false_implies, implies_true, iff_true]
      cases step with
      | resolve tmp =>
          obtain ⟨r, hres, heq⟩ := Option.map_eq_some_iff.mp hrun
          obtain ⟨rfl, -⟩ := Prod.mk.inj heq
          exact fun a ha => Asm.assembles_of_isMove (resolveLoop_isMove hres a ha)
      | release blockEnd =>
          cases hrun
          exact fun a ha => Asm.assembles_of_isMove (releaseConflict_isMove _ _ a ha)
      | jumpReg name r =>
          obtain ⟨target, -, heq⟩ := Option.map_eq_some_iff.mp hrun
          obtain ⟨rfl, -⟩ := Prod.mk.inj heq
          rw [List.append_assoc, forall_assembles_append fun a ha =>
            Asm.assembles_of_isMove (releaseConflict_isMove _ _ a ha)]
          split_ifs <;> simp [Asm.Assembles]
      | releaseTmp => cases hrun; simp
      | jumpLoc name address => cases hrun; simp [Asm.Assembles]
      | stub target => cases hrun; simp [Asm.Assembles]
      | nop => cases hrun; simp [Asm.Assembles]
      | raise => cases hrun
      | _ => cases hcall

theorem runSteps_assembles_iff {steps : List Step} {t t' : TransState} {text : List Asm}
    (hm : MapInv t.regMap) (hrun : runSteps world offset steps t = some (text, t')) :
    (∀ a ∈ text, a.Assembles) ↔ StepsAssemble world offset steps t.heap := by
  induction steps generalizing t text with
  | nil =>
      cases hrun
      simp [StepsAssemble]
  | cons step steps ih =>
      obtain ⟨text₁, t₁, text₂, hstep, hrest, rfl⟩ := runSteps_cons hrun
      have hheap := Step.run_heap hstep
      rw [List.forall_mem_append, Step.assembles_iff hm hstep, ih (Step.mapInv hm hstep) hrest, hheap]
      rfl

end Call

section Operands

variable {heap heap' : Heap} {stale stale' : Finset ExprInt}

theorem length_oddRegs (heap : Heap) (n : ExprInt) (r : ExprId) :
    (oddRegs heap (some (n, r))).length = heap n % 2 := by
  simp only [oddRegs]
  split <;> simp <;> omega

/-- The registers and the scale of a memory operand as it is printed. -/
theorem printed_shape {ptr : Addr} (hptr : ptr.Decoded) (size : Nat) (segm : Option Seg)
    (heap heap' : Heap) :
    ∃ d, Arg.printed heap' (argPurify (.mem size segm ptr) heap).1 = .mem d ∧
      d.regs.length = segm.toList.length + ptr.bases.length +
        (oddRegs heap (ptr.terms.filterMap Addr.scaled).head?).length ∧
      d.mul = (ptr.terms.filterMap Addr.scaled).head?.map fun t => (t.1.printed heap', t.2) := by
  obtain ⟨-, hmul, -, hregs⟩ :=
    foldl_memTerm hptr.shape ⟨(segm.map ExprId.seg).toList, none, none⟩ heap
  refine ⟨_, rfl, ?_, ?_⟩
  · have hseg : (segm.map ExprId.seg).toList.length = segm.toList.length := by
      cases segm <;> rfl
    simp only [memAddr_eq_foldl]
    rw [hregs.length_eq, List.length_append, List.length_append, hseg]
    rfl
  · simp only [memAddr_eq_foldl]
    rw [hmul]
    simp [firstScaled]

theorem Expr.fits_mem_iff {size : Nat} {segm : Option Seg} {ptr : Addr} :
    (Expr.mem size segm ptr).Fits heap ↔ segm = none ∨ ptr.bases.length + ptr.indices.length ≤ 1 ∧
      ∀ t ∈ (ptr.terms.filterMap Addr.scaled).head?, heap t.1 % 2 = 0 := by
  cases segm with
  | none => simp [Expr.Fits]
  | some s =>
      simp only [Expr.Fits, Expr.scale, reduceCtorEq, false_or]
      cases (ptr.terms.filterMap Addr.scaled).head? <;> simp

/-- What the odd scales of an operand print as when it reaches the text. -/
theorem Addr.Encoded.printed_scale {size : Nat} {segm : Option Seg} {ptr : Addr}
    (hptr : ptr.Encoded) {n : ExprInt} {r : ExprId}
    (hfirst : (ptr.terms.filterMap Addr.scaled).head? = some (n, r)) (h : heap.Matches stale)
    (h' : heap'.Matches stale') (hsub : (Expr.mem size segm ptr).spoil stale ⊆ stale') :
    heap' n ∈ [1, 2, 4, 8] ∧ (heap n % 2 = 1 → ptr.bases = []) := by
  have hmem : (n, r) ∈ ptr.terms.filterMap Addr.scaled := List.mem_of_mem_head? hfirst
  rcases hptr.scale _ hmem with heven | ⟨hodd, hbases⟩
  · have hparity : n.arg % 2 = 0 := by
      simp only [List.mem_cons, List.not_mem_nil, or_false] at heven
      omega
    have hfresh : ∀ {heap : Heap} {stale}, heap.Matches stale → heap n = n.arg :=
      fun hheap => hheap.same n fun hn => by
        have := hheap.odd n hn
        omega
    rw [hfresh h, hfresh h']
    exact ⟨List.mem_cons_of_mem _ heven, fun hone => absurd hone (by omega)⟩
  · have hparity : n.arg % 2 = 1 := by
      simp only [List.mem_cons, List.not_mem_nil, or_false] at hodd
      omega
    have hstale : n ∈ stale' := by
      refine hsub ?_
      simp only [Expr.spoil, Expr.scale, hfirst, Option.map_some, hparity, if_true]
      exact Finset.mem_insert_self n stale
    rw [h'.low n hstale]
    refine ⟨?_, fun _ => hbases⟩
    simp only [List.mem_cons, List.not_mem_nil, or_false] at hodd ⊢
    omega

theorem Expr.assembles_iff {size : Nat} {segm : Option Seg} {ptr : Addr} (hptr : ptr.Encoded)
    (h : heap.Matches stale) (h' : heap'.Matches stale')
    (hsub : (Expr.mem size segm ptr).spoil stale ⊆ stale') :
    (Arg.printed heap' (argPurify (.mem size segm ptr) heap).1).Assembles ↔
      (Expr.mem size segm ptr).Fits heap := by
  obtain ⟨d, hd, hlen, hmul⟩ := printed_shape hptr.toDecoded size segm heap heap'
  have hcount := hptr.count
  have hindices : ptr.indices.length = (ptr.terms.filterMap Addr.scaled).head?.toList.length := by
    rw [Addr.indices, List.length_map, ← eq_toList_head? hptr.oneScaled]
  rw [hd, Expr.fits_mem_iff]
  change d.Assembles ↔ _
  cases hfirst : (ptr.terms.filterMap Addr.scaled).head? with
  | none =>
      rw [hfirst] at hlen hmul hindices
      simp only [MemDict.Assembles, hmul, Option.map_none, hlen, oddRegs, List.length_nil]
      generalize ptr.bases.length = bases at *
      generalize ptr.indices.length = indices at *
      cases segm <;> simp at hindices ⊢ <;> omega
  | some t =>
      obtain ⟨n, r⟩ := t
      obtain ⟨hprinted, hodd⟩ := hptr.printed_scale hfirst h h' hsub
      rw [hfirst] at hlen hmul hindices
      rw [length_oddRegs] at hlen
      simp only [MemDict.Assembles, hmul, Option.map_some, hlen, ExprInt.printed, hprinted, and_true]
      have hbases : heap n % 2 = 1 → ptr.bases.length = 0 := fun hone => by rw [hodd hone]; rfl
      generalize ptr.bases.length = bases at *
      generalize ptr.indices.length = indices at *
      cases segm <;> simp at hindices ⊢ <;> omega

/-- An operand of a legal instruction, or one the translator makes. -/
def Expr.Regular : Expr → Prop
  | .mem _ _ ptr => ptr.Encoded
  | .dict d => d.regs.length ≤ 2 ∧ d.mul = none
  | _ => True

theorem Expr.Regular.decoded {e : Expr} (h : e.Regular) : e.Decoded := by
  cases e with
  | mem size segm ptr => exact h.toDecoded
  | _ => trivial

theorem Expr.Regular.assembles_iff {e : Expr} (he : e.Regular) (h : heap.Matches stale)
    (h' : heap'.Matches stale') (hsub : e.spoil stale ⊆ stale') :
    (Arg.printed heap' (argPurify e heap).1).Assembles ↔ e.Fits heap := by
  cases e with
  | mem size segm ptr => exact Expr.assembles_iff he h h' hsub
  | dict d =>
      have hd : MemDict.Assembles { d with
          im := d.im.map (ExprInt.printed heap')
          mul := d.mul.map fun t => (t.1.printed heap', t.2) } := by
        simp only [MemDict.Assembles, he.2, Option.map_none]
        exact he.1
      exact iff_of_true hd trivial
  | _ => exact Iff.rfl

theorem Expr.fits_congr {e : Expr} (hsame : ∀ n ∈ e.scale, heap n = heap' n) :
    e.Fits heap ↔ e.Fits heap' := by
  cases e with
  | mem size segm ptr =>
      cases segm with
      | none => exact Iff.rfl
      | some s =>
          refine and_congr_right fun _ => forall₂_congr fun n hn => ?_
          rw [hsame n hn]
  | _ => exact Iff.rfl

/-- Only a scale changes the constants. -/
theorem argPurify_heap {e : Expr} (he : e.Decoded) (hscale : e.scale = none) :
    (argPurify e heap).2 = heap := by
  cases e with
  | mem size segm ptr =>
      have hptr : ptr.Decoded := he
      have hnone : (ptr.terms.filterMap Addr.scaled).head? = none := Option.map_eq_none_iff.mp hscale
      obtain ⟨-, -, hheap, -⟩ :=
        foldl_memTerm hptr.shape ⟨(segm.map ExprId.seg).toList, none, none⟩ heap
      simp only [argPurify, memAddr_eq_foldl, hheap, firstScaled, Option.isSome_none,
        Bool.false_eq_true, if_false, hnone, Option.elim_none]
  | _ => rfl

/-- Of the operands of an instruction one has a scale at most, so that each finds the constants as
they were before the first. -/
theorem purifyArgs_assembles_iff {args : List Expr} (hargs : ∀ e ∈ args, e.Regular)
    (hone : (args.filterMap Expr.scale).length ≤ 1) (h : heap.Matches stale)
    (h' : heap'.Matches stale') (hsub : spoilArgs args stale ⊆ stale') :
    (∀ a ∈ (purifyArgs args heap).1, (a.printed heap').Assembles) ↔ ∀ e ∈ args, e.Fits heap := by
  induction args generalizing heap stale with
  | nil => simp [purifyArgs]
  | cons e args ih =>
      obtain ⟨he, hrest⟩ := List.forall_mem_cons.mp hargs
      have hfirst := he.assembles_iff h h' ((subset_spoilArgs args (e.spoil stale)).trans hsub)
      have hlen : (args.filterMap Expr.scale).length ≤ 1 :=
        ((List.sublist_cons_self e args).filterMap _).length_le.trans hone
      have htail := ih hrest hlen (h.argPurify he.decoded) hsub
      have hsame : (∀ e' ∈ args, e'.Fits (argPurify e heap).2) ↔ ∀ e' ∈ args, e'.Fits heap := by
        cases hscale : e.scale with
        | none => rw [argPurify_heap he.decoded hscale]
        | some n =>
            rw [List.filterMap_cons_some hscale, List.length_cons] at hone
            have hnone : args.filterMap Expr.scale = [] := List.length_eq_zero_iff.mp (by omega)
            rw [List.filterMap_eq_nil_iff] at hnone
            refine forall₂_congr fun e' he' => Expr.fits_congr fun m hm => ?_
            rw [hnone e' he'] at hm
            cases hm
      simp only [purifyArgs, List.forall_mem_cons]
      rw [hfirst, htail, hsame]

theorem forall_purifyArgs {args : List Expr} {P : Arg → Prop} {Q : Expr → Prop}
    (hstep : ∀ e ∈ args, ∀ heap, P (argPurify e heap).1 ↔ Q e) (heap : Heap) :
    (∀ a ∈ (purifyArgs args heap).1, P a) ↔ ∀ e ∈ args, Q e := by
  induction args generalizing heap with
  | nil => simp [purifyArgs]
  | cons e args ih =>
      obtain ⟨he, hrest⟩ := List.forall_mem_cons.mp hstep
      simp only [purifyArgs, List.forall_mem_cons]
      rw [he heap, ih hrest]

theorem printed_isHigh (e : Expr) (heap heap' : Heap) :
    (Arg.printed heap' (argPurify e heap).1).isHigh = false ↔ ∀ h, e ≠ .id (.high h) := by
  cases e with
  | id r => cases r <;> simp [argPurify, Arg.printed, Arg.isHigh]
  | _ => simp [argPurify, Arg.printed, Arg.isHigh]

theorem mem_extractReg_iff {e : Expr} (he : e.Decoded) (heap heap' : Heap) (r : ExprId) :
    r ∈ extractReg (Arg.printed heap' (argPurify e heap).1) ↔ r ∈ e.regs := by
  cases e with
  | mem size segm ptr =>
      obtain ⟨d, hd, -, -, hregs⟩ := Addr.Decoded.printed_mem he size segm heap heap'
      rw [hd]
      exact hregs r
  | dict d =>
      simp only [argPurify, Arg.printed, extractReg, Option.map_map, Function.comp_def]
      rfl
  | _ => exact Iff.rfl

/-- The operands of a call, as they were decoded. -/
theorem call_assembles_iff {args : List Expr} (hargs : ∀ e ∈ args, e.Regular)
    (hone : (args.filterMap Expr.scale).length ≤ 1) (h : heap.Matches stale) (name : String)
    (canCheck : Bool) :
    ArgsAssemble (Call.of name args canCheck heap).args ↔ (∀ e ∈ args, e.Fits heap) ∧
      ((∃ h, .id (.high h) ∈ args) →
        ∀ e ∈ args, ∀ r ∈ e.regs, r.virt = none ∧ r.extended = false) := by
  have hdec : ∀ e ∈ args, e.Decoded := fun e he => (hargs e he).decoded
  have hmem := purifyArgs_assembles_iff hargs hone h (h.purifyArgs hdec) (Finset.Subset.refl _)
  let final := (purifyArgs args heap).2
  have hhigh : (∀ a ∈ (purifyArgs args heap).1, (a.printed final).isHigh = false) ↔
      ∀ e ∈ args, ∀ h, e ≠ .id (.high h) :=
    forall_purifyArgs (P := fun a => (a.printed final).isHigh = false)
      (fun e _ heap₁ => printed_isHigh e heap₁ final) heap
  have hregs : (∀ a ∈ (purifyArgs args heap).1, ∀ r ∈ extractReg (a.printed final),
      r.virt = none ∧ r.extended = false) ↔
      ∀ e ∈ args, ∀ r ∈ e.regs, r.virt = none ∧ r.extended = false :=
    forall_purifyArgs (P := fun a => ∀ r ∈ extractReg (a.printed final),
        r.virt = none ∧ r.extended = false)
      (fun e he heap₁ => forall_congr' fun r =>
        imp_congr_left (mem_extractReg_iff (hdec e he) heap₁ final r)) heap
  have hexists : (∃ a ∈ (purifyArgs args heap).1, (a.printed final).isHigh = true) ↔
      ∃ h, .id (.high h) ∈ args := by
    rw [← not_iff_not]
    simp only [not_exists, not_and, Bool.not_eq_true, hhigh]
    exact ⟨fun hall h hmem => hall _ hmem h rfl, fun hall e he h heq => hall h (heq ▸ he)⟩
  rw [← hmem, ← hexists, ← hregs]
  constructor
  · rintro ⟨hassembles, hfree⟩
    simpa [Call.of, final] using And.intro hassembles hfree
  · rintro ⟨hassembles, hfree⟩
    exact ⟨by simpa [Call.of] using hassembles, by simpa [Call.of, final] using hfree⟩

end Operands

section Lines

variable {heap : Heap} {stale : Finset ExprInt} {line : Line}

/-- An operand without memory, or one the translator makes. -/
def Expr.Plain : Expr → Prop
  | .mem _ _ _ | .id (.high _) => False
  | .dict d => d.regs.length ≤ 2 ∧ d.mul = none
  | _ => True

theorem Expr.Plain.assembles {e : Expr} (he : e.Plain) (heap heap' : Heap) :
    (Arg.printed heap' (argPurify e heap).1).Assembles ∧
      (Arg.printed heap' (argPurify e heap).1).isHigh = false := by
  cases e with
  | mem size segm ptr => cases he
  | id r =>
      refine ⟨trivial, ?_⟩
      cases r with
      | high h => cases he
      | _ => rfl
  | dict d =>
      refine ⟨?_, rfl⟩
      change MemDict.Assembles _
      simp only [MemDict.Assembles, he.2, Option.map_none]
      exact he.1
  | _ => exact ⟨trivial, rfl⟩

def Step.Plain : Step → Prop
  | .normal _ args _ => ∀ e ∈ args, e.Plain
  | _ => True

theorem call_assembles_of_plain {args : List Expr} (hargs : ∀ e ∈ args, e.Plain) (name : String)
    (canCheck : Bool) (heap : Heap) : ArgsAssemble (Call.of name args canCheck heap).args := by
  have hall : ∀ a ∈ (Call.of name args canCheck heap).args, a.Assembles ∧ a.isHigh = false := by
    intro a ha
    obtain ⟨a', ha', rfl⟩ := List.mem_map.mp ha
    obtain ⟨e, he, heap', rfl⟩ := mem_purifyArgs ha'
    exact (hargs e he).assembles heap' _
  refine ⟨fun a ha => (hall a ha).1, ?_⟩
  rintro ⟨a, ha, hhigh⟩
  rw [(hall a ha).2] at hhigh
  cases hhigh

theorem Expr.plain_dict (size : Nat) (im : Int) : (Expr.dict (makeMemDict size rsp im)).Plain :=
  ⟨by simp [makeMemDict], rfl⟩

theorem Step.Plain.assembles {step : Step} (h : step.Plain) (heap : Heap) :
    ∀ call ∈ step.call world offset heap, ArgsAssemble call.args := by
  intro call hcall
  cases step with
  | normal name args canCheck =>
      cases hcall
      exact call_assembles_of_plain h _ _ _
  | moveStack bytes =>
      cases hcall
      refine call_assembles_of_plain ?_ _ _ _
      simp [makeMemDict, Expr.Plain, rsp]
  | returnAddress =>
      cases hcall
      exact call_assembles_of_plain (by simp [Expr.Plain]) _ _ _
  | pushInt n =>
      cases hcall
      refine call_assembles_of_plain ?_ _ _ _
      simp [makeMemDict, Expr.Plain]
  | _ => cases hcall

theorem stepsAssemble_append (front back : List Step) (heap : Heap) :
    StepsAssemble world offset (front ++ back) heap ↔ StepsAssemble world offset front heap ∧
      StepsAssemble world offset back (stepsHeap world offset front heap) := by
  induction front generalizing heap with
  | nil => simp [StepsAssemble, stepsHeap]
  | cons step front ih =>
      rw [List.cons_append, StepsAssemble, StepsAssemble, ih, and_assoc]
      rfl

theorem stepsAssemble_of_plain {steps : List Step} (h : ∀ step ∈ steps, step.Plain) (heap : Heap) :
    StepsAssemble world offset steps heap := by
  induction steps generalizing heap with
  | nil => trivial
  | cons step steps ih =>
      obtain ⟨hstep, hsteps⟩ := List.forall_mem_cons.mp h
      exact ⟨hstep.assembles heap, ih hsteps _⟩

/-- Of the calls of a handler one has an operand of the line. -/
theorem stepsAssemble_one {front back : List Step} {step : Step} (hfront : ∀ s ∈ front, s.Plain)
    (hback : ∀ s ∈ back, s.Plain) (heap : Heap) :
    StepsAssemble world offset (front ++ step :: back) heap ↔
      ∀ call ∈ step.call world offset (stepsHeap world offset front heap),
        ArgsAssemble call.args := by
  rw [stepsAssemble_append, and_iff_right (stepsAssemble_of_plain hfront heap), StepsAssemble,
    and_iff_left (stepsAssemble_of_plain hback _)]

theorem World.make_of_ne {m n : ExprInt} (h : n ≠ m) : world.make m heap n = heap n := by
  unfold World.make
  split
  · exact Function.update_of_ne h _ _
  · rfl

theorem Addr.Encoded.scale_le {size : Nat} {segm : Option Seg} {ptr : Addr} (hptr : ptr.Encoded)
    {n : ExprInt} (hn : n ∈ (Expr.mem size segm ptr).scale) : n.arg ≤ 9 := by
  obtain ⟨t, ht, rfl⟩ := Option.map_eq_some_iff.mp hn
  rcases hptr.scale t (List.mem_of_mem_head? ht) with h | ⟨h, -⟩ <;>
    simp only [List.mem_cons, List.not_mem_nil, or_false] at h <;> omega

/-- The `MOV` between a temporary and the operand. -/
theorem memMove_assembles_iff (tmp : Tmp) {size : Nat} {segm : Option Seg} {ptr : Addr}
    {args : List Expr} (hptr : ptr.Encoded)
    (hargs : args = [.id (.tmp tmp), .mem size segm ptr] ∨
      args = [.mem size segm ptr, .id (.tmp tmp)]) (h : heap.Matches stale) :
    (∀ call ∈ (Step.normal "MOV" args false).call world offset heap, ArgsAssemble call.args) ↔
      (Expr.mem size segm ptr).Fits heap := by
  have hregular : ∀ e ∈ args, e.Regular := by
    rcases hargs with rfl | rfl <;> simp [hptr, Expr.Regular]
  have hone : (args.filterMap Expr.scale).length ≤ 1 := by
    have htmp : (Expr.id (.tmp tmp)).scale = none := rfl
    rcases hargs with rfl | rfl <;> cases hscale : (Expr.mem size segm ptr).scale <;>
      simp [hscale, htmp]
  have hhigh : ¬∃ h, .id (.high h) ∈ args := by
    rcases hargs with rfl | rfl <;> simp
  have hfits : (∀ e ∈ args, e.Fits heap) ↔ (Expr.mem size segm ptr).Fits heap := by
    rcases hargs with rfl | rfl
    · simp only [List.forall_mem_cons]
      exact ⟨fun h => h.2.1, fun h => ⟨trivial, h, by simp⟩⟩
    · simp only [List.forall_mem_cons]
      exact ⟨And.left, fun h => ⟨h, trivial, by simp⟩⟩
  simp only [Step.call, Option.mem_def, Option.some.injEq, forall_eq']
  rw [call_assembles_iff hregular hone h, hfits]
  exact and_iff_left fun hex => absurd hex hhigh

theorem Expr.Legal.regular {e : Expr} (h : e.Legal) : e.Regular := by
  cases e with
  | mem size segm ptr => exact h.2
  | dict d => cases h
  | _ => trivial

/-- The constant of `LEA RSP, [RSP - n]` is no scale. -/
theorem moveStack_heap {size : Nat} (hsize : size ∈ sz2pfx) {n : ExprInt} (hn : n.arg ≤ 9)
    (heap : Heap) : (Step.moveStack (-(size / 8 : Nat))).heapAfter world offset heap n = heap n := by
  have hlarge : ∃ m : ExprInt, (makeMemDict 64 rsp (-(size / 8 : Nat))).im = some m ∧ 9 < m.arg := by
    simp only [sz2pfx, List.mem_cons, List.not_mem_nil, or_false] at hsize
    rcases hsize with rfl | rfl | rfl | rfl | rfl <;> exact ⟨_, rfl, by decide⟩
  obtain ⟨m, hm, hlt⟩ := hlarge
  simp only [Step.heapAfter, Step.made, hm, Option.toList_some, List.foldr_cons, List.foldr_nil]
  refine World.make_of_ne ?_
  rintro rfl
  omega

theorem processPush_assembles_iff {e : Expr} (he : e.Legal) (hhigh : ∀ h, e ≠ .id (.high h))
    (h : heap.Matches stale) :
    StepsAssemble world offset (processPush e) heap ↔ e.Fits heap := by
  have hplain : ∀ bytes size name, e.Plain → StepsAssemble world offset
      [.moveStack bytes, .normal name [.dict (makeMemDict size rsp 0), e] false] heap :=
    fun bytes size name hp => stepsAssemble_of_plain
      (by simp [Step.Plain, hp, Expr.plain_dict]) heap
  cases e with
  | mem size segm ptr =>
      let move : Step := .moveStack (-(size / 8 : Nat))
      obtain ⟨stale₁, h₁⟩ := move.exists_matches trivial h world offset
      have hsame : ∀ n ∈ (Expr.mem size segm ptr).scale,
          move.heapAfter world offset heap n = heap n :=
        fun n hn => moveStack_heap he.1 (he.2.scale_le hn) heap
      rw [← Expr.fits_congr hsame, ← memMove_assembles_iff .t1 he.2 (Or.inl rfl) h₁]
      exact @stepsAssemble_one _ _ [move, .resolve .t1] _ _ (by simp [Step.Plain, move])
        (by simp [Step.Plain, Expr.Plain, makeMemDict]) heap
  | int n =>
      exact iff_of_true
        (stepsAssemble_of_plain (by simp [processPush, Expr.size, Step.Plain]) heap) trivial
  | dict d => cases he
  | id r =>
      refine iff_of_true (hplain _ _ _ ?_) trivial
      cases r with
      | high h => exact absurd rfl (hhigh h)
      | _ => trivial
  | loc address => exact iff_of_true (hplain _ _ _ trivial) trivial
  | op size => exact iff_of_true (hplain _ _ _ trivial) trivial

theorem processPop_assembles_iff {e : Expr} (he : e.Legal) (hhigh : ∀ h, e ≠ .id (.high h))
    (h : heap.Matches stale) :
    StepsAssemble world offset (processPop e) heap ↔ e.Fits heap := by
  have hplain : ∀ bytes, e.Plain → StepsAssemble world offset
      [.normal "MOV" [e, .dict (makeMemDict 64 rsp 0)] false, .moveStack bytes] heap :=
    fun bytes hp => stepsAssemble_of_plain (by simp [Step.Plain, hp, Expr.plain_dict]) heap
  cases e with
  | mem size segm ptr =>
      rw [← memMove_assembles_iff .t1 he.2 (Or.inr rfl) h]
      exact @stepsAssemble_one _ _
        [.resolve .t1, .normal "MOV" [.id (.tmp .t1), .dict (makeMemDict 64 rsp 0)] false] _ _
        (by simp [Step.Plain, Expr.Plain, makeMemDict]) (by simp [Step.Plain]) heap
  | dict d => cases he
  | id r =>
      refine iff_of_true (hplain _ ?_) trivial
      cases r with
      | high h => exact absurd rfl (hhigh h)
      | _ => trivial
  | int n => exact iff_of_true (hplain _ trivial) trivial
  | loc address => exact iff_of_true (hplain _ trivial) trivial
  | op size => exact iff_of_true (hplain _ trivial) trivial

theorem processJump_assembles_iff {e : Expr} (he : e.Legal) (name : String)
    (h : heap.Matches stale) :
    StepsAssemble world offset (processJump name e) heap ↔ e.Fits heap := by
  cases e with
  | mem size segm ptr =>
      rw [← memMove_assembles_iff .t2 he.2 (Or.inl rfl) h]
      exact @stepsAssemble_one _ _ [.resolve .t2] _ _ (by simp [Step.Plain]) (by simp [Step.Plain])
        heap
  | dict d => cases he
  | _ => exact iff_of_true (stepsAssemble_of_plain (by simp [processJump, Step.Plain]) heap) trivial

theorem Line.fits_of_shown_nil (h : line.shown = []) : line.Fits world offset heap := by
  refine ⟨?_, fun _ => ?_⟩ <;> simp [h]

theorem Line.fits_of_shown_singleton {e : Expr} (h : line.shown = [e]) :
    line.Fits world offset heap ↔ e.Fits (line.shownHeap world offset heap) := by
  refine ⟨fun hfits => hfits.mem e (by simp [h]), fun he => ⟨by simpa [h] using he, ?_⟩⟩
  rintro ⟨b, hb⟩
  obtain rfl : .id (.high b) = e := by simpa [h] using hb
  simp [h, Expr.regs, ExprId.virt]

/-- A handler of the first argument. -/
theorem firstArg_assembles_iff {f : Expr → List Step} {heap' : Heap}
    (hshown : line.shown = line.args.take 1)
    (hf : ∀ e ∈ line.args, StepsAssemble world offset (f e) heap' ↔
      e.Fits (line.shownHeap world offset heap)) :
    StepsAssemble world offset (firstArg line f) heap' ↔ line.Fits world offset heap := by
  unfold firstArg
  split
  · rename_i hargs
    rw [hargs] at hshown
    exact iff_of_true (stepsAssemble_of_plain (by simp [Step.Plain]) heap')
      (Line.fits_of_shown_nil hshown)
  · rename_i e args hargs
    rw [Line.fits_of_shown_singleton (hshown.trans (by rw [hargs]; rfl))]
    exact hf e (by rw [hargs]; exact List.mem_cons_self)

theorem Line.shownHeap_of_ne (h : getInstName line ≠ "CALL") :
    line.shownHeap world offset heap = heap := if_neg h

/-- A CALL: the operand is read after the return address is pushed. -/
theorem call_line_assembles_iff (hlegal : line.Legal) (h : heap.Matches stale)
    (hname : getInstName line = "CALL") (hshown : line.shown = line.args.take 1) :
    StepsAssemble world offset (.resolve .t2 :: .returnAddress :: processPush (.id (.tmp .t2)) ++
      firstArg line (processJump "JMP")) heap ↔ line.Fits world offset heap := by
  have hfront : ∀ step ∈ .resolve .t2 :: .returnAddress :: processPush (.id (.tmp .t2)),
      step.Plain := by
    simp [processPush, Expr.size, Step.Plain, Expr.Plain, makeMemDict]
  let made := world.make ⟨offset, 64⟩ heap
  let move : Step := .moveStack (-(64 / 8 : Nat))
  have hmade : line.shownHeap world offset heap = made := if_pos hname
  obtain ⟨stale₁, h₁⟩ := move.exists_matches trivial (h.make world ⟨offset, 64⟩) world offset
  rw [stepsAssemble_append, and_iff_right (stepsAssemble_of_plain hfront heap)]
  refine firstArg_assembles_iff hshown fun e he => ?_
  have hjump : StepsAssemble world offset (processJump "JMP" e) (move.heapAfter world offset made) ↔
      e.Fits (move.heapAfter world offset made) :=
    processJump_assembles_iff (hlegal.args e he) "JMP" h₁
  have hsame : ∀ n ∈ e.scale, move.heapAfter world offset made n = made n := by
    intro n hn
    cases e with
    | mem size segm ptr =>
        exact moveStack_heap (by decide) ((hlegal.args _ he).2.scale_le hn) made
    | _ => cases hn
  rw [hmade, ← Expr.fits_congr hsame]
  exact hjump

/-- An ordinary line shows all its operands. -/
theorem normal_line_assembles_iff (hlegal : line.Legal) (h : heap.Matches stale)
    (hname : getInstName line ≠ "CALL") (hshown : line.shown = line.args) (canCheck : Bool) :
    ArgsAssemble (Call.of (getInstName line) line.args canCheck heap).args ↔
      line.Fits world offset heap := by
  rw [call_assembles_iff (fun e he => (hlegal.args e he).regular) hlegal.oneScale h]
  constructor
  · rintro ⟨hmem, hhigh⟩
    refine ⟨?_, ?_⟩
    · rw [hshown, Line.shownHeap_of_ne hname]
      exact hmem
    · rw [hshown]
      exact fun hex e he r hr => (hhigh hex e he r hr).1
  · rintro ⟨hmem, hhigh⟩
    rw [hshown] at hmem hhigh
    rw [Line.shownHeap_of_ne hname] at hmem
    refine ⟨hmem, ?_⟩
    rintro ⟨b, hb⟩ e he r hr
    exact ⟨hhigh ⟨b, hb⟩ e he r hr, hlegal.high b hb e he r hr⟩

theorem line_assembles_iff (hlegal : line.Legal) (h : heap.Matches stale) (blockEnd canCheck : Bool) :
    StepsAssemble world offset (translate line blockEnd canCheck) heap ↔
      line.Fits world offset heap := by
  have hrelease : ∀ steps, StepsAssemble world offset (steps ++ [.release blockEnd]) heap ↔
      StepsAssemble world offset steps heap := by
    intro steps
    rw [stepsAssemble_append]
    exact and_iff_left (stepsAssemble_of_plain (by simp [Step.Plain]) _)
  have hcalls : line.name ∉ specialInstruction → getInstName line ≠ "CALL" := by
    intro hspecial hname
    rw [name_of_getInstName hname (by decide)] at hspecial
    exact hspecial (by decide)
  unfold translate
  split_ifs with hspecial hbranch
  · have hshown : line.shown =
        if getInstName line ∈ ["CALL", "PUSH", "POP"] then line.args.take 1 else [] := by
      rw [Line.shown, if_pos hspecial]
    have hsilent : getInstName line ∉ ["CALL", "PUSH", "POP"] → ∀ steps : List Step,
        (∀ step ∈ steps, step.Plain) →
          (StepsAssemble world offset steps heap ↔ line.Fits world offset heap) := by
      intro hname steps hsteps
      rw [if_neg hname] at hshown
      exact iff_of_true (stepsAssemble_of_plain hsteps heap) (Line.fits_of_shown_nil hshown)
    have hlist : ∀ name ∈ ["CALL", "PUSH", "POP"],
        name ∈ specialInstruction ∧ name ≠ "ENDBR64" ∧ name ≠ "NOP" := by decide
    have hstack : ∀ name ∈ ["PUSH", "POP"], getInstName line = name →
        ∀ e ∈ line.args, ∀ b, e ≠ .id (.high b) := by
      rintro name hmem hname e he b rfl
      have hline := name_of_getInstName hname (hlist name (List.mem_cons_of_mem _ hmem)).1
      exact hlegal.stack (hline ▸ hmem) b he
    unfold specialInstDispatch
    dsimp only
    split_ifs with hnop hcall hpush hpop hret hleave hsyscall hinvlpg
    · refine hsilent ?_ _ (by simp [Step.Plain])
      intro hmem
      obtain ⟨hname, hendbr, hne⟩ := hlist _ hmem
      rcases hnop with heq | heq
      · exact hendbr heq
      · exact hne ((name_of_getInstName rfl hname).symm.trans heq)
    · refine call_line_assembles_iff hlegal h hcall (hshown.trans (if_pos ?_))
      rw [hcall]
      decide
    · rw [hrelease]
      rw [hpush] at hshown
      refine firstArg_assembles_iff (hshown.trans (if_pos (by decide))) fun e he => ?_
      rw [Line.shownHeap_of_ne hcall]
      exact processPush_assembles_iff (hlegal.args e he) (hstack _ (by decide) hpush e he) h
    · rw [hrelease]
      rw [hpop] at hshown
      refine firstArg_assembles_iff (hshown.trans (if_pos (by decide))) fun e he => ?_
      rw [Line.shownHeap_of_ne hcall]
      exact processPop_assembles_iff (hlegal.args e he) (hstack _ (by decide) hpop e he) h
    · refine hsilent (by rw [hret]; decide) _ ?_
      simp [processPop, processJump, Expr.size, Step.Plain, Expr.Plain, makeMemDict]
    · refine hsilent (by rw [hleave]; decide) _ ?_
      simp [processPop, Expr.size, Step.Plain, Expr.Plain, makeMemDict, rsp, rbp]
    · exact hsilent (by rw [hsyscall]; decide) _ (by simp [Step.Plain])
    · exact hsilent (by rw [hinvlpg]; decide) _ (by simp [Step.Plain])
    · exact hsilent (by simp [hcall, hpush, hpop]) _ (by simp)
  · have hshown : line.shown = line.args.take 1 := by
      rw [Line.shown, if_neg hspecial, if_pos hbranch]
    refine firstArg_assembles_iff hshown fun e he => ?_
    rw [Line.shownHeap_of_ne (hcalls hspecial)]
    exact processJump_assembles_iff (hlegal.args e he) line.name h
  · have hshown : line.shown = line.args := by
      rw [Line.shown, if_neg hspecial, if_neg hbranch]
    rw [← normal_line_assembles_iff hlegal h (hcalls hspecial) hshown canCheck]
    have hone := @stepsAssemble_one world offset [] [.release blockEnd]
      (.normal (getInstName line) line.args canCheck) (by simp) (by simp [Step.Plain]) heap
    simpa [Step.call, stepsHeap] using hone

end Lines

/-- **Encodable operands.** In a run over legal instructions the text of a line can be encoded exactly
if its memory operand leaves room for the segment base, and no register beside AH, BH, CH or DH is
renamed to one of R12 to R15. -/
theorem operands_encodable_iff {blocks : List (Nat × Block)} {emitted : List (Nat × List Emitted)}
    {last : TransState} (hlegal : ∀ b ∈ blocks, ∀ line ∈ b.2.lines, line.Legal)
    (hrun : translateBlocks world blocks .start = some (emitted, last)) :
    ∀ b ∈ emitted, ∀ e ∈ b.2,
      (∀ a ∈ e.text, a.Assembles) ↔ e.line.Fits world e.offset e.before.heap := by
  intro b hb e he
  have hdec : ∀ b ∈ blocks, ∀ line ∈ b.2.lines, line.Decoded :=
    fun b hb line hline => (hlegal b hb line hline).toDecoded
  obtain ⟨hregular, b', hb', hline⟩ :=
    (translateBlocks_regular hdec Heap.matches_fresh hrun).1 b hb e he
  obtain ⟨stale, hstale⟩ := hregular.heap
  rw [runSteps_assembles_iff hregular.map hregular.run]
  exact line_assembles_iff (hlegal b' hb' _ hline) hstale e.blockEnd e.canCheck

/-- `MOV dst, [...]` -/
def loadMem (dst : ExprId) (size : Nat) (segm : Option Seg) (ptr : Addr) : Line :=
  { name := "MOV", args := [.id dst, .mem size segm ptr], l := 5 }

theorem loadMem_legal {dst : ExprId} {size : Nat} {segm : Option Seg} {ptr : Addr}
    (hsize : size ∈ sz2pfx) (hptr : ptr.Encoded) (hregs : ∀ r ∈ memRegs segm ptr, r.extended = false) :
    (loadMem dst size segm ptr).Legal where
  operands := by
    simp only [loadMem, List.forall_mem_cons]
    exact ⟨trivial, hptr.toDecoded, by simp⟩
  patched h := absurd h (by simp [loadMem, patchedBytes])
  args := by
    simp only [loadMem, List.forall_mem_cons]
    exact ⟨trivial, ⟨hsize, hptr⟩, by simp⟩
  oneScale := by
    have hdst : (Expr.id dst).scale = none := rfl
    cases hscale : (Expr.mem size segm ptr).scale <;> simp [loadMem, hscale, hdst]
  high h hmem := by
    obtain rfl : .high h = dst := by simpa [loadMem] using hmem
    simp only [loadMem, List.forall_mem_cons]
    exact ⟨by simp [Expr.regs, ExprId.extended], hregs, by simp⟩
  stack h := absurd h (by simp [loadMem])

/-- `[RBX*4]` -/
def rbxTimes4 : Addr := .times (.id (.gpr .rbx .q)) (.int ⟨4, 64⟩)

/-- `[RAX + RBX*4]` -/
def raxRbxTimes4 : Addr := .add [.id (.gpr .rax .q), rbxTimes4]

/-- `[RSP]` -/
def stackTop : Addr := .id (.gpr .rsp .q)

theorem rbxTimes4_encoded : rbxTimes4.Encoded :=
  ⟨⟨⟨by decide, by decide, by decide⟩, by decide, by decide, by decide, by decide⟩, by decide,
    by decide⟩

theorem raxRbxTimes4_encoded : raxRbxTimes4.Encoded :=
  ⟨⟨⟨by decide, by decide, by decide⟩, by decide, by decide, by decide, by decide⟩, by decide,
    by decide⟩

theorem stackTop_encoded : stackTop.Encoded :=
  ⟨⟨⟨by decide, by decide, by decide⟩, by decide, by decide, by decide, by decide⟩, by decide,
    by decide⟩

/-- `MOV RCX, FS:[RAX + RBX*4]` needs three registers in its address, and `MOV AH, [RSP]` becomes
`MOV AH, [R13]`. -/
def unencodable : Block :=
  ⟨[loadMem (.gpr .rcx .q) 64 (some .fs) raxRbxTimes4, loadMem (.high .ah) 8 none stackTop], []⟩

def unencodableText : List (List Asm) :=
  [[.load .p15 .fs, .inst "MOV" [.reg (.gpr .rcx .q),
      .mem ⟨64, [.gpr .r15 .q, .gpr .rax .q], none, some (⟨4, 64⟩, .gpr .rbx .q)⟩]],
    [.inst "MOV" [.reg (.high .ah), .mem ⟨8, [.gpr .r13 .q], none, none⟩]]]

theorem unencodable_emitted : (∀ line ∈ unencodable.lines, line.Legal) ∧
    ∃ emitted last, translateBlocks .standard [(0x401000, unencodable)] .start =
        some (emitted, last) ∧
      (emitted.flatMap fun b => b.2.map Emitted.text) = unencodableText ∧
      ∀ text ∈ unencodableText, ¬∀ a ∈ text, a.Assembles := by
  refine ⟨?_, ?_⟩
  · simp only [unencodable, List.forall_mem_cons]
    exact ⟨loadMem_legal (by decide) raxRbxTimes4_encoded (by decide),
      loadMem_legal (by decide) stackTop_encoded (by decide), by simp⟩
  · have htext : (translateBlocks .standard [(0x401000, unencodable)] .start).map
        (fun r => r.1.flatMap fun b => b.2.map Emitted.text) = some unencodableText := by decide
    obtain ⟨⟨emitted, last⟩, hrun, htexts⟩ := Option.map_eq_some_iff.mp htext
    exact ⟨emitted, last, hrun, htexts, by decide⟩

theorem operands_encodable_segment : ∃ emitted last,
    translateBlocks .standard [(0x401000, ⟨[loadMem (.gpr .rcx .q) 64 (some .fs) rbxTimes4], []⟩)]
        .start = some (emitted, last) ∧
      ∀ b ∈ emitted, ∀ e ∈ b.2, e.line.Fits .standard e.offset e.before.heap := by
  have hlegal : (loadMem (.gpr .rcx .q) 64 (some .fs) rbxTimes4).Legal :=
    loadMem_legal (by decide) rbxTimes4_encoded (by decide)
  have htext : (translateBlocks .standard
      [(0x401000, ⟨[loadMem (.gpr .rcx .q) 64 (some .fs) rbxTimes4], []⟩)] .start).map
        (fun r => r.1.all fun b => b.2.all fun e => e.text.all fun a => a.Assembles) =
      some true := by decide
  obtain ⟨⟨emitted, last⟩, hrun, hall⟩ := Option.map_eq_some_iff.mp htext
  simp only [List.all_eq_true, decide_eq_true_eq] at hall
  have hiff := operands_encodable_iff (by simpa using hlegal) hrun
  exact ⟨emitted, last, hrun, fun b hb e he => (hiff b hb e he).mp (hall b hb e he)⟩

end UserspaceBypass
