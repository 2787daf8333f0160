import UserspaceBypass.SimulateSteps

/-! Address masks and their elision. A base register in `checked_regs` is taken to have bit 63 clear
and is not masked again. That is right as long as every base that enters the set is really masked,
and nothing writes all 64 bits of a register in it. Which operands and which unnamed registers an
instruction writes is a table of the instruction set. -/

namespace UserspaceBypass

open StraightLine

/-- Bit 63 of the register, as an address uses it. -/
def Clear (regs : Regs) (r : ExprId) : Prop := (readReg 0 regs r).getLsbD 63 = false

theorem Width.get_bit63 {width : Width} (h : width ≠ .q) (value : BitVec 64) :
    (width.get value).getLsbD 63 = false := by
  cases width <;> simp_all [Width.get, Width.mask]

theorem Width.put_bit63 {width : Width} {old value : BitVec 64}
    (h : width = .q → value.getLsbD 63 = false) (hold : old.getLsbD 63 = false) :
    (width.put old value).getLsbD 63 = false := by
  cases width <;> simp_all [Width.put, Width.mask]

/-- The family a 64-bit register is the whole of. -/
def ExprId.whole : ExprId → Option Family
  | .gpr g .q => some (.gpr g)
  | .seg s => some (.seg s)
  | .tmp t => some (.tmp t)
  | _ => none

theorem clear_iff {regs : Regs} {r : ExprId} {f : Family} (h : r.whole = some f) :
    Clear regs r ↔ (regs f).getLsbD 63 = false := by
  unfold ExprId.whole at h
  split at h <;> cases h
  · rw [Clear, readReg, Width.get_q]
  · rfl
  · rfl

/-- Other registers have no bit 63 that an address could use. -/
theorem clear_of_whole_none {regs : Regs} {r : ExprId} (h : r.whole = none) : Clear regs r := by
  cases r with
  | gpr g width =>
      refine Width.get_bit63 (fun hq => ?_) _
      rw [hq] at h
      cases h
  | seg s => cases h
  | tmp t => cases h
  | _ => simp [Clear, readReg, Width.get]

theorem writeReg_whole {regs : Regs} {r : ExprId} {f : Family} (h : r.whole = some f)
    (value : BitVec 64) : writeReg regs r value = Function.update regs f value := by
  unfold ExprId.whole at h
  split at h <;> cases h <;> rfl

/-- A write that does not cover the whole of a family keeps its bit 63 clear. -/
theorem writeReg_part {regs : Regs} {r : ExprId} {f : Family} (h : r.whole ≠ some f)
    (hf : (regs f).getLsbD 63 = false) (value : BitVec 64) :
    (writeReg regs r value f).getLsbD 63 = false := by
  have hother : ∀ f' x, f' ≠ f → (Function.update regs f' x f).getLsbD 63 = false := by
    intro f' x hne
    rw [Function.update_of_ne (Ne.symm hne)]
    exact hf
  cases r with
  | gpr g width =>
      by_cases hg : Family.gpr g = f
      · subst hg
        rw [writeReg, Function.update_self]
        refine Width.put_bit63 (fun hq => ?_) hf
        rw [hq] at h
        exact absurd rfl h
      · exact hother _ _ hg
  | high b =>
      by_cases hg : Family.gpr b.gpr = f
      · subst hg
        rw [writeReg, Function.update_self]
        simpa using hf
      · exact hother _ _ hg
  | seg s => exact hother _ _ fun hs => h (congrArg some hs)
  | tmp t => exact hother _ _ fun ht => h (congrArg some ht)
  | _ => exact hf

theorem whole_injective {r r' : ExprId} {f : Family} (h : r.whole = some f)
    (h' : r'.whole = some f) : r = r' := by
  unfold ExprId.whole at h h'
  split at h <;> cases h <;> split at h' <;> cases h' <;> rfl

theorem clear_writeReg_self {regs : Regs} {r : ExprId} {value : BitVec 64}
    (h : value.getLsbD 63 = false) : Clear (writeReg regs r value) r := by
  cases hr : r.whole with
  | none => exact clear_of_whole_none hr
  | some f => rw [clear_iff hr, writeReg_whole hr, Function.update_self, h]

/-- A write sets bit 63 of a register only by writing all of it. -/
theorem clear_writeReg {regs : Regs} {r r' : ExprId} (h : Clear regs r) (hne : r' ≠ r)
    (value : BitVec 64) : Clear (writeReg regs r' value) r := by
  cases hr : r.whole with
  | none => exact clear_of_whole_none hr
  | some f =>
      rw [clear_iff hr] at h ⊢
      exact writeReg_part (fun hr' => hne (whole_injective hr' hr)) h value

theorem clear_mask (isa : Isa) (ip : BitVec 64) (s : State) (r : ExprId) :
    Clear (s.mask isa ip r).regs r := by
  apply clear_writeReg_self
  simp

theorem Clear.mask {isa : Isa} {ip : BitVec 64} {s : State} {r : ExprId} (h : Clear s.regs r)
    (r' : ExprId) : Clear (s.mask isa ip r').regs r := by
  by_cases hr : r' = r
  · rw [hr]
    exact clear_mask isa ip s r
  · exact clear_writeReg (clear_writeReg h hr _) hr _

/-- After the masks of a line both the registers masked there and those clear before are clear. -/
theorem clear_masks {isa : Isa} {ip : BitVec 64} {s : State} {rs : List ExprId} {r : ExprId}
    (h : Clear s.regs r ∨ r ∈ rs) : Clear (rs.foldl (State.mask isa ip) s).regs r := by
  induction rs generalizing s with
  | nil => exact h.resolve_right List.not_mem_nil
  | cons r' rs ih =>
      refine ih ?_
      rcases h with h | h
      · exact Or.inl (h.mask r')
      · rcases List.mem_cons.mp h with rfl | h
        · exact Or.inl (clear_mask isa ip s r)
        · exact Or.inr h

theorem clear_writeArgs {args : List Arg} {writes : List (Option (BitVec 64))} {regs : Regs}
    {r : ExprId} (h : Clear regs r)
    (hargs : ∀ (k : Nat) value, writes[k]? = some (some value) → args[k]? ≠ some (Arg.reg r)) :
    Clear (writeArgs args writes regs) r := by
  induction args generalizing writes regs with
  | nil => cases writes <;> exact h
  | cons a args ih =>
      cases writes with
      | nil => cases a <;> exact h
      | cons x writes =>
          have hrest := fun k value hk => hargs (k + 1) value hk
          cases a with
          | reg r' =>
              cases x with
              | none => exact ih h hrest
              | some value =>
                  refine ih (clear_writeReg h (fun hr => ?_) value) hrest
                  exact hargs 0 value rfl (congrArg (fun q => some (Arg.reg q)) hr)
          | _ => exact ih h hrest

theorem clear_writeHidden {writes : Gpr → Option (BitVec 64)} {regs : Regs} {r : ExprId}
    (h : Clear regs r) (hr : ∀ g value, writes g = some value → r ≠ .gpr g .q) :
    Clear (writeHidden writes regs) r := by
  cases hw : r.whole with
  | none => exact clear_of_whole_none hw
  | some f =>
      rw [clear_iff hw] at h ⊢
      cases f with
      | gpr g =>
          have hg : writes g = none := by
            refine Option.eq_none_iff_forall_ne_some.mpr fun value hvalue => ?_
            exact hr g value hvalue (whole_injective hw rfl)
          simp only [writeHidden, hg, Option.getD_none, ite_self]
          exact h
      | _ => exact h

def ExprId.NoTmp (r : ExprId) : Prop := ∀ v, r.virt = some v → v.isTmp = false

/-- The call keeps `checked_regs` right: the bases it adds are masked, and it writes the whole of no
register that is in the set afterwards. -/
structure Call.Sound (use : RegUse) (checked : List ExprId) (call : Call) : Prop where
  masked : masked (toCheckRegs call.name call.args checked) call.canCheck =
    toCheckRegs call.name call.args checked
  noTmp : ∀ r ∈ toCheckRegs call.name call.args checked, r.NoTmp
  operand : ∀ (k : Nat) r, call.args[k]? = some (.reg r) → use.operand call.name k = true →
    r.whole ≠ none → r ∉ checkedAfter call.name call.args checked
  hidden : ∀ g, use.hidden call.name g = true →
    .gpr g .q ∉ checkedAfter call.name call.args checked

/-- Every register in `checked_regs` has bit 63 clear. -/
structure CheckedInv (t : TransState) (c : Machine) : Prop where
  map : MapInv t.regMap
  clear : ∀ r ∈ t.checked, r.NoTmp ∧ Clear (absRegs t.regMap c) r

theorem Clear.sameView {m m' : RegMap} {c c' : Machine} (h : SameView m c m' c') {r : ExprId}
    (hr : r.NoTmp) (hclear : Clear (absRegs m c) r) : Clear (absRegs m' c') r := by
  cases hw : r.whole with
  | none => exact clear_of_whole_none hw
  | some f =>
      rw [clear_iff hw] at hclear ⊢
      have hf : ∀ v, f.virt = some v → v.isTmp = false := by
        intro v hv
        refine hr v ?_
        unfold ExprId.whole at hw
        split at hw <;> cases hw <;> exact hv
      rw [h.absRegs_eq hf]
      exact hclear

theorem mem_checkedAfter {name : String} {args : List Arg} {checked : List ExprId} {r : ExprId}
    (h : r ∈ checkedAfter name args checked) : r ∈ checked ∨ r ∈ toCheckRegs name args checked := by
  rcases List.mem_append.mp h with h | h
  · refine Or.inl ?_
    split at h
    · exact List.mem_of_mem_filter h
    · exact h
  · exact Or.inr h

section Step

variable {isa : Isa} {use : RegUse} {world : World} {offset : Nat} {call : Call}
  {t t' : TransState} {text : List Asm} {c c₁ c₂ : Machine}

/-- When the instruction computes its address, the registers checked before and those it adds are
clear. -/
theorem clear_ready {st : Stages world call.name call.args offset call.canCheck t text t'}
    (hready : Ready isa st c c₁ c₂) (hinv : CheckedInv t c) (hsound : call.Sound use t.checked)
    {r : ExprId} (hr : r ∈ t.checked ∨ r ∈ toCheckRegs call.name call.args t.checked) :
    Clear (absRegs st.map c₂) r := by
  have hregs : absRegs st.map c₂ = (abs st.map c₂).regs := rfl
  rw [hregs, hready.masked, hsound.masked]
  apply clear_masks
  rcases hr with hr | hr
  · obtain ⟨htmp, hclear⟩ := hinv.clear r hr
    exact Or.inl (hclear.sameView hready.moved.sameView htmp)
  · exact Or.inr hr

theorem CheckedInv.step_call (hisa : isa.Respects use)
    (st : Stages world call.name call.args offset call.canCheck t text t') (hinv : CheckedInv t c)
    (hsound : call.Sound use t.checked) {c' : Machine} (hexec : execText isa text c = some c') :
    CheckedInv t' c' := by
  obtain ⟨c₁, c₂, c₃, hready, hinst, hback⟩ := st.phases hinv.map hexec
  refine ⟨st.mapInv hinv.map, fun r hr => ?_⟩
  rw [st.checked_eq] at hr
  have hmem := mem_checkedAfter hr
  have htmp : r.NoTmp := hmem.elim (fun h => (hinv.clear r h).1) (hsound.noTmp r)
  refine ⟨htmp, Clear.sameView hback.sameView htmp ?_⟩
  have hclear := clear_ready hready hinv hsound hmem
  -- the instruction on the abstract state, with the writes it makes
  have habs := exec_applyMap isa call.name (st.injective hinv.map) hready.ip st.rename
  rw [hinst, Option.map_some] at habs
  obtain ⟨e, he, hstate⟩ := Option.map_eq_some_iff.mp habs.symm
  have hregs : absRegs st.map c₃ =
      writeHidden e.hidden (writeArgs call.args e.writes (absRegs st.map c₂)) :=
    (congrArg State.regs hstate).symm
  by_cases hw : r.whole = none
  · exact clear_of_whole_none hw
  rw [hregs]
  refine clear_writeHidden (clear_writeArgs hclear fun k value hk harg => ?_) fun g value hg heq => ?_
  · exact hsound.operand k r harg (hisa.operand _ _ _ _ _ he k value hk) hw hr
  · exact hsound.hidden g (hisa.hidden _ _ _ _ _ he g value hg) (heq ▸ hr)

end Step

def Asm.isInst : Asm → Bool
  | .inst _ _ => true
  | _ => false

/-- The text in front of the emitted instruction. -/
def beforeInst (text : List Asm) : List Asm := text.takeWhile fun a => !a.isInst

/-- The emitted instruction has bit 63 clear in the base of each memory operand that has one base
register, where the name of that register does not end in `P`. -/
def Call.Safe (isa : Isa) (call : Call) (text : List Asm) (c : Machine) : Prop :=
  ∀ c₂ args' (k : Nat) d d' r r', execText isa (beforeInst text) c = some c₂ →
    text.find? Asm.isInst = some (.inst call.name args') →
    call.args[k]? = some (.mem d) → args'[k]? = some (.mem d') →
    d.regs = [r] → endsInP r = false → d'.regs = [r'] → Clear c₂.regs r'

theorem beforeInst_append {before after : List Asm} {name : String} {args : List Arg}
    (hmove : ∀ a ∈ before, a.isMove = true) :
    beforeInst (before ++ .inst name args :: after) = before ∧
      (before ++ .inst name args :: after).find? Asm.isInst = some (.inst name args) := by
  have hno : ∀ a ∈ before, a.isInst = false := by
    intro a ha
    have hmove := hmove a ha
    cases a <;> first | rfl | cases hmove
  constructor
  · rw [beforeInst, List.takeWhile_append_of_pos (by simpa using hno)]
    simp [Asm.isInst]
  · rw [List.find?_append, List.find?_eq_none.mpr (by simpa using hno)]
    rfl

/-- Where the instruction stands in the text of a call. -/
theorem Stages.inst_eq {world : World} {name : String} {args : List Arg} {offset : Nat}
    {canCheck : Bool} {t t' : TransState} {text : List Asm}
    (st : Stages world name args offset canCheck t text t') :
    beforeInst text = st.pre ++ checkInst st.toCheck' canCheck ∧
      text.find? Asm.isInst = some (.inst name st.args') := by
  obtain ⟨htext, hbefore, -⟩ := st.around_inst
  have hsplit := @beforeInst_append _ (recoverStable (releaseIP st.map)).1 name st.args' hbefore
  rw [← htext] at hsplit
  exact hsplit

theorem mem_getMemBase {name : String} {args : List Arg} {k : Nat} {d : MemDict} {r : ExprId}
    (hname : name ≠ "LEA") (hk : args[k]? = some (.mem d)) (hd : d.regs = [r])
    (hr : endsInP r = false) : r ∈ getMemBase name args := by
  rw [getMemBase, if_neg hname, List.mem_flatMap]
  refine ⟨.mem d, List.mem_of_getElem? hk, ?_⟩
  simp [memBase, hd, hr]

theorem applyMap_getElem {m : RegMap} {args args' : List Arg} (h : applyMap m args = some args')
    {k : Nat} {a a' : Arg} (ha : args[k]? = some a) (ha' : args'[k]? = some a') :
    applyMapArg m a = some a' := by
  induction args generalizing args' k with
  | nil => simp at ha
  | cons x args ih =>
      simp only [applyMap, List.mapM_cons, Option.bind_eq_bind, Option.pure_def,
        Option.bind_eq_some_iff, Option.some.injEq] at h
      obtain ⟨x', hx, rest, hrest, rfl⟩ := h
      cases k with
      | zero =>
          cases ha
          cases ha'
          exact hx
      | succ k => exact ih hrest ha ha'

/-- The call is safe where `checked_regs` is right. -/
theorem Call.safe_of_inv {isa : Isa} {use : RegUse} {world : World} {offset : Nat} {call : Call}
    {t t' : TransState} {text : List Asm} {c : Machine}
    (st : Stages world call.name call.args offset call.canCheck t text t')
    (hname : call.name ≠ "LEA") (hinv : CheckedInv t c) (hsound : call.Sound use t.checked) :
    call.Safe isa text c := by
  intro c₂ args' k d d' r r' hexec hfind hk hk' hd hr hd'
  obtain ⟨hbefore, hinst⟩ := st.inst_eq
  rw [hinst] at hfind
  obtain ⟨-, rfl⟩ := Asm.inst.inj (Option.some.inj hfind)
  obtain ⟨c₁, c₂', hready⟩ := st.ready isa hinv.map c
  have hboth : execText isa (beforeInst text) c = some c₂' := by
    rw [hbefore, execText, runAll_append_some]
    exact ⟨c₁, hready.pre, hready.masks⟩
  obtain rfl := Option.some.inj (hexec.symm.trans hboth)
  have hmem : r ∈ t.checked ∨ r ∈ toCheckRegs call.name call.args t.checked := by
    by_cases hchecked : r ∈ t.checked
    · exact Or.inl hchecked
    · refine Or.inr (List.mem_filter.mpr ⟨?_, by simpa using hchecked⟩)
      exact List.mem_dedup.mpr (mem_getMemBase hname hk hd hr)
  have hclear := clear_ready hready hinv hsound hmem
  obtain ⟨d'', hmap, heq⟩ := Option.map_eq_some_iff.mp (applyMap_getElem st.rename hk hk')
  obtain rfl := Arg.mem.inj heq
  have hrename : applyMapReg st.map r = some r' := by
    have hregs := (applyMapMem_some hmap).2.2.1
    rw [hd, hd'] at hregs
    simp only [List.mapM_cons, List.mapM_nil, Option.bind_eq_bind, Option.pure_def,
      Option.bind_eq_some_iff, Option.some.injEq] at hregs
    obtain ⟨q, hq, _, rfl, heq⟩ := hregs
    cases heq
    exact hq
  have hread := readReg_applyMapReg (st.injective hinv.map) hready.ip hrename
  have hip : readReg (BitVec.ofNat 64 offset) (absRegs st.map c₂) r =
      readReg 0 (absRegs st.map c₂) r := by
    cases r <;> first | rfl | exact absurd hr (by decide)
  rw [Clear, hread, hip]
  exact hclear

/-- The line is not LEA, is marked `can_check` and has one memory operand: then each of its calls is
safe when the machine gets to it. -/
def Emitted.MaskSafe (isa : Isa) (world : World) (e : Emitted) (c : Machine) : Prop :=
  e.canCheck = true → e.line.name ≠ "LEA" → (e.line.args.filter Expr.isMem).length = 1 →
    ∀ steps step rest text₁ t₁ text₂ t₂ c₁ call,
      translate e.line e.blockEnd e.canCheck = steps ++ step :: rest →
      runSteps world e.offset steps e.before = some (text₁, t₁) →
      execText isa text₁ c = some c₁ →
      step.call world e.offset t₁.heap = some call → call.name ≠ "LEA" →
      step.run world e.offset t₁ = some (text₂, t₂) → call.Safe isa text₂ c₁

/-- Each call of the line keeps `checked_regs` right. -/
def Emitted.MaskSound (use : RegUse) (world : World) (e : Emitted) : Prop :=
  ∀ steps step rest text₁ t₁ call,
    translate e.line e.blockEnd e.canCheck = steps ++ step :: rest →
    runSteps world e.offset steps e.before = some (text₁, t₁) →
    step.call world e.offset t₁.heap = some call → call.Sound use t₁.checked

section Run

variable {isa : Isa} {use : RegUse} {world : World} {offset : Nat}

theorem CheckedInv.step (hisa : isa.Respects use) {step : Step} {t t' : TransState}
    {text : List Asm} {c c' : Machine} (hinv : CheckedInv t c) (henc : step.Encodable)
    (hsound : ∀ call, step.call world offset t.heap = some call → call.Sound use t.checked)
    (hrun : step.run world offset t = some (text, t')) (hexec : execText isa text c = some c') :
    CheckedInv t' c' := by
  cases hcall : step.call world offset t.heap with
  | some call =>
      obtain ⟨heap, ⟨st⟩⟩ := Step.stages hcall hinv.map hrun
      have hinv' : CheckedInv { t with heap := heap } c := ⟨hinv.map, hinv.clear⟩
      exact hinv'.step_call hisa st (hsound call hcall) hexec
  | none =>
      obtain ⟨hview, hchecked⟩ := Step.quiet hinv.map henc hcall hrun hexec
      refine ⟨Step.mapInv hinv.map hrun, fun r hr => ?_⟩
      obtain ⟨htmp, hclear⟩ := hinv.clear r (hchecked ▸ hr)
      exact ⟨htmp, hclear.sameView hview htmp⟩

theorem CheckedInv.steps (hisa : isa.Respects use) {steps : List Step} {t t' : TransState}
    {text : List Asm} {c c' : Machine} (hinv : CheckedInv t c)
    (henc : ∀ step ∈ steps, step.Encodable)
    (hsound : ∀ before step rest text₁ t₁ call, steps = before ++ step :: rest →
      runSteps world offset before t = some (text₁, t₁) →
      step.call world offset t₁.heap = some call → call.Sound use t₁.checked)
    (hrun : runSteps world offset steps t = some (text, t'))
    (hexec : execText isa text c = some c') : CheckedInv t' c' := by
  induction steps generalizing t text c with
  | nil =>
      cases hrun
      cases hexec
      exact hinv
  | cons step steps ih =>
      obtain ⟨text₁, t₁, text₂, hstep, hrest, rfl⟩ := Trans.andThen_some hrun
      obtain ⟨c₁, hexec₁, hexec₂⟩ := runAll_append_some.mp hexec
      have hfirst := fun call hcall => hsound [] step steps [] t call rfl rfl hcall
      have hinv₁ := hinv.step hisa (henc step List.mem_cons_self) hfirst hstep hexec₁
      refine ih hinv₁ (fun s hs => henc s (List.mem_cons_of_mem _ hs)) ?_ hrest hexec₂
      intro before step' rest text₃ t₃ call hsteps hbefore hcall
      refine hsound (step :: before) step' rest (text₁ ++ text₃) t₃ call (by rw [hsteps]; rfl) ?_
        hcall
      simp only [runSteps, Trans.andThen, hstep, hbefore, Option.bind_some, Option.map_some]

/-- `checked_regs` is right in front of every line that control gets to. -/
theorem translateLines_checkedInv (hisa : isa.Respects use) {lines : List Line} {offset : Nat}
    {canCheck : List Bool} {t t' : TransState} {emitted : List Emitted} {c : Machine}
    (henc : ∀ line ∈ lines, line.Encodable)
    (hrun : translateLines world lines offset canCheck t = some (emitted, t'))
    {i : Nat} (hsound : ∀ e ∈ emitted.take i, e.MaskSound use world) (hinv : CheckedInv t c)
    {e : Emitted} {c' : Machine} (hi : emitted[i]? = some e)
    (hexec : execText isa ((emitted.take i).flatMap Emitted.text) c = some c') :
    CheckedInv e.before c' := by
  induction lines generalizing offset canCheck t emitted c i with
  | nil =>
      cases hrun
      simp at hi
  | cons line lines ih =>
      obtain ⟨heap, flag, text, after, rest, -, -, hsteps, hrest, rfl⟩ := translateLines_cons hrun
      have hinv' : CheckedInv { t with heap := heap } c := ⟨hinv.map, hinv.clear⟩
      cases i with
      | zero =>
          cases hi
          cases hexec
          exact hinv'
      | succ i =>
          rw [List.take_succ_cons] at hsound
          rw [List.take_succ_cons, List.flatMap_cons] at hexec
          obtain ⟨c₁, hexec₁, hexec₂⟩ := runAll_append_some.mp hexec
          have hline := hsound _ List.mem_cons_self
          have hinv₁ := hinv'.steps hisa
            (translate_encodable (henc line List.mem_cons_self) lines.isEmpty flag) hline hsteps
            hexec₁
          exact ih (fun l hl => henc l (List.mem_cons_of_mem _ hl)) hrest
            (fun e' he' => hsound e' (List.mem_cons_of_mem _ he')) hinv₁ hi hexec₂

theorem translateLines_encodable {lines : List Line} {offset : Nat} {canCheck : List Bool}
    {t t' : TransState} {emitted : List Emitted} (henc : ∀ line ∈ lines, line.Encodable)
    (hrun : translateLines world lines offset canCheck t = some (emitted, t')) :
    ∀ e ∈ emitted, e.line.Encodable := by
  induction lines generalizing offset canCheck t emitted with
  | nil =>
      cases hrun
      simp
  | cons line lines ih =>
      obtain ⟨heap, flag, text, after, rest, -, -, -, hrest, rfl⟩ := translateLines_cons hrun
      exact List.forall_mem_cons.mpr ⟨henc line List.mem_cons_self,
        ih (fun l hl => henc l (List.mem_cons_of_mem _ hl)) hrest⟩

/-- **Address masks with elision.** If every call up to a line of a block keeps `checked_regs` right,
and the line is marked `can_check` and has one memory operand, then it computes its address from a
base register whose bit 63 is clear, from every initial state and on every path through the block. -/
theorem address_masks_sound (hisa : isa.Respects use) {address : Nat} {block : Block}
    {t t' : TransState} {emitted : List Emitted} (henc : ∀ line ∈ block.lines, line.Encodable)
    (hrun : translateBlock world address block t = some (emitted, t'))
    {i : Nat} (hsound : ∀ e ∈ emitted.take (i + 1), e.MaskSound use world) (c : Machine)
    {e : Emitted} {c' : Machine} (hi : emitted[i]? = some e)
    (hexec : execText isa ((emitted.take i).flatMap Emitted.text) c = some c') :
    e.MaskSafe isa world c' := by
  have hstart : CheckedInv t.atBlock c := ⟨mapInv_blockInit, fun r hr => absurd hr List.not_mem_nil⟩
  have hbefore : ∀ e ∈ emitted.take i, e.MaskSound use world := fun e he =>
    hsound e (List.take_subset_take_left emitted (Nat.le_succ i) he)
  have hinv := translateLines_checkedInv hisa henc hrun hbefore hstart hi hexec
  have hmem := List.mem_of_getElem? hi
  have hline : e.MaskSound use world := by
    refine hsound e ?_
    rw [List.take_add_one, hi]
    exact List.mem_append_right _ List.mem_cons_self
  have hsteps := translate_encodable (translateLines_encodable henc hrun e hmem) e.blockEnd e.canCheck
  intro _ _ _ steps step rest text₁ t₁ text₂ t₂ c₁ call htrans hbefore hexec₁ hcall hname hstep
  have hinv₁ : CheckedInv t₁ c₁ := by
    refine hinv.steps hisa (fun s hs => hsteps s ?_) ?_ hbefore hexec₁
    · rw [htrans]
      exact List.mem_append_left _ hs
    · intro before step' rest' text₃ t₃ call' hsplit
      refine hline before step' (rest' ++ step :: rest) text₃ t₃ call' ?_
      rw [htrans, hsplit]
      simp
  obtain ⟨heap, ⟨st⟩⟩ := Step.stages hcall hinv₁.map hstep
  have hinv₂ : CheckedInv { t₁ with heap := heap } c₁ := ⟨hinv₁.map, hinv₁.clear⟩
  exact Call.safe_of_inv st hname hinv₂ (hline steps step rest text₁ t₁ call htrans hbefore hcall)

end Run

def loadWord (mem : BitVec 64 → BitVec 8) (a : BitVec 64) : BitVec 64 :=
  mem (a + 7) ++ mem (a + 6) ++ mem (a + 5) ++ mem (a + 4) ++ mem (a + 3) ++ mem (a + 2) ++
    mem (a + 1) ++ mem a

/-- An instruction set in which only a 64-bit load does anything. -/
def loadIsa : Isa where
  exec name operands _ env :=
    match name, operands with
    | "MOV", [.reg 64 _, .mem 64 a] => some ⟨[some (loadWord env.mem a)], fun _ => none, env⟩
    | _, _ => some ⟨[], fun _ => none, env⟩
  shiftFlags _ _ flags := flags

/-- `MOV dst, [base]` -/
def movLoad (dst base : Gpr) : Line :=
  { name := "MOV", args := [.id (.gpr dst .q), .mem 64 none (.id (.gpr base .q))], l := 3 }

def addImm (dst : Gpr) (n : Nat) : Line :=
  { name := "ADD", args := [.id (.gpr dst .q), .int ⟨n, 64⟩], l := 4 }

/-- A state with all memory set. -/
def onesMachine : Machine where
  regs _ := 0x1000
  env := { flags := fun _ => false, mem := fun _ => 0xFF, vec := fun _ => 0 }
  frame _ := 0

/-- The translator's state in a block that moves no register and changes no operand. -/
def plainState (checked : List ExprId) : TransState := ⟨blockInit, checked, .fresh, 0⟩

/-- The code of `MOV RAX, [RAX]`, `MOV RCX, [RAX]`, `ADD RDX, 1`. -/
def reloadedBase : List Emitted :=
  let rax : ExprId := .gpr .rax .q
  [⟨movLoad .rax .rax, 0x401003, false, true, plainState [],
      [.shl rax, .shr rax, .inst "MOV" [.reg rax, .mem ⟨64, [rax], none, none⟩]], plainState [rax]⟩,
    ⟨movLoad .rcx .rax, 0x401006, false, true, plainState [rax],
      [.inst "MOV" [.reg (.gpr .rcx .q), .mem ⟨64, [rax], none, none⟩]], plainState [rax]⟩,
    ⟨addImm .rdx 1, 0x40100a, true, true, plainState [rax],
      [.inst "ADD" [.reg (.gpr .rdx .q), .int ⟨1, 64⟩]], plainState [rax]⟩]

theorem translate_reloadedBase :
    translateBlock .standard 0x401000
      ⟨[movLoad .rax .rax, movLoad .rcx .rax, addImm .rdx 1], []⟩ .start =
        some (reloadedBase, plainState [.gpr .rax .q]) := by
  have hflags : checkFlagDefUse [movLoad .rax .rax, movLoad .rcx .rax, addImm .rdx 1] =
      [true, true, true] := by
    decide
  rw [translateBlock, hflags]
  exact translateLines_step rfl rfl rfl
    (translateLines_step rfl rfl rfl (translateLines_step rfl rfl rfl rfl))

/-- The first line masks RAX, loads it and keeps it in `checked_regs`, so that the second line uses
as its address what was loaded. -/
theorem address_mask_lost_by_load :
    ¬∀ emitted t' e c', translateBlock .standard 0x401000
        ⟨[movLoad .rax .rax, movLoad .rcx .rax, addImm .rdx 1], []⟩ .start = some (emitted, t') →
      emitted[1]? = some e →
      execText loadIsa ((emitted.take 1).flatMap Emitted.text) onesMachine = some c' →
      e.MaskSafe loadIsa .standard c' := by
  intro h
  have hexec : ∃ c', execText loadIsa ((reloadedBase.take 1).flatMap Emitted.text) onesMachine =
      some c' ∧ (readReg 0 c'.regs (.gpr .rax .q)).getLsbD 63 = true := ⟨_, rfl, by decide⟩
  obtain ⟨c', hc', hbit⟩ := hexec
  have hsafe := h _ _ _ c' translate_reloadedBase rfl hc'
  have hclear : Clear c'.regs (.gpr .rax .q) :=
    hsafe rfl (by decide) rfl [] _ _ [] _ _ _ c' _ rfl rfl rfl rfl (by decide) rfl
      c' _ 1 _ _ _ _ rfl rfl rfl rfl rfl rfl rfl
  exact absurd (hclear.symm.trans hbit) (by decide)

/-- What `loadIsa` writes. -/
def loadUse : RegUse where
  operand name k := name = "MOV" ∧ k = 0
  hidden _ _ := false

theorem loadIsa_respects : loadIsa.Respects loadUse := by
  constructor
  · intro name operands hidden env e he k value hk
    simp only [loadIsa] at he
    split at he <;> cases he
    · cases k with
      | zero => rfl
      | succ k => cases hk
    · cases hk
  · intro name operands hidden env e he g value hg
    simp only [loadIsa] at he
    split at he <;> cases he <;> cases hg

/-- A line with one call, whose writes the table allows. -/
theorem Emitted.maskSound_of_normal {use : RegUse} {world : World} {e : Emitted} {name : String}
    {args : List Expr} {canCheck blockEnd : Bool}
    (htrans : translate e.line e.blockEnd e.canCheck = [.normal name args canCheck, .release blockEnd])
    (h : (Call.of name args canCheck e.before.heap).Sound use e.before.checked) :
    e.MaskSound use world := by
  intro steps step rest text₁ t₁ call hsplit hrun hcall
  rw [htrans] at hsplit
  rcases List.cons_eq_append_iff.mp hsplit with ⟨rfl, heq⟩ | ⟨steps', rfl, heq⟩
  · obtain ⟨rfl, rfl⟩ := List.cons.inj heq
    cases hrun
    cases hcall
    exact h
  · rcases List.cons_eq_append_iff.mp heq with ⟨rfl, heq'⟩ | ⟨steps'', rfl, heq'⟩
    · obtain ⟨rfl, rfl⟩ := List.cons.inj heq'
      cases hcall
    · simp at heq'

/-- The code of `MOV RCX, [RAX]`, `MOV RDX, [RAX]`, `ADD RSI, 1`: the second mask is elided. -/
def sharedBase : List Emitted :=
  let rax : ExprId := .gpr .rax .q
  [⟨movLoad .rcx .rax, 0x401003, false, true, plainState [],
      [.shl rax, .shr rax, .inst "MOV" [.reg (.gpr .rcx .q), .mem ⟨64, [rax], none, none⟩]],
      plainState [rax]⟩,
    ⟨movLoad .rdx .rax, 0x401006, false, true, plainState [rax],
      [.inst "MOV" [.reg (.gpr .rdx .q), .mem ⟨64, [rax], none, none⟩]], plainState [rax]⟩,
    ⟨addImm .rsi 1, 0x40100a, true, true, plainState [rax],
      [.inst "ADD" [.reg (.gpr .rsi .q), .int ⟨1, 64⟩]], plainState [rax]⟩]

theorem translate_sharedBase :
    translateBlock .standard 0x401000
      ⟨[movLoad .rcx .rax, movLoad .rdx .rax, addImm .rsi 1], []⟩ .start =
        some (sharedBase, plainState [.gpr .rax .q]) := by
  have hflags : checkFlagDefUse [movLoad .rcx .rax, movLoad .rdx .rax, addImm .rsi 1] =
      [true, true, true] := by
    decide
  rw [translateBlock, hflags]
  exact translateLines_step rfl rfl rfl
    (translateLines_step rfl rfl rfl (translateLines_step rfl rfl rfl rfl))

theorem sound_loadUse {call : Call} {checked : List ExprId}
    (hmasked : masked (toCheckRegs call.name call.args checked) call.canCheck =
      toCheckRegs call.name call.args checked)
    (htmp : ∀ r ∈ toCheckRegs call.name call.args checked, r.virt = none)
    (hfirst : ∀ r ∈ checkedAfter call.name call.args checked, call.args[0]? ≠ some (.reg r)) :
    call.Sound loadUse checked where
  masked := hmasked
  noTmp r hr v hv := by
    rw [htmp r hr] at hv
    cases hv
  operand k r hk huse _ hmem := by
    have hzero : k = 0 := (of_decide_eq_true huse).2
    rw [hzero] at hk
    exact hfirst r hmem hk
  hidden g huse := by cases huse

theorem sharedBase_sound : ∀ e ∈ sharedBase, e.MaskSound loadUse .standard := by
  simp only [sharedBase, List.forall_mem_cons]
  refine ⟨?_, ?_, ?_, by simp⟩
  · exact Emitted.maskSound_of_normal rfl (sound_loadUse (by decide) (by decide) (by decide))
  · exact Emitted.maskSound_of_normal rfl (sound_loadUse (by decide) (by decide) (by decide))
  · exact Emitted.maskSound_of_normal rfl (sound_loadUse (by decide) (by decide) (by decide))

/-- The second load of this block runs with bit 63 of RAX clear. -/
theorem address_masks_sound_sharedBase :
    ∃ c', execText loadIsa ((sharedBase.take 1).flatMap Emitted.text) onesMachine = some c' ∧
      (sharedBase[1]).MaskSafe loadIsa .standard c' := by
  have hplain : ∀ line ∈ [movLoad .rcx .rax, movLoad .rdx .rax, addImm .rsi 1],
      line.name ∉ conditionalBranch := by
    decide
  refine ⟨_, rfl, ?_⟩
  refine address_masks_sound loadIsa_respects (fun line hline hname => ?_) translate_sharedBase
    (i := 1) (fun e he => sharedBase_sound e (List.mem_of_mem_take he)) onesMachine rfl rfl
  exact absurd hname (hplain line hline)

end UserspaceBypass
