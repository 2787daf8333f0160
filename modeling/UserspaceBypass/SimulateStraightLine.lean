import UserspaceBypass.SimulateNormal

/-! Lists of ordinary instructions. The simulation of one instruction is chained over a list of any
length, for every pop order, and ended by `release_conflict`. -/

namespace UserspaceBypass

open StraightLine

variable {isa : Isa}

theorem conflictResolve_map {m m' : RegMap} (hm : MapInv m) {order : PopOrder}
    {conflict : List Virt} {offset : Nat} {text : List Asm}
    (h : conflictResolve order m conflict offset = some (text, m')) (p : Phys) :
    m' p = m p ∨ ∃ v ∈ conflict, (∀ q, m q ≠ some v) ∧ m' p = some v := by
  rcases (resolveLoop_map (hm.poolsOk order conflict) h).2.2.1 p with hp | ⟨v, hv, hp⟩
  · exact Or.inl hp
  · obtain ⟨hmem, habsent⟩ := mem_toBeResolved.mp ((order.iter_perm _).mem_iff.mp hv)
    exact Or.inr ⟨v, hmem, habsent, hp⟩

theorem conflictResolve_atHome {m m' : RegMap} (hm : MapInv m) {order : PopOrder}
    {conflict : List Virt} {offset : Nat} {text : List Asm}
    (h : conflictResolve order m conflict offset = some (text, m')) : m'.AtHome := by
  constructor
  · intro p hp
    rcases conflictResolve_map hm h p with hsame | ⟨v, _, habsent, hv⟩
    · exact hm.atHome.1 p (hsame ▸ hp)
    · rw [hp] at hv
      cases hv
      exact absurd hm.sp (habsent .p13)
  · intro p hp
    rcases conflictResolve_map hm h p with hsame | ⟨v, _, habsent, hv⟩
    · exact hm.atHome.2 p (hsame ▸ hp)
    · rw [hp] at hv
      cases hv
      exact absurd hm.bp (habsent .p12)

theorem conflictResolve_injective {m m' : RegMap} (hm : MapInv m) {order : PopOrder}
    {conflict : List Virt} {offset : Nat} {text : List Asm}
    (h : conflictResolve order m conflict offset = some (text, m')) : m'.Injective :=
  (resolveLoop_map (hm.poolsOk order conflict) h).1

/-- No temporary is in the pools. -/
theorem conflictResolve_place {m m' : RegMap} (hm : MapInv m) {order : PopOrder}
    {conflict : List Virt} {offset : Nat} {text : List Asm}
    (h : conflictResolve order m conflict offset = some (text, m')) {p : Phys} {v : Virt}
    (hv : v.isTmp) (hp : m p = some v) : m' p = some v := by
  have hstable : v ∈ stableRegs := by
    cases v <;> first | decide | cases hv
  refine ((resolveLoop_map (hm.poolsOk _ _) h).2.2.2.1 p fun hmem => ?_).trans hp
  simp only [List.mem_append, (order.idle_perm _).mem_iff, (order.victim_perm _).mem_iff,
    (order.stable_perm _).mem_iff, mem_idleRegs, mem_possibleVictims, mem_possibleStableVictims,
    hp] at hmem
  rcases hmem with (h | ⟨w, hw, _, hns⟩) | ⟨w, hw, _, hw'⟩
  · cases h
  · cases hw
    exact hns hstable
  · cases hw
    rcases hw' with rfl | rfl <;> cases hv

/-- The machine when an emitted instruction is about to execute: operands in place (`c₁`), then
masked (`c₂`). -/
structure Ready (isa : Isa) {world : World} {name : String} {args : List Arg} {offset : Nat}
    {canCheck : Bool} {t t' : TransState} {text : List Asm}
    (st : Stages world name args offset canCheck t text t') (c c₁ c₂ : Machine) : Prop where
  pre : execText isa st.pre c = some c₁
  moved : Keeps t.regMap c st.map c₁
  masks : execText isa (checkInst st.toCheck' canCheck) c₁ = some c₂
  masked : abs st.map c₂ = (masked (toCheckRegs name args t.checked) canCheck).foldl
    (State.mask isa (BitVec.ofNat 64 offset)) (abs st.map c₁)
  ip : IpAt st.map c₂ offset

theorem virt_ne_ip_of_masked {name : String} {args : List Arg} {checked : List ExprId}
    {canCheck : Bool} :
    ∀ r ∈ masked (toCheckRegs name args checked) canCheck, r.virt ≠ some .ip := by
  intro r hr
  rcases masked_sublist (toCheckRegs name args checked) canCheck with h | h
  · exact virt_ne_ip_of_toCheck (h ▸ hr)
  · rw [h] at hr
    exact absurd hr List.not_mem_nil

namespace Stages

variable {world : World} {name : String} {args : List Arg} {offset : Nat} {canCheck : Bool}
  {t t' : TransState} {text : List Asm}

theorem injective (st : Stages world name args offset canCheck t text t') (hm : MapInv t.regMap) :
    st.map.Injective := conflictResolve_injective hm st.resolve

theorem released_atHome (st : Stages world name args offset canCheck t text t')
    (hm : MapInv t.regMap) : (releaseIP st.map).AtHome := by
  have hhome := conflictResolve_atHome hm st.resolve
  have hinj := st.injective hm
  exact ⟨fun p hp => hhome.1 p ((releaseIP_iff hinj).mp hp).1,
    fun p hp => hhome.2 p ((releaseIP_iff hinj).mp hp).1⟩

/-- The map is back in its normal form after the instruction. -/
theorem mapInv (st : Stages world name args offset canCheck t text t') (hm : MapInv t.regMap) :
    MapInv t'.regMap := by
  rw [st.map_eq]
  exact mapInv_recoverStable (releaseIP_injective (st.injective hm)) (st.released_atHome hm)
    fun p hp => ((releaseIP_iff (st.injective hm)).mp hp).2 rfl

theorem map_tmp (st : Stages world name args offset canCheck t text t') (hm : MapInv t.regMap)
    (htmp : ∀ v ∈ conflictRegs args, v.isTmp → t.regMap.Resident v) {v : Virt} (hv : v.isTmp)
    (h : st.map.Resident v) : t.regMap.Resident v := by
  obtain ⟨p, hp⟩ := h
  rcases conflictResolve_map hm st.resolve p with hsame | ⟨w, hw, habsent, hp'⟩
  · exact ⟨p, hsame ▸ hp⟩
  · rw [hp] at hp'
    cases hp'
    obtain ⟨q, hq⟩ := htmp v hw hv
    exact absurd hq (habsent q)

theorem tmp_of_after (st : Stages world name args offset canCheck t text t') (hm : MapInv t.regMap)
    {v : Virt} (hv : v.isTmp) (h : t'.regMap.Resident v) : st.map.Resident v := by
  obtain ⟨p, hp⟩ := h
  rw [st.map_eq, recoverStable_map (st.released_atHome hm)] at hp
  rcases update_some_iff.mp hp with ⟨_, rfl⟩ | ⟨_, hp⟩
  · cases hv
  rcases update_some_iff.mp hp with ⟨_, rfl⟩ | ⟨_, hp⟩
  · cases hv
  exact ⟨p, ((releaseIP_iff (st.injective hm)).mp hp).1⟩

/-- After the instruction proper: RIP is dropped and SP and BP come back. -/
theorem exec_post (isa : Isa) (st : Stages world name args offset canCheck t text t') (hm : MapInv t.regMap)
    (hsp : RecoverOk (releaseIP st.map) .sp .p13) (hbp : RecoverOk (releaseIP st.map) .bp .p12)
    (c : Machine) :
    ∃ c', execText isa (recoverStable (releaseIP st.map)).1 c = some c' ∧
      Keeps st.map c t'.regMap c' ∧ abs t'.regMap c' = abs st.map c := by
  have hinj := st.injective hm
  obtain ⟨c', hexec, hkeeps, _⟩ := exec_recoverStable isa (releaseIP_injective hinj)
    (st.released_atHome hm) hsp hbp c
  have hall := (Keeps.releaseIP hinj c).trans hkeeps
  rw [← st.map_eq] at hall
  exact ⟨c', hexec, hall, hall.abs_eq fun v hv => st.tmp_of_after hm hv⟩

theorem ready (isa : Isa) (st : Stages world name args offset canCheck t text t')
    (hm : MapInv t.regMap) (c : Machine) : ∃ c₁ c₂, Ready isa st c c₁ c₂ := by
  obtain ⟨c₁, hpre, hkeeps, hinj, hip₁⟩ := exec_conflictResolve isa hm st.resolve c
  obtain ⟨c₂, hmasks, habs, hip₂⟩ := exec_masks isa hinj (mapM_masked st.renameCheck canCheck)
    virt_ne_ip_of_masked c₁ hip₁
  rw [← checkInst_eq] at hmasks
  exact ⟨c₁, c₂, hpre, hkeeps, hmasks, habs, hip₂⟩

/-- An executed call: the instruction takes `c₂` to `c₃`, then SP and BP come back. -/
theorem phases (st : Stages world name args offset canCheck t text t') (hm : MapInv t.regMap)
    {c c' : Machine} (h : execText isa text c = some c') :
    ∃ c₁ c₂ c₃, Ready isa st c c₁ c₂ ∧ (Asm.inst name st.args').exec isa c₂ = some c₃ ∧
      Keeps st.map c₃ t'.regMap c' := by
  obtain ⟨c₁, c₂, hready⟩ := st.ready isa hm c
  have htext := (congrArg (execText isa · c) st.text_eq).symm.trans h
  obtain ⟨_, hpre, hrest⟩ := runAll_append_some.mp htext
  obtain rfl := Option.some.inj (hready.pre.symm.trans hpre)
  obtain ⟨_, hmasks, hrest⟩ := runAll_append_some.mp hrest
  obtain rfl := Option.some.inj (hready.masks.symm.trans hmasks)
  obtain ⟨c₃, hinst, hpost⟩ := runAll_append_some.mp hrest
  rw [runAll_singleton] at hinst
  obtain ⟨hsp, hbp⟩ := recoverOk_of_exec (st.released_atHome hm) hpost
  obtain ⟨c₄, hpost', hback, _⟩ := st.exec_post isa hm hsp hbp c₃
  obtain rfl : c' = c₄ := Option.some.inj (hpost.symm.trans hpost')
  exact ⟨c₁, c₂, c₃, hready, hinst, hback⟩

/-- **One ordinary instruction.** Executing its text and looking at the abstract state is masking
what the line masks and executing the original. -/
theorem exec_eq (isa : Isa) (st : Stages world name args offset canCheck t text t')
    (hm : MapInv t.regMap) (htmp : ∀ v ∈ conflictRegs args, v.isTmp → t.regMap.Resident v)
    (hsp : RecoverOk (releaseIP st.map) .sp .p13) (hbp : RecoverOk (releaseIP st.map) .bp .p12)
    (c : Machine) :
    (execText isa text c).map (abs t'.regMap) =
      execInst isa (BitVec.ofNat 64 offset) name args
        ((masked (toCheckRegs name args t.checked) canCheck).foldl
          (State.mask isa (BitVec.ofNat 64 offset)) (abs t.regMap c)) := by
  obtain ⟨c₁, c₂, hready⟩ := st.ready isa hm c
  have habs₁ : abs st.map c₁ = abs t.regMap c :=
    hready.moved.abs_eq fun v hv => st.map_tmp hm htmp hv
  have hinst := exec_applyMap isa name (st.injective hm) hready.ip st.rename
  rw [hready.masked, habs₁] at hinst
  have hrun : execText isa text c = ((Asm.inst name st.args').exec isa c₂).bind
      (execText isa (recoverStable (releaseIP st.map)).1) := by
    refine (congrArg (execText isa · c) st.text_eq).trans ?_
    have hpre := hready.pre
    have hmasks := hready.masks
    simp only [execText] at hpre hmasks ⊢
    rw [runAll_append, hpre, Option.bind_some, runAll_append, hmasks, Option.bind_some,
      runAll_append, runAll_singleton]
    rfl
  rw [← hinst, hrun]
  cases (Asm.inst name st.args').exec isa c₂ with
  | none => rfl
  | some c₃ =>
      obtain ⟨c₄, hexec₄, _, habs₄⟩ := st.exec_post isa hm hsp hbp c₃
      rw [Option.bind_some, hexec₄, Option.map_some, Option.map_some, habs₄]

/-- A call that executes has handed back the homes of SP and BP. -/
theorem recoverOk_of_text (st : Stages world name args offset canCheck t text t')
    (hm : MapInv t.regMap) {c c' : Machine} (h : execText isa text c = some c') :
    RecoverOk (releaseIP st.map) .sp .p13 ∧ RecoverOk (releaseIP st.map) .bp .p12 := by
  rw [execText, st.text_eq] at h
  obtain ⟨_, _, h⟩ := runAll_append_some.mp h
  obtain ⟨_, _, h⟩ := runAll_append_some.mp h
  obtain ⟨_, _, h⟩ := runAll_append_some.mp h
  exact recoverOk_of_exec (st.released_atHome hm) h

/-- A call without masks, executed: the original instruction on the abstract state. -/
theorem simulates (st : Stages world name args offset false t text t') (hm : MapInv t.regMap)
    (htmp : ∀ v ∈ conflictRegs args, v.isTmp → t.regMap.Resident v) {c c' : Machine}
    (h : execText isa text c = some c') :
    execInst isa (BitVec.ofNat 64 offset) name args (abs t.regMap c) = some (abs t'.regMap c') := by
  obtain ⟨hsp, hbp⟩ := st.recoverOk_of_text hm h
  have hexec := st.exec_eq isa hm htmp hsp hbp c
  rw [h] at hexec
  simpa only [masked, or_true, if_true, List.foldl_nil, Option.map_some] using hexec.symm

/-- A call without masks executes where the original instruction does. -/
theorem executes (st : Stages world name args offset false t text t') (hm : MapInv t.regMap)
    (htmp : ∀ v ∈ conflictRegs args, v.isTmp → t.regMap.Resident v)
    (hok : RecoverOk (releaseIP st.map) .sp .p13 ∧ RecoverOk (releaseIP st.map) .bp .p12)
    {c : Machine} {s : State}
    (h : execInst isa (BitVec.ofNat 64 offset) name args (abs t.regMap c) = some s) :
    ∃ c', execText isa text c = some c' ∧ abs t'.regMap c' = s := by
  have hexec := st.exec_eq isa hm htmp hok.1 hok.2 c
  simp only [masked, or_true, if_true, List.foldl_nil, h] at hexec
  exact Option.map_eq_some_iff.mp hexec

/-- A temporary stays where it is while the operands are brought in and after the instruction. -/
theorem tmp_place (st : Stages world name args offset canCheck t text t') (hm : MapInv t.regMap)
    {p : Phys} {v : Virt} (hv : v.isTmp) (hp : t.regMap p = some v) :
    st.map p = some v ∧ t'.regMap p = some v := by
  have hmap := conflictResolve_place hm st.resolve hv hp
  have hne : ∀ q u, t.regMap q = some u → u.isTmp = false → p ≠ q := by
    rintro q u hq hu rfl
    rw [hp] at hq
    cases hq
    rw [hv] at hu
    cases hu
  refine ⟨hmap, ?_⟩
  rw [st.map_eq, recoverStable_map (st.released_atHome hm),
    Function.update_of_ne (hne _ _ hm.bp rfl), Function.update_of_ne (hne _ _ hm.sp rfl)]
  refine (releaseIP_iff (st.injective hm)).mpr ⟨hmap, ?_⟩
  rintro rfl
  cases hv

end Stages

/-- The instruction never writes the register through an operand. -/
def NotWritten (isa : Isa) (name : String) (args : List Arg) (v : Virt) : Prop :=
  ∀ operands hidden env e, isa.exec name operands hidden env = some e →
    ∀ (k : Nat) value r, e.writes[k]? = some (some value) → args[k]? = some (.reg r) →
      r.virt ≠ some v

theorem notWritten_of_not_mem {name : String} {args : List Arg} {v : Virt}
    (hv : v ∉ operandVirts args) : NotWritten isa name args v := by
  intro _ _ _ _ _ k _ r _ hk hr
  exact hv (List.mem_filterMap.mpr ⟨.reg r, List.mem_of_getElem? hk, hr⟩)

/-- The instruction proper keeps a register it does not write in step with its slot. -/
theorem synced_inst {m : RegMap} {name : String} {args args' : List Arg} {c c' : Machine}
    (hargs : applyMap m args = some args') (h : (Asm.inst name args').exec isa c = some c')
    {v : Virt} (hv : NotWritten isa name args v) (hs : Synced m c v) : Synced m c' v := by
  intro p k hp hk
  simp only [Asm.exec, execInst, Option.map_map, Option.map_eq_some_iff] at h
  obtain ⟨e, he, rfl⟩ := h
  have hkeep : writeArgs args' e.writes c.regs (.gpr p.gpr) = c.regs (.gpr p.gpr) :=
    writeArgs_of_not_written hargs hp (hv _ _ _ e he) c.regs
  exact (writeHidden_phys _ _ p).trans (hkeep.trans (hs p k hp hk))

/-- Registers and slots stay in step over an instruction that neither writes nor masks them. -/
theorem Stages.synced {world : World} {name : String} {args : List Arg} {offset : Nat}
    {canCheck : Bool} {t t' : TransState} {text : List Asm}
    (st : Stages world name args offset canCheck t text t') (hm : MapInv t.regMap)
    {c c' : Machine} (h : execText isa text c = some c') {v : Virt} (hip : v ≠ .ip)
    (hv : NotWritten isa name args v)
    (hmask : ∀ r ∈ masked (toCheckRegs name args t.checked) canCheck, r.virt ≠ some v)
    (hs : Synced t.regMap c v) : Synced t'.regMap c' v := by
  obtain ⟨c₁, c₂, c₃, hready, hinst, hback⟩ := st.phases hm h
  have hmasks := hready.masks
  rw [checkInst_eq] at hmasks
  have hs₁ := hready.moved.sync v hip hs
  have hs₂ := synced_masks (mapM_masked st.renameCheck canCheck) hmask hmasks hs₁
  exact hback.sync v hip (synced_inst st.rename hinst hv hs₂)

/-- What `release_conflict` saves. -/
def Virt.Flushed (v : Virt) : Prop := v ∉ stableRegs ∧ v ≠ .fs ∧ v ≠ .gs

theorem saveResident_flushed {m : RegMap} {p : Phys} {v : Virt} (hp : m p = some v)
    (hv : v.Flushed) : saveResident m p = some (.store (some v) p) := by
  simp only [saveResident, hp, if_neg hv.1, if_pos hv.2]

theorem saveResident_none {m : RegMap} {p : Phys} (h : ¬∃ v, m p = some v ∧ v.Flushed) :
    saveResident m p = none := by
  cases hp : m p with
  | none => simp only [saveResident, hp]
  | some v =>
      by_cases hstable : v ∈ stableRegs
      · simp only [saveResident, hp, if_pos hstable]
      · have hseg : ¬(v ≠ .fs ∧ v ≠ .gs) := fun hseg => h ⟨v, hp, hstable, hseg⟩
        simp only [saveResident, hp, if_neg hstable, if_neg hseg]

/-- Saving the residents of a list of physical registers. -/
theorem exec_saveResident (isa : Isa) {m : RegMap} (hm : m.Injective) (ps : List Phys) (c : Machine) :
    ∃ c', execText isa (ps.filterMap (saveResident m)) c = some c' ∧ c'.regs = c.regs ∧
      c'.env = c.env ∧
      (∀ p ∈ ps, ∀ v k, m p = some v → v.Flushed → v.slot = some k →
        c'.frame k = c.regs (.gpr p.gpr)) ∧
      (∀ v k, v.slot = some k → (∀ p ∈ ps, m p ≠ some v) ∨ ¬v.Flushed →
        c'.frame k = c.frame k) := by
  induction ps generalizing c with
  | nil => exact ⟨c, rfl, rfl, rfl, fun p hp => absurd hp List.not_mem_nil, fun _ _ _ _ => rfl⟩
  | cons p ps ih =>
      by_cases hflush : ∃ v, m p = some v ∧ v.Flushed
      · obtain ⟨v, hp, hv⟩ := hflush
        obtain ⟨k, hk⟩ := slot_of_not_stable hv.1
        obtain ⟨c', hexec, hregs, henv, hin, hout⟩ := ih (c.setSlot k (c.regs (.gpr p.gpr)))
        refine ⟨c', ?_, hregs, henv, ?_, ?_⟩
        · rw [List.filterMap_cons_some (saveResident_flushed hp hv), execText, runAll_cons, Asm.exec,
            Option.bind_some, hk]
          exact hexec
        · intro q hq w j hqw hw hj
          rcases List.mem_cons.mp hq with rfl | hq
          · rw [hp] at hqw
            cases hqw
            obtain rfl : k = j := Option.some.inj (hk.symm.trans hj)
            by_cases hlater : ∃ q' ∈ ps, m q' = some v
            · obtain ⟨q', hq', hv'⟩ := hlater
              obtain rfl := hm q' q v hv' hp
              exact hin q' hq' v k hv' hv hk
            · rw [hout v k hk (Or.inl fun q' hq' hv' => hlater ⟨q', hq', hv'⟩)]
              exact Function.update_self ..
          · exact hin q hq w j hqw hw hj
        · intro w j hj hw
          have hwv : w ≠ v := by
            rintro rfl
            rcases hw with hw | hw
            · exact hw p List.mem_cons_self hp
            · exact hw hv
          have hjk : j ≠ k := fun h => hwv (Virt.slot_injective hj (by rw [hk, h]))
          rw [hout w j hj (hw.imp_left fun h q hq => h q (List.mem_cons_of_mem _ hq))]
          exact setSlot_frame_ne c hjk _
      · obtain ⟨c', hexec, hregs, henv, hin, hout⟩ := ih c
        refine ⟨c', ?_, hregs, henv, ?_, ?_⟩
        · rw [List.filterMap_cons_none (saveResident_none hflush)]
          exact hexec
        · intro q hq w j hqw hw hj
          rcases List.mem_cons.mp hq with rfl | hq
          · exact absurd ⟨w, hqw, hw⟩ hflush
          · exact hin q hq w j hqw hw hj
        · intro w j hj hw
          exact hout w j hj (hw.imp_left fun h q hq => h q (List.mem_cons_of_mem _ hq))

/-- **`release_conflict`.** Afterwards every slot it saves to holds the value of its register, resident
or not; no register and no other slot changes. -/
theorem exec_releaseConflict (isa : Isa) {m : RegMap} (hm : m.Injective) (c : Machine) :
    ∃ c', execText isa (releaseConflict m true) c = some c' ∧ c'.regs = c.regs ∧ c'.env = c.env ∧
      (∀ (v : Virt) k, v.slot = some k → v.Flushed → c'.frame k = virtValue m c v) ∧
      (∀ (v : Virt) k, v.slot = some k → ¬v.Flushed → c'.frame k = c.frame k) := by
  obtain ⟨c', hexec, hregs, henv, hin, hout⟩ := exec_saveResident isa hm Phys.all c
  refine ⟨c', ?_, hregs, henv, fun v k hk hv => ?_, fun v k hk hv => hout v k hk (Or.inr hv)⟩
  · rw [releaseConflict, if_pos rfl]
    exact hexec
  · by_cases hres : m.Resident v
    · obtain ⟨p, hp⟩ := hres
      rw [hin p p.mem_all v k hp hv hk, virtValue_resident hm c hp]
    · have habsent : ∀ p, m p ≠ some v := fun p hp => hres ⟨p, hp⟩
      rw [hout v k hk (Or.inl fun p _ => habsent p), virtValue_absent c habsent, hk]
      rfl

/-- A map under which every register has the value it has under another. -/
theorem absRegs_congr {m m' : RegMap} {c c' : Machine} (hregs : c'.regs = c.regs)
    (h : ∀ v, v ≠ .ip → virtValue m' c' v = virtValue m c v) : absRegs m' c' = absRegs m c := by
  funext f
  cases hf : f.virt with
  | none => rw [absRegs_plain hf, absRegs_plain hf, hregs]
  | some v => rw [absRegs_virt hf, absRegs_virt hf, h v fun hv => family_virt_ne_ip f (hv ▸ hf)]

theorem abs_releaseConflict {m : RegMap} (hm : m.Injective) {c c' : Machine}
    (h : execText isa (releaseConflict m true) c = some c') : abs m c' = abs m c := by
  obtain ⟨c₁, hexec, hregs, henv, hin, hout⟩ := exec_releaseConflict isa hm c
  obtain rfl : c' = c₁ := Option.some.inj (h.symm.trans hexec)
  rw [abs, abs, henv]
  refine congrArg (State.mk · _) (absRegs_congr hregs fun v _ => ?_)
  by_cases hres : m.Resident v
  · obtain ⟨p, hp⟩ := hres
    rw [virtValue_resident hm c hp, virtValue_resident hm c' hp, hregs]
  · have habsent : ∀ p, m p ≠ some v := fun p hp => hres ⟨p, hp⟩
    rw [virtValue_absent c' habsent]
    cases hk : v.slot with
    | none =>
        rw [virtValue_absent c habsent, hk]
        rfl
    | some k =>
        by_cases hv : v.Flushed
        · exact hin v k hk hv
        · rw [virtValue_absent c habsent, hk]
          exact hout v k hk hv

/-- After `release_conflict` the map may be forgotten: the abstract state is what a block that
starts from `block_init` sees. -/
theorem abs_blockInit {m : RegMap} (hm : MapInv m) {c c' : Machine}
    (hfs : Synced m c .fs) (hgs : Synced m c .gs) (htmp : ∀ v, v.isTmp → ¬m.Resident v)
    (h : execText isa (releaseConflict m true) c = some c') : abs blockInit c' = abs m c := by
  obtain ⟨c₁, hexec, hregs, henv, hin, hout⟩ := exec_releaseConflict isa hm.inj c
  obtain rfl : c' = c₁ := Option.some.inj (h.symm.trans hexec)
  have hinit := mapInv_blockInit
  have hseg : ∀ (v : Virt) k, v.slot = some k → Synced m c v → ¬v.Flushed → c'.frame k = virtValue m c v := by
    intro v k hk hs hv
    rw [hout v k hk hv]
    by_cases hres : m.Resident v
    · obtain ⟨p, hp⟩ := hres
      rw [virtValue_resident hm.inj c hp, hs p k hp hk]
    · rw [virtValue_absent c fun p hp => hres ⟨p, hp⟩, hk]
      rfl
  have habsent : ∀ v : Virt, v ≠ .sp → v ≠ .bp → virtValue blockInit c' v = v.slot.elim 0 c'.frame := by
    intro v hsp hbp
    refine virtValue_absent c' fun p hp => ?_
    cases p <;> cases hp
    · exact hsp rfl
    · exact hbp rfl
  rw [abs, abs, henv]
  refine congrArg (State.mk · _) (absRegs_congr hregs fun v hip => ?_)
  cases v with
  | ip => exact absurd rfl hip
  | sp => rw [virtValue_resident hinit.inj c' hinit.sp, virtValue_resident hm.inj c hm.sp, hregs]
  | bp => rw [virtValue_resident hinit.inj c' hinit.bp, virtValue_resident hm.inj c hm.bp, hregs]
  | fs => exact (habsent .fs (by decide) (by decide)).trans (hseg .fs _ rfl hfs fun h => h.2.1 rfl)
  | gs => exact (habsent .gs (by decide) (by decide)).trans (hseg .gs _ rfl hgs fun h => h.2.2 rfl)
  | t1 =>
      rw [habsent .t1 (by decide) (by decide), virtValue_absent c fun p hp => htmp .t1 rfl ⟨p, hp⟩]
      rfl
  | t2 =>
      rw [habsent .t2 (by decide) (by decide), virtValue_absent c fun p hp => htmp .t2 rfl ⟨p, hp⟩]
      rfl
  | r15 | r14 | r13 | r12 =>
      exact (habsent _ (by decide) (by decide)).trans
        (hin _ _ rfl ⟨by decide, by decide, by decide⟩)

/-- An ordinary instruction, as the straight-line result needs it: its registers are registers of the
program, FS and GS are no operands of their own, and RIP comes with at most one other special
register. -/
structure Ordinary (args : List Arg) : Prop where
  noTmp : ∀ v ∈ conflictRegs args, v.isTmp = false
  noSeg : Virt.fs ∉ operandVirts args ∧ Virt.gs ∉ operandVirts args
  ripAlone : Virt.ip ∈ conflictRegs args → ∃ u, ∀ v ∈ conflictRegs args, v = .ip ∨ v = u

/-- With RIP and one other register to place, R14 and R15 are enough. -/
theorem toBeResolved_length_le {m : RegMap} (hm : MapInv m) (hno : ∀ v, v.isTmp → ¬m.Resident v)
    {conflict : List Virt} {u : Virt} (hu : ∀ v ∈ conflict, v = .ip ∨ v = u) :
    (toBeResolved m conflict).length ≤ (idleRegs m).length + (possibleVictims m conflict).length := by
  have hnodup : (toBeResolved m conflict).Nodup :=
    List.Nodup.filter _ (show specialRegs.Nodup by decide)
  -- a register that is neither idle nor a victim holds `u`, and `u` is wanted
  have hplace : ∀ p : Phys, p = .p15 ∨ p = .p14 → p ∈ idleRegs m ++ possibleVictims m conflict ∨
      (m p = some u ∧ u ∈ conflict) := by
    intro p hp
    cases hv : m p with
    | none => exact Or.inl (List.mem_append_left _ (mem_idleRegs.mpr hv))
    | some v =>
        by_cases hmem : v ∈ conflict
        · rcases hu v hmem with rfl | rfl
          · exact absurd hv (hm.noIp p)
          · exact Or.inr ⟨rfl, hmem⟩
        · refine Or.inl (List.mem_append_right _ (mem_possibleVictims.mpr ⟨v, hv, hmem, ?_⟩))
          intro hstable
          have hcases : v = .t1 ∨ v = .t2 ∨ v = .sp ∨ v = .bp := by
            simpa [stableRegs] using hstable
          rcases hcases with rfl | rfl | rfl | rfl
          · exact hno .t1 rfl ⟨p, hv⟩
          · exact hno .t2 rfl ⟨p, hv⟩
          · rw [hm.atHome.1 p hv] at hp
            rcases hp with h | h <;> cases h
          · rw [hm.atHome.2 p hv] at hp
            rcases hp with h | h <;> cases h
  rw [← List.length_append]
  by_cases hres : m.Resident u ∧ u ∈ conflict
  · obtain ⟨⟨q, hq⟩, _⟩ := hres
    have hsub : toBeResolved m conflict ⊆ [.ip] := by
      intro v hv
      obtain ⟨hmem, habsent⟩ := mem_toBeResolved.mp hv
      rcases hu v hmem with rfl | rfl
      · exact List.mem_singleton_self _
      · exact absurd hq (habsent q)
    have hone : (toBeResolved m conflict).length ≤ 1 := (hnodup.subperm hsub).length_le
    have hpos : 0 < (idleRegs m ++ possibleVictims m conflict).length := by
      by_cases h15 : m .p15 = some u
      · rcases hplace .p14 (Or.inr rfl) with h | ⟨h, _⟩
        · exact List.length_pos_of_mem h
        · exact absurd (hm.inj _ _ _ h15 h) (by decide)
      · rcases hplace .p15 (Or.inl rfl) with h | ⟨h, _⟩
        · exact List.length_pos_of_mem h
        · exact absurd h h15
    omega
  · have hsub : toBeResolved m conflict ⊆ [.ip, u] := by
      intro v hv
      rcases hu v (mem_toBeResolved.mp hv).1 with rfl | rfl <;> simp
    have htwo : (toBeResolved m conflict).length ≤ 2 := (hnodup.subperm hsub).length_le
    have hboth : [Phys.p15, .p14] ⊆ idleRegs m ++ possibleVictims m conflict := by
      intro p hp
      rcases hplace p (by simpa using hp) with h | ⟨h, hmem⟩
      · exact h
      · exact absurd ⟨⟨p, h⟩, hmem⟩ hres
    have hlen : 2 ≤ (idleRegs m ++ possibleVictims m conflict).length :=
      (List.Nodup.subperm (show [Phys.p15, .p14].Nodup by decide) hboth).length_le
    omega

/-- RIP is asked for and comes so late among the registers to bring in that it gets the home of SP or
BP. -/
def RipLast (order : PopOrder) (m : RegMap) (conflict : List Virt) : Prop :=
  .ip ∈ conflict ∧ (idleRegs m).length + (possibleVictims m conflict).length ≤
    (order.iter (toBeResolved m conflict)).idxOf .ip

instance (order : PopOrder) (m : RegMap) (conflict : List Virt) :
    Decidable (RipLast order m conflict) := inferInstanceAs (Decidable (_ ∧ _))

theorem mem_iter_ip {m : RegMap} (hm : MapInv m) {conflict : List Virt} (hip : .ip ∈ conflict)
    (order : PopOrder) : .ip ∈ order.iter (toBeResolved m conflict) :=
  (order.iter_perm _).mem_iff.mpr (mem_toBeResolved.mpr ⟨hip, hm.noIp⟩)

/-- With room elsewhere it does not. -/
theorem not_ripLast_of_room {m : RegMap} (hm : MapInv m) {conflict : List Virt}
    (hlen : (toBeResolved m conflict).length ≤
      (idleRegs m).length + (possibleVictims m conflict).length) (order : PopOrder) :
    ¬RipLast order m conflict := by
  rintro ⟨hip, hle⟩
  have hlt := List.idxOf_lt_length_of_mem (mem_iter_ip hm hip order)
  rw [(order.iter_perm _).length_eq] at hlt
  omega

theorem conflictResolve_ip {m m' : RegMap} (hm : MapInv m) {order : PopOrder}
    {conflict : List Virt} {offset : Nat} {text : List Asm}
    (h : conflictResolve order m conflict offset = some (text, m')) :
    m' .p13 = some .ip ∨ m' .p12 = some .ip ↔ RipLast order m conflict := by
  by_cases hip : Virt.ip ∈ conflict
  · have hok := hm.poolsOk order conflict
    obtain ⟨p, hp, hplace⟩ :=
      resolveLoop_getElem hok h (List.getElem?_idxOf (mem_iter_ip hm hip order))
    -- RIP is in one register only, so the question is whether that is a home
    have hwhere : ∀ q, m' q = some .ip ↔ q = p := by
      intro q
      refine ⟨fun hq => conflictResolve_injective hm h q p .ip hq hplace, ?_⟩
      rintro rfl
      exact hplace
    rw [hwhere, hwhere, RipLast, and_iff_right hip]
    rw [List.getElem?_append, List.length_append, (order.idle_perm _).length_eq,
      (order.victim_perm _).length_eq] at hp
    constructor
    · intro hhome
      by_contra hlt
      rw [if_pos (not_le.mp hlt)] at hp
      rcases List.mem_append.mp (List.mem_of_getElem? hp) with hidle | hvictim
      · have hnone := hok.idle p hidle
        rcases hhome with rfl | rfl
        · exact absurd (hm.sp.symm.trans hnone) (by rintro ⟨⟩)
        · exact absurd (hm.bp.symm.trans hnone) (by rintro ⟨⟩)
      · obtain ⟨v, hv, -, hstable⟩ := mem_possibleVictims.mp ((order.victim_perm _).mem_iff.mp hvictim)
        rcases hhome with rfl | rfl
        · exact hstable (Option.some.inj (hm.sp.symm.trans hv) ▸ by decide)
        · exact hstable (Option.some.inj (hm.bp.symm.trans hv) ▸ by decide)
    · intro hle
      rw [if_neg (not_lt.mpr hle)] at hp
      obtain ⟨v, hv, -, rfl | rfl⟩ := mem_possibleStableVictims.mp
        ((order.stable_perm _).mem_iff.mp (List.mem_of_getElem? hp))
      · exact Or.inl (hm.atHome.1 p hv).symm
      · exact Or.inr (hm.atHome.2 p hv).symm
  · refine ⟨fun hhome => ?_, fun hlast => absurd hlast.1 hip⟩
    have hasked : ∀ p, m' p = some .ip → Virt.ip ∈ conflict := by
      intro p hp
      rcases conflictResolve_map hm h p with hsame | ⟨v, hv, -, hpv⟩
      · exact absurd (hsame ▸ hp) (hm.noIp p)
      · exact Option.some.inj (hpv.symm.trans hp) ▸ hv
    exact absurd (hhome.elim (hasked _) (hasked _)) hip

namespace Stages

variable {world : World} {name : String} {args : List Arg} {offset : Nat} {canCheck : Bool}
  {t t' : TransState} {text : List Asm}

/-- The homes of SP and BP can be handed back unless RIP got one of them. -/
theorem recoverOk_iff (st : Stages world name args offset canCheck t text t')
    (hm : MapInv t.regMap) (htmp : ∀ v ∈ conflictRegs args, v.isTmp → t.regMap.Resident v) :
    RecoverOk (releaseIP st.map) .sp .p13 ∧ RecoverOk (releaseIP st.map) .bp .p12 ↔
      ¬RipLast (world.order t.calls) t.regMap (conflictRegs args) := by
  have hinj := st.injective hm
  have hone : ∀ p v, t.regMap p = some v → v ≠ .ip →
      (RecoverOk (releaseIP st.map) v p ↔ st.map p ≠ some .ip) := by
    intro p v hp hvip
    constructor
    · rintro (hv | ⟨u, k, hu, -⟩) hip
      · obtain ⟨hv, hne⟩ := (releaseIP_iff hinj).mp hv
        exact hne (Option.some.inj (hv.symm.trans hip))
      · obtain ⟨hu, hne⟩ := (releaseIP_iff hinj).mp hu
        exact hne (Option.some.inj (hu.symm.trans hip))
    · intro hip
      rcases conflictResolve_map hm st.resolve p with hsame | ⟨w, hw, habsent, hpw⟩
      · exact Or.inl ((releaseIP_iff hinj).mpr ⟨hsame.trans hp, hvip⟩)
      · have hwip : w ≠ .ip := fun h => hip (h ▸ hpw)
        have hslot : w.slot ≠ none := fun h => by
          obtain ⟨q, hq⟩ := htmp w hw (isTmp_slot.mpr h)
          exact habsent q hq
        obtain ⟨k, hk⟩ := Option.ne_none_iff_exists'.mp hslot
        exact Or.inr ⟨w, k, (releaseIP_iff hinj).mpr ⟨hpw, hwip⟩, hk⟩
  rw [hone _ _ hm.sp (by decide), hone _ _ hm.bp (by decide), ← not_or,
    conflictResolve_ip hm st.resolve]

/-- The registers an ordinary instruction borrows can be handed back. -/
theorem recoverOk (st : Stages world name args offset canCheck t text t') (hm : MapInv t.regMap)
    (hno : ∀ v, v.isTmp → ¬t.regMap.Resident v) (hord : Ordinary args) :
    RecoverOk (releaseIP st.map) .sp .p13 ∧ RecoverOk (releaseIP st.map) .bp .p12 := by
  have htmp : ∀ v ∈ conflictRegs args, v.isTmp → t.regMap.Resident v := fun v hv ht => by
    rw [hord.noTmp v hv] at ht
    cases ht
  refine (st.recoverOk_iff hm htmp).mpr fun hlast => ?_
  obtain ⟨u, hu⟩ := hord.ripAlone hlast.1
  exact not_ripLast_of_room hm (toBeResolved_length_le hm hno hu) _ hlast

end Stages

/-- An instruction of a straight-line list; `offset` is the address after it. -/
structure Instruction where
  name : String
  args : List Arg
  offset : Nat

def Instruction.exec (isa : Isa) (i : Instruction) (s : State) : Option State :=
  execInst isa (BitVec.ofNat 64 i.offset) i.name i.args s

/-- `process_normal` on each instruction in turn, with `can_check` False. -/
def translateStraight (world : World) : List Instruction → Trans
  | [] => fun t => some ([], t)
  | i :: is =>
      Trans.andThen (processPurified world i.name i.args i.offset false) (translateStraight world is)

/-- The invariant of a straight-line translation. -/
structure StraightInv (t : TransState) (c : Machine) : Prop where
  map : MapInv t.regMap
  noTmp : ∀ v, v.isTmp → ¬t.regMap.Resident v
  fs : Synced t.regMap c .fs
  gs : Synced t.regMap c .gs

/-- One instruction keeps the invariant and does what the original does. -/
theorem processPurified_simulates (isa : Isa) {world : World} {i : Instruction} {t t' : TransState}
    {text : List Asm} (hord : Ordinary i.args) {c : Machine} (hinv : StraightInv t c)
    (h : processPurified world i.name i.args i.offset false t = some (text, t')) :
    (execText isa text c).map (abs t'.regMap) = i.exec isa (abs t.regMap c) ∧
      ∀ c', execText isa text c = some c' → StraightInv t' c' := by
  obtain ⟨st⟩ := processPurified_stages hinv.map h
  have htmp : ∀ v ∈ conflictRegs i.args, v.isTmp → t.regMap.Resident v := by
    intro v hv ht
    rw [hord.noTmp v hv] at ht
    cases ht
  obtain ⟨hsp, hbp⟩ := st.recoverOk hinv.map hinv.noTmp hord
  constructor
  · have hexec := st.exec_eq isa hinv.map htmp hsp hbp c
    simpa only [Instruction.exec, masked, or_true, if_true, List.foldl_nil] using hexec
  · intro c' hc'
    have hmask : ∀ v, ∀ r ∈ masked (toCheckRegs i.name i.args t.checked) false, r.virt ≠ some v := by
      simp [masked]
    exact ⟨st.mapInv hinv.map,
      fun v hv hres => hinv.noTmp v hv (st.map_tmp hinv.map htmp hv (st.tmp_of_after hinv.map hv hres)),
      st.synced hinv.map hc' (by decide) (notWritten_of_not_mem hord.noSeg.1) (hmask _) hinv.fs,
      st.synced hinv.map hc' (by decide) (notWritten_of_not_mem hord.noSeg.2) (hmask _) hinv.gs⟩

theorem translateStraight_simulates (isa : Isa) {world : World} {insts : List Instruction} {t t' : TransState}
    {text : List Asm} (hord : ∀ i ∈ insts, Ordinary i.args) {c : Machine} (hinv : StraightInv t c)
    (h : translateStraight world insts t = some (text, t')) :
    (execText isa text c).map (abs t'.regMap) =
        runAll (Instruction.exec isa) insts (abs t.regMap c) ∧
      ∀ c', execText isa text c = some c' → StraightInv t' c' := by
  induction insts generalizing t text c with
  | nil =>
      cases h
      refine ⟨rfl, fun c' hc' => ?_⟩
      cases hc'
      exact hinv
  | cons i insts ih =>
      obtain ⟨text₁, t₁, text₂, hfirst, hrest, rfl⟩ := Trans.andThen_some h
      obtain ⟨hexec, hkeep⟩ :=
        processPurified_simulates isa (hord i List.mem_cons_self) hinv hfirst
      have hord' := fun j hj => hord j (List.mem_cons_of_mem _ hj)
      rw [runAll_cons, ← hexec, execText, runAll_append, ← execText]
      cases hrun : execText isa text₁ c with
      | none =>
          refine ⟨rfl, fun c' hc' => ?_⟩
          cases hc'
      | some c₁ => exact ih hord' (hkeep c₁ hrun) hrest

/-- **Straight-line translation preserves meaning.** For every pop order, executing the text of a
list of ordinary instructions and then `release_conflict` does to the abstract state what the
originals do; afterwards that state can be read off from `block_init`, that is R13 holds RSP, R12
holds RBP and every other virtual register is in its slot. -/
theorem straight_line_preserves (isa : Isa) (world : World) {insts : List Instruction}
    {t t' : TransState} {text : List Asm} (hord : ∀ i ∈ insts, Ordinary i.args)
    (hstart : t.regMap = blockInit) (h : translateStraight world insts t = some (text, t'))
    (c : Machine) :
    (execText isa (text ++ releaseConflict t'.regMap true) c).map (abs t'.regMap) =
        runAll (Instruction.exec isa) insts (abs blockInit c) ∧
      (execText isa (text ++ releaseConflict t'.regMap true) c).map (abs blockInit) =
        runAll (Instruction.exec isa) insts (abs blockInit c) := by
  have hinv : StraightInv t c := by
    refine ⟨?_, ?_, ?_, ?_⟩ <;> rw [hstart]
    · exact mapInv_blockInit
    · rintro v hv ⟨p, hp⟩
      cases p <;> cases hp <;> cases hv
    · intro p k hp
      cases p <;> cases hp
    · intro p k hp
      cases p <;> cases hp
  obtain ⟨hexec, hkeep⟩ := translateStraight_simulates isa hord hinv h
  rw [hstart] at hexec
  rw [← hexec, execText, runAll_append, ← execText]
  cases hrun : execText isa text c with
  | none => exact ⟨rfl, rfl⟩
  | some c₁ =>
      obtain ⟨hm, hno, hfs, hgs⟩ := hkeep c₁ hrun
      obtain ⟨c', hrel, _⟩ := exec_releaseConflict isa hm.inj c₁
      rw [Option.bind_some, ← execText, hrel, Option.map_some, Option.map_some, Option.map_some,
        abs_releaseConflict hm.inj hrel, abs_blockInit hm hfs hgs hno hrel]
      exact ⟨rfl, rfl⟩

/-- `MOV R12, [RSP + 8 * R13]` and `ADD [RIP + 0x10], R14`: both idle registers fill up, then both
are evicted and one of them carries the address. -/
def spillingPair : List Instruction :=
  [⟨"MOV", [.reg (.gpr .r12 .q),
      .mem ⟨64, [.gpr .rsp .q], none, some (⟨8, 64⟩, .gpr .r13 .q)⟩], 0x401004⟩,
    ⟨"ADD", [.mem ⟨64, [.rip], some ⟨0x10, 64⟩, none⟩, .reg (.gpr .r14 .q)], 0x40100b⟩]

theorem spillingPair_ordinary : ∀ i ∈ spillingPair, Ordinary i.args := by
  intro i hi
  rcases List.mem_pair.mp hi with rfl | rfl
  · exact ⟨by decide, by decide, fun h => absurd h (by decide)⟩
  · exact ⟨by decide, by decide, fun _ => ⟨.r14, by decide⟩⟩

theorem straight_line_preserves_spillingPair :
    ∃ text t', translateStraight .standard spillingPair ⟨blockInit, [], .fresh, 0⟩ =
        some (text, t') ∧
      ∀ isa c, (execText isa (text ++ releaseConflict t'.regMap true) c).map (abs blockInit) =
        runAll (Instruction.exec isa) spillingPair (abs blockInit c) := by
  have hsome : (translateStraight .standard spillingPair
      ⟨blockInit, [], .fresh, 0⟩).isSome := by decide
  obtain ⟨⟨text, t'⟩, h⟩ := Option.isSome_iff_exists.mp hsome
  exact ⟨text, t', h, fun isa c =>
    (straight_line_preserves isa _ spillingPair_ordinary rfl h c).2⟩

end UserspaceBypass
