import UserspaceBypass.SimulateConflict

/-! One ordinary instruction from end to end: the registers it names are brought in, the renamed
instruction runs, RIP is dropped, and SP and BP are brought back. -/

namespace UserspaceBypass

open StraightLine

variable {isa : Isa}

theorem releaseIP_iff {m : RegMap} (hm : m.Injective) {q : Phys} {v : Virt} :
    releaseIP m q = some v ↔ m q = some v ∧ v ≠ .ip := by
  rw [releaseIP]
  cases hinv : invMap m .ip with
  | none =>
      have habsent := invMap_eq_none.mp hinv
      exact ⟨fun h => ⟨h, fun hv => habsent q (hv ▸ h)⟩, And.left⟩
  | some p =>
      rw [update_none_iff]
      constructor
      · rintro ⟨hqp, hq⟩
        refine ⟨hq, ?_⟩
        rintro rfl
        exact hqp (hm q p .ip hq (invMap_some hinv))
      · rintro ⟨hq, hv⟩
        refine ⟨?_, hq⟩
        rintro rfl
        rw [invMap_some hinv] at hq
        exact hv (Option.some.inj hq).symm

theorem releaseIP_injective {m : RegMap} (hm : m.Injective) : (releaseIP m).Injective := by
  intro p q v hp hq
  exact hm p q v ((releaseIP_iff hm).mp hp).1 ((releaseIP_iff hm).mp hq).1

theorem Keeps.releaseIP {m : RegMap} (hm : m.Injective) (c : Machine) :
    Keeps m c (releaseIP m) c where
  env := rfl
  value v hv _ := virtValue_congr hm (releaseIP_injective hm)
    (fun _ => (releaseIP_iff hm).trans (and_iff_left hv)) (fun _ _ => rfl) fun _ _ => rfl
  tmp v ht := by
    rintro ⟨p, hp⟩
    refine ⟨p, (releaseIP_iff hm).mpr ⟨hp, ?_⟩⟩
    rintro rfl
    cases ht
  sync v _ hs p k hp hk := hs p k ((releaseIP_iff hm).mp hp).1 hk
  plain _ _ := rfl
  cells _ _ := rfl

/-- A register that has to be handed back to `v` holds something with a slot to be saved to. -/
def RecoverOk (m : RegMap) (v : Virt) (p : Phys) : Prop :=
  m p = some v ∨ ∃ u k, m p = some u ∧ u.slot = some k

/-- Handing `p` back to `v`, which has been saved to its slot. -/
theorem exec_swapBack (isa : Isa) {m : RegMap} (hm : m.Injective) {v : Virt} {p : Phys} {j : Nat}
    (hv : ∀ q, m q ≠ some v) (hj : v.slot = some j) (hok : RecoverOk m v p) (c : Machine) :
    ∃ c', execText isa [.store (m p) p, .load p v] c = some c' ∧
      Keeps m c (Function.update m p (some v)) c' := by
  rcases hok with hp | ⟨u, k, hp, hk⟩
  · exact absurd hp (hv p)
  · have hspill := Keeps.spill hm c hp hk
    have hfill := Keeps.fill (hm.update_none p) (c.setSlot k (c.regs (.gpr p.gpr)))
      (Function.update_self ..) (fun q hq => hv q (update_none_iff.mp hq).2)
      (Or.inr (Or.inr ⟨j, hj, rfl⟩))
    rw [Function.update_idem] at hfill
    refine ⟨_, ?_, hspill.trans hfill⟩
    simp only [execText, runAll_cons, Asm.exec, hp, Option.bind_some, hk, hj, Option.map_some,
      runAll_nil]

/-- SP and BP are nowhere but at home. -/
def RegMap.AtHome (m : RegMap) : Prop :=
  (∀ p, m p = some .sp → p = .p13) ∧ ∀ p, m p = some .bp → p = .p12

theorem invMap_home {m : RegMap} {v : Virt} {p : Phys} (h : ∀ q, m q = some v → q = p) :
    invMap m v = none ↔ m p ≠ some v := by
  rw [invMap_eq_none]
  refine ⟨fun hq => hq p, fun hp q hq => hp ?_⟩
  rw [← h q hq]
  exact hq

/-- What `recover_stable` does to the map. -/
theorem recoverStable_map {m : RegMap} (hhome : m.AtHome) :
    (recoverStable m).2 =
      Function.update (Function.update m .p13 (some .sp)) .p12 (some .bp) := by
  funext p
  have hsp := invMap_home hhome.1
  have hbp := invMap_home hhome.2
  by_cases h13 : m .p13 = some .sp <;> by_cases h12 : m .p12 = some .bp <;> cases p <;>
    simp_all [recoverStable, recoverOne, origStable, Function.update]

/-- **`recover_stable`.** Where its moves are defined, they keep the abstract state and bring SP and
BP back. -/
theorem exec_recoverStable (isa : Isa) {m : RegMap} (hm : m.Injective) (hhome : m.AtHome)
    (hsp : RecoverOk m .sp .p13) (hbp : RecoverOk m .bp .p12) (c : Machine) :
    ∃ c', execText isa (recoverStable m).1 c = some c' ∧
      Keeps m c (recoverStable m).2 c' ∧ (recoverStable m).2.Injective := by
  -- one round, from a map that agrees with `m` at the home of `v` and on where `v` is
  have hround : ∀ (m₁ : RegMap) (v : Virt) (p : Phys) (c₁ : Machine), origStable v = some p →
      m₁.Injective → RecoverOk m₁ v p → (∃ j, v.slot = some j) →
      (invMap m v = none ↔ ∀ q, m₁ q ≠ some v) →
      ∃ c', execText isa (recoverOne m m₁ v).1 c₁ = some c' ∧
        Keeps m₁ c₁ (recoverOne m m₁ v).2 c' ∧ (recoverOne m m₁ v).2.Injective := by
    rintro m₁ v p c₁ horig hm₁ hok ⟨j, hj⟩ hiff
    rw [recoverOne, horig]
    by_cases hinv : invMap m v = none
    · obtain ⟨c', hexec, hkeeps⟩ := exec_swapBack isa hm₁ (hiff.mp hinv) hj hok c₁
      refine ⟨c', ?_, ?_, ?_⟩
      · simpa only [if_pos hinv] using hexec
      · simpa only [if_pos hinv] using hkeeps
      · simpa only [if_pos hinv] using hm₁.update_some p (hiff.mp hinv)
    · simp only [if_neg hinv]
      exact ⟨c₁, rfl, Keeps.refl _ _, hm₁⟩
  obtain ⟨c₁, hexec₁, hkeeps₁, hinj₁⟩ := hround m .sp .p13 c rfl hm hsp ⟨_, rfl⟩ invMap_eq_none
  have hsame : ∀ q, (recoverOne m m .sp).2 q = some .bp ↔ m q = some .bp := by
    intro q
    simp only [recoverOne, origStable]
    split_ifs with hinv
    · rw [update_some_iff]
      constructor
      · rintro (⟨_, h⟩ | ⟨_, h⟩)
        · cases h
        · exact h
      · intro hq
        refine Or.inr ⟨?_, hq⟩
        rintro rfl
        cases hhome.2 _ hq
    · rfl
  have hat12 : (recoverOne m m .sp).2 .p12 = m .p12 := by
    simp only [recoverOne, origStable]
    split_ifs
    · exact Function.update_of_ne (show Phys.p12 ≠ .p13 by decide) (some Virt.sp) m
    · rfl
  obtain ⟨c₂, hexec₂, hkeeps₂, hinj₂⟩ := hround (recoverOne m m .sp).2 .bp .p12 c₁ rfl hinj₁
    (by rwa [RecoverOk, hat12]) ⟨_, rfl⟩ (by
      rw [invMap_eq_none]
      exact forall_congr' fun q => not_congr (hsame q).symm)
  refine ⟨c₂, ?_, hkeeps₁.trans hkeeps₂, hinj₂⟩
  rw [recoverStable, execText, runAll_append_some]
  exact ⟨c₁, hexec₁, hexec₂⟩

theorem mapInv_recoverStable {m : RegMap} (hm : m.Injective) (hhome : m.AtHome)
    (hip : ∀ p, m p ≠ some .ip) : MapInv (recoverStable m).2 := by
  rw [recoverStable_map hhome]
  have hcases : ∀ {q v}, Function.update (Function.update m .p13 (some .sp)) .p12 (some .bp) q =
      some v → (q = .p12 ∧ v = .bp) ∨ (q = .p13 ∧ v = .sp) ∨
        (m q = some v ∧ v ≠ .sp ∧ v ≠ .bp) := by
    intro q v hq
    rcases update_some_iff.mp hq with h | ⟨h12, hq⟩
    · exact Or.inl h
    rcases update_some_iff.mp hq with h | ⟨h13, hq⟩
    · exact Or.inr (Or.inl h)
    refine Or.inr (Or.inr ⟨hq, ?_, ?_⟩)
    · rintro rfl
      exact h13 (hhome.1 q hq)
    · rintro rfl
      exact h12 (hhome.2 q hq)
  refine ⟨fun p q v hp hq => ?_, ?_, Function.update_self .., fun p hp => ?_⟩
  · rcases hcases hp with ⟨rfl, rfl⟩ | ⟨rfl, rfl⟩ | ⟨hp, hsp, hbp⟩ <;>
      rcases hcases hq with ⟨rfl, h⟩ | ⟨rfl, h⟩ | ⟨hq, hsp', hbp'⟩
    all_goals first
      | rfl
      | exact hm p q v hp hq
      | exact absurd h (by decide)
      | exact absurd h hsp
      | exact absurd h hbp
      | exact absurd rfl hsp'
      | exact absurd rfl hbp'
  · rw [Function.update_of_ne (by decide), Function.update_self]
  · rcases hcases hp with ⟨_, h⟩ | ⟨_, h⟩ | ⟨hp, _⟩
    · cases h
    · cases h
    · exact hip p hp

/-- The recovery is executable only where it is defined. -/
theorem recoverOk_of_exec {m : RegMap} (hhome : m.AtHome) {c c' : Machine}
    (h : execText isa (recoverStable m).1 c = some c') :
    RecoverOk m .sp .p13 ∧ RecoverOk m .bp .p12 := by
  have hstore : ∀ {v p c₁ c₂} {rest : List Asm},
      execText isa (.store v p :: rest) c₁ = some c₂ → ∃ u k, v = some u ∧ u.slot = some k := by
    intro v p c₁ c₂ rest hexec
    obtain ⟨mid, hmid, _⟩ := Option.bind_eq_some_iff.mp hexec
    obtain ⟨k, hk, _⟩ := Option.map_eq_some_iff.mp hmid
    obtain ⟨u, hu, hk⟩ := Option.bind_eq_some_iff.mp hk
    exact ⟨u, k, hu, hk⟩
  rw [recoverStable, execText, runAll_append_some] at h
  obtain ⟨mid, hfirst, hsecond⟩ := h
  have hsp := invMap_home hhome.1
  have hbp := invMap_home hhome.2
  constructor
  · by_cases h13 : m .p13 = some .sp
    · exact Or.inl h13
    · simp only [recoverOne, origStable, if_pos (hsp.mpr h13)] at hfirst
      exact Or.inr (hstore hfirst)
  · by_cases h12 : m .p12 = some .bp
    · exact Or.inl h12
    · simp only [recoverOne, origStable, if_pos (hbp.mpr h12)] at hsecond
      obtain ⟨u, k, hu, hk⟩ := hstore hsecond
      refine Or.inr ⟨u, k, ?_, hk⟩
      rw [← hu]
      split_ifs
      · exact (Function.update_of_ne (show Phys.p12 ≠ .p13 by decide) (some Virt.sp) m).symm
      · rfl

theorem mem_conflictRegs {args : List Arg} {v : Virt} :
    v ∈ conflictRegs args ↔ ∃ a ∈ args, ∃ r ∈ extractReg a, r.virt = some v := by
  simp only [conflictRegs, List.mem_flatMap, extractConflictRegs_eq, Option.mem_toList]
  constructor
  · rintro ⟨r, ⟨a, ha, hr⟩, hv⟩
    exact ⟨a, ha, r, hr, hv⟩
  · rintro ⟨a, ha, r, hr, hv⟩
    exact ⟨r, ⟨a, ha, hr⟩, hv⟩

theorem plain_of_conflictRegs_nil {args : List Arg} (h : conflictRegs args = []) {a : Arg}
    (ha : a ∈ args) {r : ExprId} (hr : r ∈ extractReg a) : r.virt = none := by
  cases hv : r.virt with
  | none => rfl
  | some v =>
      have hmem := mem_conflictRegs.mpr ⟨a, ha, r, hr, hv⟩
      rw [h] at hmem
      exact absurd hmem List.not_mem_nil

theorem applyMap_plain {m : RegMap} {args : List Arg} (h : conflictRegs args = []) :
    applyMap m args = some args := by
  apply MapM.eq_self
  intro a ha
  have hplain := fun r => plain_of_conflictRegs_nil h ha (r := r)
  cases a with
  | mem d =>
      have hregs : d.regs.mapM (applyMapReg m) = some d.regs :=
        MapM.eq_self fun r hr =>
          applyMapReg_plain (hplain r (List.mem_append_left _ hr))
      have hmul : applyMapMul m d.mul = some d.mul := by
        cases hd : d.mul with
        | none => rfl
        | some t =>
            rw [applyMapMul, applyMapReg_plain (hplain t.2 (by simp [extractReg, hd]))]
            rfl
      rw [applyMapArg, applyMapMem, hregs, hmul]
      rfl
  | reg r => rw [applyMapArg, applyMapReg_plain (hplain r (by simp [extractReg]))]; rfl
  | int n => rfl
  | empty => rfl
  | none => rfl

theorem mem_toCheckRegs {name : String} {args : List Arg} {checked : List ExprId} {r : ExprId}
    (h : r ∈ toCheckRegs name args checked) : ∃ a ∈ args, r ∈ extractReg a := by
  have hbase : r ∈ getMemBase name args := List.mem_dedup.mp (List.mem_filter.mp h).1
  rw [getMemBase] at hbase
  split_ifs at hbase with hlea
  · exact absurd hbase List.not_mem_nil
  · obtain ⟨a, ha, hr⟩ := List.mem_flatMap.mp hbase
    refine ⟨a, ha, ?_⟩
    cases a with
    | mem d =>
        rw [memBase] at hr
        split_ifs at hr with hlen
        · exact absurd hr List.not_mem_nil
        · exact List.mem_append_left _ (List.mem_filter.mp hr).1
    | _ => exact absurd hr List.not_mem_nil

/-- Registers that are resident need not be resolved. -/
theorem conflictResolve_resident {m : RegMap} {conflict : List Virt}
    (h : ∀ v ∈ conflict, m.Resident v) (order : PopOrder) (offset : Nat) :
    conflictResolve order m conflict offset = some ([], m) := by
  have htbr : toBeResolved m conflict = [] := by
    refine List.eq_nil_iff_forall_not_mem.mpr fun v hv => ?_
    obtain ⟨hmem, habsent⟩ := mem_toBeResolved.mp hv
    obtain ⟨p, hp⟩ := h v hmem
    exact habsent p hp
  rw [conflictResolve, htbr, (order.iter_perm []).eq_nil]
  rfl

theorem releaseIP_of_absent {m : RegMap} (h : ∀ p, m p ≠ some .ip) : releaseIP m = m := by
  rw [releaseIP, invMap_eq_none.mpr h]

theorem MapInv.atHome {m : RegMap} (hm : MapInv m) : m.AtHome :=
  ⟨fun p hp => hm.inj p .p13 .sp hp hm.sp, fun p hp => hm.inj p .p12 .bp hp hm.bp⟩

theorem MapInv.recoverStable {m : RegMap} (hm : MapInv m) : recoverStable m = ([], m) := by
  have hsp : invMap m .sp = some .p13 := hm.inj.invMap_iff.mpr hm.sp
  have hbp : invMap m .bp = some .p12 := hm.inj.invMap_iff.mpr hm.bp
  simp [UserspaceBypass.recoverStable, recoverOne, origStable, hsp, hbp]

theorem makeInst_some {name : String} {args : List Arg} {inst : Asm}
    (h : makeInst name args = some inst) : inst = .inst name args := by
  rw [makeInst] at h
  split_ifs at h
  exact (Option.some.inj h).symm

/-- The stages of `process_normal`. An instruction that names no special register goes through the
same stages with nothing to do. -/
structure Stages (world : World) (name : String) (args : List Arg) (offset : Nat) (canCheck : Bool)
    (t : TransState) (text : List Asm) (t' : TransState) where
  pre : List Asm
  map : RegMap
  args' : List Arg
  toCheck' : List ExprId
  resolve : conflictResolve (world.order t.calls) t.regMap (conflictRegs args) offset =
    some (pre, map)
  rename : applyMap map args = some args'
  renameCheck : (toCheckRegs name args t.checked).mapM (applyMapReg map) = some toCheck'
  text_eq : text = pre ++ (checkInst toCheck' canCheck ++
    ([.inst name args'] ++ (recoverStable (releaseIP map)).1))
  map_eq : t'.regMap = (recoverStable (releaseIP map)).2
  checked_eq : t'.checked = checkedAfter name args t.checked
  heap_eq : t'.heap = t.heap

theorem Trans.andThen_some {f g : Trans} {t t' : TransState} {text : List Asm}
    (h : f.andThen g t = some (text, t')) :
    ∃ text₁ t₁ text₂, f t = some (text₁, t₁) ∧ g t₁ = some (text₂, t') ∧ text = text₁ ++ text₂ := by
  obtain ⟨r, hf, hmap⟩ := Option.bind_eq_some_iff.mp h
  obtain ⟨r', hg, heq⟩ := Option.map_eq_some_iff.mp hmap
  obtain ⟨rfl, rfl⟩ := Prod.mk.inj heq
  exact ⟨r.1, r.2, r'.1, hf, hg, rfl⟩

theorem processPurified_stages {world : World} {name : String} {args : List Arg} {offset : Nat}
    {canCheck : Bool} {t t' : TransState} {text : List Asm} (hm : MapInv t.regMap)
    (h : processPurified world name args offset canCheck t = some (text, t')) :
    Nonempty (Stages world name args offset canCheck t text t') := by
  rw [processPurified] at h
  split_ifs at h with hnil
  · obtain ⟨inst, hinst, heq⟩ := Option.map_eq_some_iff.mp h
    obtain ⟨rfl, rfl⟩ := Prod.mk.inj heq
    have hrel := releaseIP_of_absent hm.noIp
    refine ⟨⟨[], t.regMap, args, toCheckRegs name args t.checked, ?_, applyMap_plain hnil, ?_, ?_, ?_,
      rfl, rfl⟩⟩
    · rw [hnil]
      exact conflictResolve_resident (by simp) _ _
    · apply MapM.eq_self
      intro r hr
      obtain ⟨a, ha, hra⟩ := mem_toCheckRegs hr
      exact applyMapReg_plain (plain_of_conflictRegs_nil hnil ha hra)
    · rw [hrel, hm.recoverStable, makeInst_some hinst]
      simp
    · rw [hrel, hm.recoverStable]
  · simp only [Option.bind_eq_bind, Option.pure_def, Option.bind_eq_some_iff, Option.some.injEq]
      at h
    obtain ⟨⟨pre, m⟩, hres, args', hargs, toCheck', hcheck, inst, hinst, heq⟩ := h
    obtain ⟨rfl, rfl⟩ := Prod.mk.inj heq
    refine ⟨⟨pre, m, args', toCheck', hres, hargs, hcheck, ?_, rfl, rfl, rfl⟩⟩
    rw [makeInst_some hinst]
    simp

/-- A one-bit shift of a register, on the state of the original program. -/
def State.shift (isa : Isa) (ip : BitVec 64) (op : String) (f : BitVec 64 → BitVec 64) (r : ExprId)
    (s : State) : State :=
  let value := readReg ip s.regs r
  { regs := writeReg s.regs r (f value)
    env := { s.env with flags := isa.shiftFlags op value s.env.flags } }

/-- The address mask `SHL r, 1` and `SHR r, 1`. -/
def State.mask (isa : Isa) (ip : BitVec 64) (s : State) (r : ExprId) : State :=
  (s.shift isa ip "SHL" (· <<< 1) r).shift isa ip "SHR" (· >>> 1) r

/-- The registers a line masks, of those it has to check. -/
def masked (toCheck : List ExprId) (canCheck : Bool) : List ExprId :=
  if toCheck.length > 1 ∨ canCheck = false then [] else toCheck

theorem checkInst_eq (toCheck : List ExprId) (canCheck : Bool) :
    checkInst toCheck canCheck = (masked toCheck canCheck).flatMap fun r => [.shl r, .shr r] := by
  rw [checkInst, masked]
  split_ifs <;> rfl

theorem checkInst_isMove (toCheck : List ExprId) (canCheck : Bool) :
    ∀ a ∈ checkInst toCheck canCheck, a.isMove = true := by
  rw [checkInst_eq]
  simp only [List.mem_flatMap]
  rintro a ⟨r, -, ha⟩
  rcases List.mem_pair.mp ha with rfl | rfl <;> rfl

/-- The text of a call: the instruction, with moves and masks around it. -/
theorem Stages.around_inst {world : World} {name : String} {args : List Arg} {offset : Nat}
    {canCheck : Bool} {t t' : TransState} {text : List Asm}
    (st : Stages world name args offset canCheck t text t') :
    text = (st.pre ++ checkInst st.toCheck' canCheck) ++
        .inst name st.args' :: (recoverStable (releaseIP st.map)).1 ∧
      (∀ a ∈ st.pre ++ checkInst st.toCheck' canCheck, a.isMove = true) ∧
      ∀ a ∈ (recoverStable (releaseIP st.map)).1, a.isMove = true := by
  refine ⟨?_, List.forall_mem_append.mpr ⟨resolveLoop_isMove st.resolve, checkInst_isMove _ _⟩,
    recoverStable_isMove _⟩
  rw [List.append_assoc]
  exact st.text_eq

theorem abs_writeReg {m : RegMap} (hm : m.Injective) (c : Machine) {r r' : ExprId}
    (h : applyMapReg m r = some r') (x : BitVec 64) (env : Env) :
    abs m { c with regs := writeReg c.regs r' x, env := env } =
      ⟨writeReg (abs m c).regs r x, env⟩ :=
  congrArg (State.mk · env) (writeReg_applyMapReg hm { c with env := env } h x)

/-- A write through the map touches no physical register but the one that holds its target. -/
theorem writeReg_of_virt_ne {m : RegMap} {r r' : ExprId} (h : applyMapReg m r = some r') {q : Phys}
    {v : Virt} (hq : m q = some v) (hr : r.virt ≠ some v) (regs : Regs) (x : BitVec 64) :
    writeReg regs r' x (.gpr q.gpr) = regs (.gpr q.gpr) := by
  cases hv : r.virt with
  | none =>
      rw [applyMapReg_plain hv] at h
      cases h
      cases r with
      | gpr g width =>
          have hne : Family.gpr q.gpr ≠ .gpr g := fun he => phys_virt_ne_none q (he ▸ hv)
          exact Function.update_of_ne hne _ _
      | high h =>
          have hne : Family.gpr q.gpr ≠ .gpr h.gpr := by cases h <;> cases q <;> decide
          exact Function.update_of_ne hne _ _
      | seg s =>
          have hne : Family.gpr q.gpr ≠ .seg s := nofun
          exact Function.update_of_ne hne x regs
      | tmp t =>
          have hne : Family.gpr q.gpr ≠ .tmp t := nofun
          exact Function.update_of_ne hne x regs
      | _ => rfl
  | some w =>
      obtain ⟨p, hp, rfl⟩ := applyMapReg_resident hv h
      have hqp : q ≠ p := by
        rintro rfl
        rw [hq] at hp
        exact hr (by rw [hv, hp])
      have hne : Family.gpr q.gpr ≠ .gpr p.gpr :=
        fun he => hqp (Phys.gpr_injective (Family.gpr.inj he))
      exact Function.update_of_ne hne _ _

theorem IpAt.writeReg {m : RegMap} {c : Machine} {offset : Nat} (hip : IpAt m c offset)
    {r r' : ExprId} (h : applyMapReg m r = some r') (hr : r.virt ≠ some .ip) (x : BitVec 64)
    (env : Env) : IpAt m { c with regs := writeReg c.regs r' x, env := env } offset := by
  intro q hq
  rw [← hip q hq]
  exact writeReg_of_virt_ne h hq hr c.regs x

/-- The virtual registers that are operands themselves, not only part of an address. -/
def operandVirts (args : List Arg) : List Virt :=
  args.filterMap fun
    | .reg r => r.virt
    | _ => none

/-- The writes of an instruction touch only the registers that hold the operands it writes. -/
theorem writeArgs_of_not_written {m : RegMap} {args args' : List Arg}
    (h : applyMap m args = some args') {q : Phys} {v : Virt} (hq : m q = some v)
    {writes : List (Option (BitVec 64))}
    (hv : ∀ (k : Nat) value r, writes[k]? = some (some value) → args[k]? = some (.reg r) →
      r.virt ≠ some v) (regs : Regs) :
    writeArgs args' writes regs (.gpr q.gpr) = regs (.gpr q.gpr) := by
  induction args generalizing args' writes regs with
  | nil =>
      cases h
      cases writes <;> rfl
  | cons a args ih =>
      simp only [applyMap, List.mapM_cons, Option.bind_eq_bind, Option.pure_def,
        Option.bind_eq_some_iff, Option.some.injEq] at h
      obtain ⟨a', ha, args'', hargs, rfl⟩ := h
      cases writes with
      | nil => cases a' <;> rfl
      | cons x writes =>
          have htail := fun k value r hk => hv (k + 1) value r hk
          cases a with
          | reg r =>
              obtain ⟨r', hr', rfl⟩ := Option.map_eq_some_iff.mp ha
              cases x with
              | none => exact ih hargs htail regs
              | some x =>
                  rw [writeArgs, ih hargs htail, writeReg_of_virt_ne hr' hq (hv 0 x r rfl rfl)]
          | mem d =>
              obtain ⟨d', _, rfl⟩ := Option.map_eq_some_iff.mp ha
              cases x <;> exact ih hargs htail regs
          | int n => cases ha; cases x <;> exact ih hargs htail regs
          | empty => cases ha; cases x <;> exact ih hargs htail regs
          | none => cases ha; cases x <;> exact ih hargs htail regs

theorem abs_shift {m : RegMap} (hm : m.Injective) {c : Machine} {offset : Nat}
    (hip : IpAt m c offset) {r r' : ExprId} (h : applyMapReg m r = some r') (op : String)
    (f : BitVec 64 → BitVec 64) :
    abs m (c.shift isa op f r') = (abs m c).shift isa (BitVec.ofNat 64 offset) op f r := by
  have hread : readReg (BitVec.ofNat 64 offset) (abs m c).regs r = readReg 0 c.regs r' :=
    (readReg_applyMapReg hm hip h).symm
  simp only [Machine.shift, State.shift, hread]
  exact abs_writeReg hm c h _ _

/-- A mask on renamed registers masks the original ones. -/
theorem exec_masks (isa : Isa) {m : RegMap} (hm : m.Injective) {offset : Nat} {rs rs' : List ExprId}
    (h : rs.mapM (applyMapReg m) = some rs') (hrs : ∀ r ∈ rs, r.virt ≠ some .ip) (c : Machine)
    (hip : IpAt m c offset) :
    ∃ c', execText isa (rs'.flatMap fun r => [.shl r, .shr r]) c = some c' ∧
      abs m c' = rs.foldl (State.mask isa (BitVec.ofNat 64 offset)) (abs m c) ∧
      IpAt m c' offset := by
  induction rs generalizing rs' c with
  | nil =>
      cases h
      exact ⟨c, rfl, rfl, hip⟩
  | cons r rs ih =>
      simp only [List.mapM_cons, Option.bind_eq_bind, Option.pure_def, Option.bind_eq_some_iff,
        Option.some.injEq] at h
      obtain ⟨r', hr, rs'', hrs', rfl⟩ := h
      have hne := hrs r List.mem_cons_self
      let c₁ := c.shift isa "SHL" (· <<< 1) r'
      let c₂ := c₁.shift isa "SHR" (· >>> 1) r'
      have hip₁ : IpAt m c₁ offset := hip.writeReg hr hne _ _
      have hip₂ : IpAt m c₂ offset := hip₁.writeReg hr hne _ _
      have hmask : abs m c₂ = (abs m c).mask isa (BitVec.ofNat 64 offset) r := by
        rw [abs_shift hm hip₁ hr, abs_shift hm hip hr]
        rfl
      obtain ⟨c', hexec, habs, hip'⟩ :=
        ih hrs' (fun q hq => hrs q (List.mem_cons_of_mem _ hq)) c₂ hip₂
      refine ⟨c', ?_, ?_, hip'⟩
      · rw [List.flatMap_cons, execText, runAll_append_some]
        exact ⟨c₂, rfl, hexec⟩
      · rw [habs, hmask, List.foldl_cons]

/-- Masks keep every other register in step with its slot. -/
theorem synced_masks {m : RegMap} {rs rs' : List ExprId}
    (h : rs.mapM (applyMapReg m) = some rs') {v : Virt} (hv : ∀ r ∈ rs, r.virt ≠ some v)
    {c c' : Machine} (hexec : execText isa (rs'.flatMap fun r => [.shl r, .shr r]) c = some c')
    (hs : Synced m c v) : Synced m c' v := by
  induction rs generalizing rs' c with
  | nil =>
      cases h
      cases hexec
      exact hs
  | cons r rs ih =>
      simp only [List.mapM_cons, Option.bind_eq_bind, Option.pure_def, Option.bind_eq_some_iff,
        Option.some.injEq] at h
      obtain ⟨r', hr, rs'', hrs', rfl⟩ := h
      rw [List.flatMap_cons, execText] at hexec
      obtain ⟨c₁, hmask, hrest⟩ := runAll_append_some.mp hexec
      cases hmask
      have hne := hv r List.mem_cons_self
      refine ih hrs' (fun q hq => hv q (List.mem_cons_of_mem _ hq)) hrest fun p k hp hk => ?_
      refine (writeReg_of_virt_ne hr hp hne _ _).trans ?_
      exact (writeReg_of_virt_ne hr hp hne _ _).trans (hs p k hp hk)

theorem masked_sublist (toCheck : List ExprId) (canCheck : Bool) :
    masked toCheck canCheck = toCheck ∨ masked toCheck canCheck = [] := by
  rw [masked]
  split_ifs
  · exact Or.inr rfl
  · exact Or.inl rfl

theorem mapM_masked {m : RegMap} {rs rs' : List ExprId} (h : rs.mapM (applyMapReg m) = some rs')
    (canCheck : Bool) : (masked rs canCheck).mapM (applyMapReg m) = some (masked rs' canCheck) := by
  rw [masked, masked, MapM.length_eq h]
  split_ifs
  · rfl
  · exact h

theorem virt_ne_ip_of_toCheck {name : String} {args : List Arg} {checked : List ExprId} {r : ExprId}
    (h : r ∈ toCheckRegs name args checked) : r.virt ≠ some .ip := by
  have hbase : r ∈ getMemBase name args := List.mem_dedup.mp (List.mem_filter.mp h).1
  rw [getMemBase] at hbase
  split_ifs at hbase with hlea
  · exact absurd hbase List.not_mem_nil
  obtain ⟨a, _, hr⟩ := List.mem_flatMap.mp hbase
  have hP : endsInP r = false := by
    cases a with
    | mem d =>
        rw [memBase] at hr
        split_ifs at hr with hlen
        · exact absurd hr List.not_mem_nil
        · simpa using (List.mem_filter.mp hr).2
    | _ => exact absurd hr List.not_mem_nil
  cases r with
  | rip => exact absurd hP (by decide)
  | eip => exact absurd hP (by decide)
  | gpr g width => exact family_virt_ne_ip _
  | seg s => exact family_virt_ne_ip _
  | tmp t => exact family_virt_ne_ip _
  | high _ => exact nofun
  | xmm _ => exact nofun

end UserspaceBypass
