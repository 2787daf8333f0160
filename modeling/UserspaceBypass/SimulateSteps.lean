import UserspaceBypass.SimulateStraightLine
import UserspaceBypass.TranslateBlock

/-! The calls of a translated line, executed. Every call keeps the normal form of the register map.
A call of `process_normal` executes in four phases: moves that bring the operands in, the masks, the
instruction, and moves that restore SP and BP. The other calls change nothing the program sees,
except the temporaries. -/

namespace UserspaceBypass

open StraightLine

variable {isa : Isa} {world : World} {offset : Nat}

/-- What the program sees of the two configurations is the same, and registers that agree with their
slots still do; temporaries are the translator's own. -/
structure SameView (m : RegMap) (c : Machine) (m' : RegMap) (c' : Machine) : Prop where
  env : c'.env = c.env
  plain : ∀ f : Family, f.virt = none → c'.regs f = c.regs f
  value : ∀ v : Virt, v ≠ .ip → v.isTmp = false → virtValue m' c' v = virtValue m c v
  sync : ∀ v : Virt, v ≠ .ip → v.isTmp = false → Synced m c v → Synced m' c' v

theorem SameView.refl (m : RegMap) (c : Machine) : SameView m c m c :=
  ⟨rfl, fun _ _ => rfl, fun _ _ _ => rfl, fun _ _ _ h => h⟩

theorem Keeps.sameView {m m' : RegMap} {c c' : Machine} (h : Keeps m c m' c') :
    SameView m c m' c' where
  env := h.env
  plain f hf := h.plain f fun p hp => phys_virt_ne_none p (hp ▸ hf)
  value v hip htmp := h.value v hip fun ht => by rw [htmp] at ht; cases ht
  sync v hip _ := h.sync v hip

theorem SameView.absRegs_eq {m m' : RegMap} {c c' : Machine} (h : SameView m c m' c')
    {f : Family} (hf : ∀ v, f.virt = some v → v.isTmp = false) :
    absRegs m' c' f = absRegs m c f := by
  cases hv : f.virt with
  | none => rw [absRegs_plain hv, absRegs_plain hv, h.plain f hv]
  | some v =>
      rw [absRegs_virt hv, absRegs_virt hv,
        h.value v (fun hip => family_virt_ne_ip f (hip ▸ hv)) (hf v hv)]

/-- One of R14 and R15 can take a temporary without touching SP and BP. -/
theorem exists_room {m : RegMap} (hm : MapInv m) {v : Virt} (hv : v.isTmp) (hno : ¬m.Resident v) :
    ∃ p, p ∈ idleRegs m ++ possibleVictims m [v] := by
  -- a register that offers no room holds the other temporary
  have hplace : ∀ p : Phys, p = .p15 ∨ p = .p14 → p ∈ idleRegs m ++ possibleVictims m [v] ∨
      ∃ u : Virt, m p = some u ∧ u.isTmp ∧ u ≠ v := by
    intro p hp
    cases hmp : m p with
    | none => exact Or.inl (List.mem_append_left _ (mem_idleRegs.mpr hmp))
    | some u =>
        have huv : u ≠ v := fun h => hno ⟨p, h ▸ hmp⟩
        by_cases hstable : u ∈ stableRegs
        · refine Or.inr ⟨u, rfl, ?_, huv⟩
          cases u <;> first
            | rfl
            | exact absurd (hm.inj _ _ _ hmp hm.sp) (by rcases hp with rfl | rfl <;> decide)
            | exact absurd (hm.inj _ _ _ hmp hm.bp) (by rcases hp with rfl | rfl <;> decide)
            | exact absurd hstable (by decide)
        · exact Or.inl (List.mem_append_right _
            (mem_possibleVictims.mpr ⟨u, hmp, by simpa using huv, hstable⟩))
  rcases hplace .p15 (Or.inl rfl) with h | ⟨u, hu, hutmp, huv⟩
  · exact ⟨_, h⟩
  rcases hplace .p14 (Or.inr rfl) with h | ⟨w, hw, hwtmp, hwv⟩
  · exact ⟨_, h⟩
  have hsame : u = w := by
    revert hutmp huv hwtmp hwv hv
    cases u <;> cases w <;> cases v <;> decide
  rw [← hsame] at hw
  exact absurd (hm.inj _ _ _ hu hw) (by decide)

/-- The homes of SP and BP are not needed for a temporary. -/
theorem toBeResolved_tmp_le {m : RegMap} (hm : MapInv m) {v : Virt} (hv : v.isTmp) :
    (toBeResolved m [v]).length ≤ (idleRegs m).length + (possibleVictims m [v]).length := by
  by_cases hres : m.Resident v
  · have hnil : toBeResolved m [v] = [] := by
      refine List.eq_nil_iff_forall_not_mem.mpr fun u hu => ?_
      obtain ⟨huv, habsent⟩ := mem_toBeResolved.mp hu
      obtain ⟨p, hp⟩ := hres
      rw [List.mem_singleton.mp huv] at habsent
      exact habsent p hp
    simp [hnil]
  · obtain ⟨p, hp⟩ := exists_room hm hv hres
    have hpos := List.length_pos_of_mem hp
    have hsub : toBeResolved m [v] ⊆ [v] := fun u hu => (mem_toBeResolved.mp hu).1
    have hnodup : (toBeResolved m [v]).Nodup :=
      List.Nodup.filter _ (show specialRegs.Nodup by decide)
    have hone := (hnodup.subperm hsub).length_le
    rw [List.length_append] at hpos
    simp only [List.length_singleton] at hone
    omega

/-- Making room for a temporary keeps SP and BP at home. -/
theorem conflictResolve_tmp {m m' : RegMap} (hm : MapInv m) {order : PopOrder} {v : Virt}
    (hv : v.isTmp) {text : List Asm} (h : conflictResolve order m [v] offset = some (text, m')) :
    MapInv m' := by
  have hok := hm.poolsOk order [v]
  have hlen : (order.iter (toBeResolved m [v])).length ≤
      (order.idle (idleRegs m)).length + (order.victim (possibleVictims m [v])).length := by
    rw [(order.iter_perm _).length_eq, (order.idle_perm _).length_eq,
      (order.victim_perm _).length_eq]
    exact toBeResolved_tmp_le hm hv
  have hkeep : ∀ p u, m p = some u → u ∈ stableRegs → m' p = some u := by
    intro p u hp hu
    refine ((resolveLoop_map hok h).2.2.2.2 hlen p fun hmem => ?_).trans hp
    rcases List.mem_append.mp hmem with h | h
    · rw [mem_idleRegs.mp ((order.idle_perm _).mem_iff.mp h)] at hp
      cases hp
    · obtain ⟨w, hw, _, hstable⟩ :=
        mem_possibleVictims.mp ((order.victim_perm _).mem_iff.mp h)
      rw [hp] at hw
      cases hw
      exact hstable hu
  refine ⟨conflictResolve_injective hm h, hkeep _ _ hm.sp (by decide), hkeep _ _ hm.bp (by decide),
    fun p hp => ?_⟩
  rcases conflictResolve_map hm h p with hsame | ⟨w, hw, _, hpw⟩
  · exact hm.noIp p (hsame ▸ hp)
  · rw [hp] at hpw
    cases hpw
    rw [← List.mem_singleton.mp hw] at hv
    cases hv

/-- A call of `process_normal` with its arguments as they will be printed. -/
structure Call where
  name : String
  args : List Arg
  canCheck : Bool

def Call.of (name : String) (args : List Expr) (canCheck : Bool) (heap : Heap) : Call :=
  let r := purifyArgs args heap
  ⟨name, r.1.map (Arg.printed r.2), canCheck⟩

/-- The call of `process_normal` a step consists of, if it is one. -/
def Step.call (world : World) (offset : Nat) (heap : Heap) : Step → Option Call
  | .normal name args canCheck => some (.of name args canCheck heap)
  | .moveStack bytes =>
      let d := makeMemDict 64 rsp bytes
      some (.of "LEA" [.id rsp, .dict d] false (d.im.toList.foldr world.make heap))
  | .returnAddress =>
      some (.of "MOVABS" [.id (.tmp .t2), .int ⟨offset, 64⟩] false
        (world.make ⟨offset, 64⟩ heap))
  | .pushInt n =>
      let arg := pushedInt n heap
      some (.of ("MOV" ++ im64Abs (.int arg)) [.dict (makeMemDict arg.size rsp 0), .int arg] false
        (world.make arg heap))
  | _ => none

theorem Step.run_call {step : Step} {t : TransState} {call : Call}
    (h : step.call world offset t.heap = some call) :
    ∃ heap, step.run world offset t =
      processPurified world call.name call.args offset call.canCheck { t with heap := heap } := by
  cases step <;> simp only [Step.call, Option.some.injEq, reduceCtorEq] at h <;> subst h <;>
    exact ⟨_, rfl⟩

/-- The parts of a translated step: what `Stages` says about its call, with the heap left out. -/
theorem Step.stages {step : Step} {t t' : TransState} {text : List Asm} {call : Call}
    (hcall : step.call world offset t.heap = some call) (hm : MapInv t.regMap)
    (h : step.run world offset t = some (text, t')) :
    ∃ heap, Nonempty (Stages world call.name call.args offset call.canCheck
      { t with heap := heap } text t') := by
  obtain ⟨heap, hrun⟩ := Step.run_call hcall
  rw [hrun] at h
  exact ⟨heap, processPurified_stages hm h⟩

theorem runSteps_cons {step : Step} {steps : List Step} {t t' : TransState} {text : List Asm}
    (h : runSteps world offset (step :: steps) t = some (text, t')) :
    ∃ text₁ t₁ text₂, step.run world offset t = some (text₁, t₁) ∧
      runSteps world offset steps t₁ = some (text₂, t') ∧ text = text₁ ++ text₂ :=
  Trans.andThen_some h

theorem runSteps_some {step : Step} {steps : List Step} {t t₁ t' : TransState} {text₁ text₂ : List Asm}
    (h : step.run world offset t = some (text₁, t₁))
    (h' : runSteps world offset steps t₁ = some (text₂, t')) :
    runSteps world offset (step :: steps) t = some (text₁ ++ text₂, t') := by
  simp only [runSteps, Trans.andThen, h, h', Option.bind_some, Option.map_some]

theorem runSteps_append {steps rest : List Step} {t t' : TransState} {text : List Asm}
    (h : runSteps world offset (steps ++ rest) t = some (text, t')) :
    ∃ text₁ t₁ text₂, runSteps world offset steps t = some (text₁, t₁) ∧
      runSteps world offset rest t₁ = some (text₂, t') ∧ text = text₁ ++ text₂ := by
  induction steps generalizing t text with
  | nil => exact ⟨[], t, text, rfl, h, rfl⟩
  | cons step steps ih =>
      obtain ⟨text₀, t₀, text', hstep, hrest, rfl⟩ := runSteps_cons h
      obtain ⟨text₁, t₁, text₂, hsteps, hrest', rfl⟩ := ih hrest
      exact ⟨text₀ ++ text₁, t₁, text₂, runSteps_some hstep hsteps, hrest',
        (List.append_assoc ..).symm⟩

theorem runSteps_append_some {steps rest : List Step} {t t₁ t' : TransState} {text₁ text₂ : List Asm}
    (h : runSteps world offset steps t = some (text₁, t₁))
    (h' : runSteps world offset rest t₁ = some (text₂, t')) :
    runSteps world offset (steps ++ rest) t = some (text₁ ++ text₂, t') := by
  induction steps generalizing t text₁ with
  | nil =>
      cases h
      exact h'
  | cons step steps ih =>
      obtain ⟨text₀, t₀, text, hstep, hrest, rfl⟩ := runSteps_cons h
      rw [List.append_assoc]
      exact runSteps_some hstep (ih hrest)

theorem runSteps_singleton {step : Step} {t t' : TransState} {text : List Asm}
    (h : runSteps world offset [step] t = some (text, t')) :
    step.run world offset t = some (text, t') := by
  obtain ⟨text₁, t₁, text₂, hstep, hnil, rfl⟩ := Trans.andThen_some h
  cases hnil
  rw [List.append_nil]
  exact hstep

/-- Only an unconditional jump goes through a register. -/
def Step.Encodable : Step → Prop
  | .jumpReg name _ => name = "JMP" ∨ name = "JMPF"
  | _ => True

theorem releaseTmpConflict_iff {m : RegMap} {p : Phys} {v : Virt} :
    releaseTmpConflict m p = some v ↔ m p = some v ∧ v.isTmp = false := by
  simp [releaseTmpConflict, Option.filter_eq_some_iff]

theorem MapInv.releaseTmp {m : RegMap} (hm : MapInv m) : MapInv (releaseTmpConflict m) where
  inj p q v hp hq :=
    hm.inj p q v (releaseTmpConflict_iff.mp hp).1 (releaseTmpConflict_iff.mp hq).1
  sp := releaseTmpConflict_iff.mpr ⟨hm.sp, rfl⟩
  bp := releaseTmpConflict_iff.mpr ⟨hm.bp, rfl⟩
  noIp p hp := hm.noIp p (releaseTmpConflict_iff.mp hp).1

theorem Tmp.virt_isTmp (tmp : Tmp) : tmp.virt.isTmp = true := by cases tmp <;> rfl

theorem Tmp.virt_injective {tmp tmp' : Tmp} (h : tmp.virt = tmp'.virt) : tmp = tmp' := by
  cases tmp <;> cases tmp' <;> first | rfl | cases h

theorem Virt.exists_tmp {v : Virt} (h : v.isTmp) : ∃ tmp : Tmp, v = tmp.virt := by
  cases v with
  | t1 => exact ⟨.t1, rfl⟩
  | t2 => exact ⟨.t2, rfl⟩
  | _ => cases h

/-- Every step keeps the normal form of the map. -/
theorem Step.mapInv {step : Step} {t t' : TransState} {text : List Asm} (hm : MapInv t.regMap)
    (h : step.run world offset t = some (text, t')) : MapInv t'.regMap := by
  cases hcall : step.call world offset t.heap with
  | some call =>
      obtain ⟨heap, ⟨st⟩⟩ := Step.stages hcall hm h
      exact st.mapInv hm
  | none =>
      cases step with
      | resolve tmp =>
          obtain ⟨r, hres, heq⟩ := Option.map_eq_some_iff.mp h
          obtain ⟨-, rfl⟩ := Prod.mk.inj heq
          exact conflictResolve_tmp hm tmp.virt_isTmp hres
      | releaseTmp =>
          cases h
          exact hm.releaseTmp
      | jumpReg name r =>
          obtain ⟨target, -, heq⟩ := Option.map_eq_some_iff.mp h
          obtain ⟨-, rfl⟩ := Prod.mk.inj heq
          exact hm
      | release blockEnd => cases h; exact hm
      | jumpLoc name address => cases h; exact hm
      | stub target => cases h; exact hm
      | nop => cases h; exact hm
      | raise => cases h
      | _ => cases hcall

theorem runSteps_mapInv {steps : List Step} {t t' : TransState} {text : List Asm}
    (hm : MapInv t.regMap) (h : runSteps world offset steps t = some (text, t')) :
    MapInv t'.regMap := by
  induction steps generalizing t text with
  | nil =>
      cases h
      exact hm
  | cons step steps ih =>
      obtain ⟨text₁, t₁, text₂, hstep, hrest, rfl⟩ := Trans.andThen_some h
      exact ih (Step.mapInv hm hstep) hrest

/-- In front of every line of a block, and after the last, the map is in normal form. -/
theorem translateLines_mapInv {lines : List Line} {canCheck : List Bool} {t t' : TransState}
    {emitted : List Emitted} (hm : MapInv t.regMap)
    (h : translateLines world lines offset canCheck t = some (emitted, t')) :
    (∀ e ∈ emitted, MapInv e.before.regMap) ∧ MapInv t'.regMap := by
  induction lines generalizing offset canCheck t emitted with
  | nil =>
      cases h
      exact ⟨by simp, hm⟩
  | cons line lines ih =>
      obtain ⟨heap, flag, text, after, rest, -, -, hsteps, hrest, rfl⟩ := translateLines_cons h
      have hbefore : MapInv { t with heap := heap }.regMap := hm
      obtain ⟨hlines, hlast⟩ := ih (runSteps_mapInv hbefore hsteps) hrest
      exact ⟨List.forall_mem_cons.mpr ⟨hbefore, hlines⟩, hlast⟩

theorem sameView_release {m : RegMap} (hm : m.Injective) {blockEnd : Bool} {c c' : Machine}
    (h : execText isa (releaseConflict m blockEnd) c = some c') : SameView m c m c' := by
  cases blockEnd with
  | false =>
      cases h
      exact SameView.refl m c
  | true =>
      obtain ⟨c₁, hexec, hregs, henv, hin, hout⟩ := exec_releaseConflict isa hm c
      obtain rfl : c' = c₁ := Option.some.inj (h.symm.trans hexec)
      refine ⟨henv, fun f _ => by rw [hregs], fun v _ _ => ?_, fun v _ _ hs p k hp hk => ?_⟩
      · by_cases hres : m.Resident v
        · obtain ⟨p, hp⟩ := hres
          rw [virtValue_resident hm _ hp, virtValue_resident hm _ hp, hregs]
        · have habsent : ∀ p, m p ≠ some v := fun p hp => hres ⟨p, hp⟩
          rw [virtValue_absent _ habsent, virtValue_absent _ habsent]
          cases hk : v.slot with
          | none => rfl
          | some k =>
              by_cases hv : v.Flushed
              · rw [Option.elim_some, hin v k hk hv, virtValue_absent _ habsent, hk]
              · rw [Option.elim_some, hout v k hk hv, Option.elim_some]
      · by_cases hv : v.Flushed
        · rw [hin v k hk hv, virtValue_resident hm _ hp, hregs]
        · rw [hout v k hk hv, hregs]
          exact hs p k hp hk

theorem sameView_releaseTmp {m : RegMap} (hm : m.Injective) (c : Machine) :
    SameView m c (releaseTmpConflict m) c where
  env := rfl
  plain _ _ := rfl
  value v _ htmp := by
    have hinj : (releaseTmpConflict m).Injective := fun p q u hp hq =>
      hm p q u (releaseTmpConflict_iff.mp hp).1 (releaseTmpConflict_iff.mp hq).1
    by_cases hres : m.Resident v
    · obtain ⟨p, hp⟩ := hres
      rw [virtValue_resident hinj c (releaseTmpConflict_iff.mpr ⟨hp, htmp⟩),
        virtValue_resident hm c hp]
    · rw [virtValue_absent c fun p hp => hres ⟨p, (releaseTmpConflict_iff.mp hp).1⟩,
        virtValue_absent c fun p hp => hres ⟨p, hp⟩]
  sync v _ _ hs p k hp hk := hs p k (releaseTmpConflict_iff.mp hp).1 hk

theorem execText_jump {text : List Asm} {name : String} {target : Label} {c : Machine}
    (hname : name = "JMP" ∨ name = "JMPF") :
    execText isa (text ++ [.jump name target]) c = none := by
  rw [execText, runAll_append]
  cases runAll (Asm.exec isa) text c with
  | none => rfl
  | some c' => rw [Option.bind_some, runAll_singleton, Asm.exec, if_pos hname]

/-- A step that is no call of `process_normal`, where control gets past it. -/
theorem Step.quiet {step : Step} {t t' : TransState} {text : List Asm} (hm : MapInv t.regMap)
    (henc : step.Encodable) (hcall : step.call world offset t.heap = none)
    (h : step.run world offset t = some (text, t')) {c c' : Machine}
    (hexec : execText isa text c = some c') :
    SameView t.regMap c t'.regMap c' ∧ t'.checked = t.checked := by
  cases step with
  | resolve tmp =>
      obtain ⟨r, hres, heq⟩ := Option.map_eq_some_iff.mp h
      obtain ⟨rfl, rfl⟩ := Prod.mk.inj heq
      obtain ⟨c₁, hexec₁, hkeeps, _, _⟩ := exec_conflictResolve isa hm hres c
      obtain rfl : c' = c₁ := Option.some.inj (hexec.symm.trans hexec₁)
      exact ⟨hkeeps.sameView, rfl⟩
  | release blockEnd =>
      cases h
      exact ⟨sameView_release hm.inj hexec, rfl⟩
  | releaseTmp =>
      cases h
      cases hexec
      exact ⟨sameView_releaseTmp hm.inj c, rfl⟩
  | jumpReg name r =>
      obtain ⟨target, -, heq⟩ := Option.map_eq_some_iff.mp h
      obtain ⟨rfl, rfl⟩ := Prod.mk.inj heq
      rw [execText_jump henc] at hexec
      cases hexec
  | jumpLoc name address =>
      cases h
      rw [execText, runAll_singleton, Asm.exec] at hexec
      split_ifs at hexec
      cases hexec
      exact ⟨SameView.refl _ _, rfl⟩
  | stub target =>
      cases h
      have hnone : execText isa ([.movabs .p14 (offset - 2)] ++ [.jump "JMP" target]) c = none :=
        execText_jump (Or.inl rfl)
      rw [List.singleton_append, hexec] at hnone
      cases hnone
  | nop =>
      cases h
      cases hexec
      exact ⟨SameView.refl _ _, rfl⟩
  | raise => cases h
  | _ => cases hcall

/-- A conditional branch has a relative target. -/
def Line.Encodable (line : Line) : Prop :=
  line.name ∈ conditionalBranch →
    ∀ e, line.args.head? = some e → e.isMem = false ∧ ∀ r, e ≠ .id r

/-- Every step of a list is encodable. -/
abbrev AllEncodable (steps : List Step) : Prop := ∀ step ∈ steps, step.Encodable

theorem firstArg_encodable {line : Line} {f : Expr → List Step}
    (hf : ∀ e, line.args.head? = some e → AllEncodable (f e)) : AllEncodable (firstArg line f) := by
  unfold firstArg
  split
  · simp [AllEncodable, Step.Encodable]
  · rename_i e args hargs
    exact hf e (by rw [hargs]; rfl)

theorem NoTarget.allEncodable {steps : List Step} (h : NoTarget 0 steps) : AllEncodable steps := by
  intro step hstep
  have htarget := h step hstep
  cases step <;> trivial

theorem processJump_encodable {name : String} {e : Expr}
    (h : (name = "JMP" ∨ name = "JMPF") ∨ e.isMem = false ∧ ∀ r, e ≠ .id r) :
    AllEncodable (processJump name e) := by
  cases e <;> simp_all [AllEncodable, processJump, Step.Encodable, Expr.isMem]

theorem translate_encodable {line : Line} (h : line.Encodable) (blockEnd canCheck : Bool) :
    AllEncodable (translate line blockEnd canCheck) := by
  obtain ⟨front, tail, heq, hfront, htail⟩ := translate_tail line blockEnd canCheck 0
  rw [heq]
  refine List.forall_mem_append.mpr ⟨hfront.allEncodable, ?_⟩
  cases htail with
  | none => simp
  | call _ => exact firstArg_encodable fun e _ => processJump_encodable (Or.inl (Or.inl rfl))
  | branch hbranch =>
      refine firstArg_encodable fun e he => processJump_encodable ?_
      rcases hbranch with hcond | huncond
      · exact Or.inr (h hcond e he)
      · exact Or.inl (by simpa [unconditionalBranch] using huncond)
  | ret _ => simp [Step.Encodable]
  | syscall _ => simp [Step.Encodable]
  | invlpg _ => simp [Step.Encodable]

end UserspaceBypass
