import UserspaceBypass.AllocationRoom
import UserspaceBypass.StackSpec

/-! Calls that hold a temporary. Between two lines no temporary is resident; a handler brings one in,
makes its calls, and lets it go. Every call does to the abstract state what the instruction does, the
temporary being one more register of that state. -/

namespace UserspaceBypass

open StraightLine

variable {isa : Isa} {world : World} {offset : Nat}

/-- The map between two calls, with the temporaries that are resident. -/
structure Temps (m : RegMap) (held : List Tmp) : Prop where
  map : MapInv m
  tmp : ∀ tmp : Tmp, m.Resident tmp.virt ↔ tmp ∈ held

section Temps

variable {t t' : TransState} {text : List Asm} {held : List Tmp}

/-- A call of `process_normal` that uses no others. -/
theorem Temps.call {step : Step} {call : Call} (h : Temps t.regMap held)
    (hcall : step.call world offset t.heap = some call)
    (htmp : ∀ tmp : Tmp, tmp.virt ∈ conflictRegs call.args → tmp ∈ held)
    (hrun : step.run world offset t = some (text, t')) : Temps t'.regMap held := by
  obtain ⟨heap, ⟨st⟩⟩ := Step.stages hcall h.map hrun
  have huse : ∀ v ∈ conflictRegs call.args, v.isTmp → t.regMap.Resident v := by
    intro v hv ht
    obtain ⟨tmp, rfl⟩ := Virt.exists_tmp ht
    exact (h.tmp tmp).mpr (htmp tmp hv)
  refine ⟨st.mapInv h.map, fun tmp => ⟨fun hres => ?_, fun hmem => ?_⟩⟩
  · exact (h.tmp tmp).mp (st.map_tmp h.map huse tmp.virt_isTmp
      (st.tmp_of_after h.map tmp.virt_isTmp hres))
  · obtain ⟨p, hp⟩ := (h.tmp tmp).mpr hmem
    exact ⟨p, (st.tmp_place h.map tmp.virt_isTmp hp).2⟩

/-- One more temporary, or one that is there already. -/
theorem Temps.resolve {tmp : Tmp} (h : Temps t.regMap held)
    (hrun : (Step.resolve tmp).run world offset t = some (text, t')) :
    Temps t'.regMap (tmp :: held) := by
  have hm' := Step.mapInv h.map hrun
  obtain ⟨r, hres, heq⟩ := Option.map_eq_some_iff.mp hrun
  obtain ⟨-, rfl⟩ := Prod.mk.inj heq
  have hstays : ∀ tmp' : Tmp, t.regMap.Resident tmp'.virt → RegMap.Resident r.2 tmp'.virt := by
    rintro tmp' ⟨p, hp⟩
    exact ⟨p, conflictResolve_place h.map hres tmp'.virt_isTmp hp⟩
  refine ⟨hm', fun tmp' => ⟨?_, fun hmem => ?_⟩⟩
  · rintro ⟨p, hp⟩
    rw [List.mem_cons]
    rcases conflictResolve_map h.map hres p with hsame | ⟨w, hw, -, hpw⟩
    · exact Or.inr ((h.tmp tmp').mp ⟨p, hsame ▸ hp⟩)
    · have hvirt : tmp'.virt = tmp.virt :=
        (Option.some.inj (hp.symm.trans hpw)).trans (List.mem_singleton.mp hw)
      exact Or.inl (Tmp.virt_injective hvirt)
  · by_cases hthere : t.regMap.Resident tmp'.virt
    · exact hstays tmp' hthere
    · obtain rfl : tmp' = tmp :=
        (List.mem_cons.mp hmem).resolve_right fun hheld => hthere ((h.tmp tmp').mpr hheld)
      refine (resolveLoop_map (h.map.poolsOk _ _) hres).2.1 _ ?_
      rw [((world.order t.calls).iter_perm _).mem_iff, mem_toBeResolved]
      exact ⟨List.mem_singleton_self _, fun p hp => hthere ⟨p, hp⟩⟩

theorem Temps.releaseTmp {m : RegMap} (h : MapInv m) : Temps (releaseTmpConflict m) [] := by
  refine ⟨h.releaseTmp, fun tmp => ⟨?_, fun hmem => absurd hmem List.not_mem_nil⟩⟩
  rintro ⟨p, hp⟩
  have hfalse := (releaseTmpConflict_iff.mp hp).2
  rw [tmp.virt_isTmp] at hfalse
  cases hfalse

end Temps

/-- The map between two calls, with the temporary that is resident. -/
structure Held (m : RegMap) (held : Option Tmp) : Prop where
  map : MapInv m
  tmp : ∀ v, v.isTmp → (m.Resident v ↔ held.map Tmp.virt = some v)

/-- Executing the text relates the abstract states. -/
abbrev Sim (isa : Isa) (text : List Asm) (m m' : RegMap) (R : State → State → Prop) : Prop :=
  Relates (Asm.exec isa) text (abs m) (abs m') R

/-- The text can be executed from every state. -/
abbrev Executes (isa : Isa) (text : List Asm) : Prop := Total (Asm.exec isa) text

/-- Executing the text does what `f` says, as far as the program sees. -/
def Implements (isa : Isa) (text : List Asm) (m m' : RegMap) (f : State → State) : Prop :=
  Executes isa text ∧ Sim isa text m m' fun s s' => (f s).Same s'

theorem held_iff_temps {m : RegMap} {held : Option Tmp} : Held m held ↔ Temps m held.toList := by
  have hmem : ∀ tmp : Tmp, held.map Tmp.virt = some tmp.virt ↔ tmp ∈ held.toList := by
    intro tmp
    rw [Option.mem_toList, Option.map_eq_some_iff]
    refine ⟨?_, fun h => ⟨tmp, h, rfl⟩⟩
    rintro ⟨tmp', hheld, hvirt⟩
    rw [← Tmp.virt_injective hvirt]
    exact hheld
  constructor
  · exact fun h => ⟨h.map, fun tmp => (h.tmp _ tmp.virt_isTmp).trans (hmem tmp)⟩
  · refine fun h => ⟨h.map, fun v hv => ?_⟩
    obtain ⟨tmp, rfl⟩ := Virt.exists_tmp hv
    exact (h.tmp tmp).trans (hmem tmp).symm

/-- The handlers' calls of `process_normal`. -/
theorem Held.call {step : Step} {t t' : TransState} {text : List Asm} {held : Option Tmp} {call : Call}
    (h : Held t.regMap held) (hcall : step.call world offset t.heap = some call)
    (htmp : ∀ v ∈ conflictRegs call.args, v.isTmp → held.map Tmp.virt = some v)
    (hrun : step.run world offset t = some (text, t')) : Held t'.regMap held := by
  refine held_iff_temps.mpr ((held_iff_temps.mp h).call hcall (fun tmp hmem => ?_) hrun)
  obtain ⟨tmp', hheld, hvirt⟩ := Option.map_eq_some_iff.mp (htmp _ hmem tmp.virt_isTmp)
  rw [Option.mem_toList, ← Tmp.virt_injective hvirt]
  exact hheld

theorem Held.resolve {t t' : TransState} {text : List Asm} {tmp : Tmp} (h : Held t.regMap none)
    (hrun : (Step.resolve tmp).run world offset t = some (text, t')) :
    Held t'.regMap (some tmp) :=
  held_iff_temps.mpr ((held_iff_temps.mp h).resolve hrun)

theorem Held.releaseTmp {m : RegMap} {held : Option Tmp} (h : Held m held) :
    Held (releaseTmpConflict m) none :=
  held_iff_temps.mpr (Temps.releaseTmp h.map)

/-- A call, executed. -/
theorem Held.sim_call {step : Step} {t t' : TransState} {text : List Asm} {held : Option Tmp}
    {name : String} {args : List Arg} (h : Held t.regMap held)
    (hcall : step.call world offset t.heap = some ⟨name, args, false⟩)
    (htmp : ∀ v ∈ conflictRegs args, v.isTmp → held.map Tmp.virt = some v)
    (hrun : step.run world offset t = some (text, t')) :
    Sim isa text t.regMap t'.regMap fun s s' =>
      execInst isa (BitVec.ofNat 64 offset) name args s = some s' := by
  obtain ⟨heap, ⟨st⟩⟩ := Step.stages hcall h.map hrun
  intro c c' hexec
  exact st.simulates h.map (fun v hv ht => (h.tmp v ht).mpr (htmp v hv ht)) hexec

/-- RIP is not asked for, or only together with the temporary that is held. -/
def RipAlone (held : Option Tmp) (conflict : List Virt) : Prop :=
  Virt.ip ∈ conflict → ∀ v ∈ conflict, v = .ip ∨ held.map Tmp.virt = some v

/-- One register besides SP, BP and the temporary that is held can be placed outside the homes of SP
and BP. -/
theorem Held.room {m : RegMap} {held : Option Tmp} (h : Held m held) {w : Virt} (hw : ¬m.Resident w)
    {conflict : List Virt}
    (hconflict : ∀ v ∈ conflict, v = w ∨ v = .sp ∨ v = .bp ∨ held.map Tmp.virt = some v) :
    (toBeResolved m conflict).length ≤ (idleRegs m).length + (possibleVictims m conflict).length := by
  have hsub : toBeResolved m conflict ⊆ [w] := by
    intro v hv
    obtain ⟨hmem, habsent⟩ := mem_toBeResolved.mp hv
    rcases hconflict v hmem with rfl | rfl | rfl | hheld
    · exact List.mem_singleton_self _
    · exact absurd h.map.sp (habsent _)
    · exact absurd h.map.bp (habsent _)
    · have htmp : v.isTmp := by
        obtain ⟨tmp, -, rfl⟩ := Option.map_eq_some_iff.mp hheld
        exact tmp.virt_isTmp
      obtain ⟨p, hp⟩ := (h.tmp v htmp).mpr hheld
      exact absurd hp (habsent p)
  have hnodup : (toBeResolved m conflict).Nodup :=
    List.Nodup.filter _ (show specialRegs.Nodup by decide)
  have hone : (toBeResolved m conflict).length ≤ 1 := (hnodup.subperm hsub).length_le
  -- of R15 and R14 at most one holds the temporary
  have hplace : ∀ p : Phys, p = .p15 ∨ p = .p14 →
      p ∈ idleRegs m ++ possibleVictims m conflict ∨ ∃ v, m p = some v ∧ held.map Tmp.virt = some v := by
    intro p hp
    have hsp : m p ≠ some .sp := by
      intro hv
      rw [h.map.atHome.1 p hv] at hp
      rcases hp with h | h <;> cases h
    have hbp : m p ≠ some .bp := by
      intro hv
      rw [h.map.atHome.2 p hv] at hp
      rcases hp with h | h <;> cases h
    cases hv : m p with
    | none => exact Or.inl (List.mem_append_left _ (mem_idleRegs.mpr hv))
    | some v =>
        by_cases htmp : v.isTmp
        · exact Or.inr ⟨v, rfl, (h.tmp v htmp).mp ⟨p, hv⟩⟩
        · refine Or.inl (List.mem_append_right _ (mem_possibleVictims.mpr ⟨v, hv, ?_, ?_⟩))
          · intro hmem
            rcases hconflict v hmem with rfl | rfl | rfl | hheld
            · exact hw ⟨p, hv⟩
            · exact hsp hv
            · exact hbp hv
            · obtain ⟨tmp, -, rfl⟩ := Option.map_eq_some_iff.mp hheld
              exact htmp tmp.virt_isTmp
          · intro hstable
            have hhome : v = .sp ∨ v = .bp := by
              revert hstable htmp
              cases v <;> decide
            rcases hhome with rfl | rfl
            · exact hsp hv
            · exact hbp hv
  have hpos : 0 < (idleRegs m ++ possibleVictims m conflict).length := by
    rcases hplace .p15 (Or.inl rfl) with hmem | ⟨v, hv, hheld⟩
    · exact List.length_pos_of_mem hmem
    rcases hplace .p14 (Or.inr rfl) with hmem | ⟨w, hw, hheld'⟩
    · exact List.length_pos_of_mem hmem
    obtain rfl : v = w := Option.some.inj (hheld.symm.trans hheld')
    exact absurd (h.map.inj _ _ _ hv hw) (by decide)
  rw [List.length_append] at hpos
  omega

/-- A call whose registers leave RIP alone can be executed wherever the instruction can. -/
theorem Held.executes_call {step : Step} {t t' : TransState} {text : List Asm} {held : Option Tmp}
    {name : String} {args : List Arg} (h : Held t.regMap held)
    (hcall : step.call world offset t.heap = some ⟨name, args, false⟩)
    (htmp : ∀ v ∈ conflictRegs args, v.isTmp → held.map Tmp.virt = some v)
    (hrip : RipAlone held (conflictRegs args))
    (hinst : ∀ s, ∃ s', execInst isa (BitVec.ofNat 64 offset) name args s = some s')
    (hrun : step.run world offset t = some (text, t')) : Executes isa text := by
  obtain ⟨heap, ⟨st⟩⟩ := Step.stages hcall h.map hrun
  have hres : ∀ v ∈ conflictRegs args, v.isTmp → t.regMap.Resident v :=
    fun v hv ht => (h.tmp v ht).mpr (htmp v hv ht)
  have hnoIp : ¬t.regMap.Resident .ip := fun hres => by
    obtain ⟨p, hp⟩ := hres
    exact h.map.noIp p hp
  have hlast : ¬RipLast (world.order t.calls) t.regMap (conflictRegs args) := by
    intro hlast
    refine not_ripLast_of_room h.map (h.room hnoIp fun v hv => ?_) _ hlast
    exact (hrip hlast.1 v hv).imp_right fun hheld => Or.inr (Or.inr hheld)
  intro c
  obtain ⟨s', hs'⟩ := hinst (abs t.regMap c)
  obtain ⟨c', hc', -⟩ := st.executes h.map hres ((st.recoverOk_iff h.map hres).mpr hlast) hs'
  exact ⟨c', hc'⟩

/-- What R15 or R14 holds besides the temporary. -/
theorem Held.other {m : RegMap} {tmp : Tmp} (h : Held m (some tmp)) {p q : Phys} (hpq : q ≠ p)
    (hp : m p = some tmp.virt) (hq : q = .p15 ∨ q = .p14) :
    m q ∈ [none, some Virt.r15, some .r14, some .r13, some .r12, some .fs, some .gs] := by
  cases hv : m q with
  | none => simp
  | some v =>
      have htmp : v.isTmp = false := by
        by_contra ht
        obtain rfl : tmp.virt = v :=
          Option.some.inj ((h.tmp v (by simpa using ht)).mp ⟨q, hv⟩)
        exact hpq (h.map.inj q p _ hv hp)
      cases v with
      | ip => exact absurd hv (h.map.noIp q)
      | sp => rw [h.map.atHome.1 q hv] at hq; simp at hq
      | bp => rw [h.map.atHome.2 q hv] at hq; simp at hq
      | t1 => cases htmp
      | t2 => cases htmp
      | _ => simp

/-- The map with a temporary and nothing else besides SP and BP. -/
def tmpMap (tmp : Tmp) : RegMap := Function.update blockInit .p15 (some tmp.virt)

/-- One of R15 and R14 holds the temporary. -/
theorem Held.place {m : RegMap} {tmp : Tmp} (h : Held m (some tmp)) :
    ∃ p q : Phys, m p = some tmp.virt ∧ ((p = .p15 ∧ q = .p14) ∨ (p = .p14 ∧ q = .p15)) := by
  obtain ⟨p, hp⟩ := (h.tmp tmp.virt tmp.virt_isTmp).mpr rfl
  cases p with
  | p15 => exact ⟨.p15, .p14, hp, Or.inl ⟨rfl, rfl⟩⟩
  | p14 => exact ⟨.p14, .p15, hp, Or.inr ⟨rfl, rfl⟩⟩
  | p13 => rw [h.map.sp] at hp; cases tmp <;> cases hp
  | p12 => rw [h.map.bp] at hp; cases tmp <;> cases hp

section Other

variable {m : RegMap} {tmp : Tmp} {p q : Phys} {conflict : List Virt}

/-- The other one of R15 and R14. -/
def OtherPlace (p q : Phys) : Prop := (p = .p15 ∧ q = .p14) ∨ (p = .p14 ∧ q = .p15)

theorem OtherPlace.cases (h : OtherPlace p q) (o : Phys) : o = p ∨ o = q ∨ o = .p13 ∨ o = .p12 := by
  rcases h with ⟨rfl, rfl⟩ | ⟨rfl, rfl⟩ <;> cases o <;> simp

end Other

theorem isTmp_of_family {f : Family} {v : Virt} (hf : ∀ tmp, f ≠ .tmp tmp) (hv : f.virt = some v) :
    v.isTmp = false := by
  cases f with
  | gpr g => cases g <;> cases hv <;> rfl
  | seg s => cases s <;> cases hv <;> rfl
  | tmp tmp => exact absurd rfl (hf tmp)

theorem SameView.same {m m' : RegMap} {c c' : Machine} (h : SameView m c m' c') :
    (abs m c).Same (abs m' c') :=
  ⟨h.env, fun _ hf => h.absRegs_eq fun _ hv => isTmp_of_family hf hv⟩

/-- Bringing a temporary in changes nothing else. -/
theorem Held.sim_resolve {t t' : TransState} {text : List Asm} {tmp : Tmp} (h : Held t.regMap none)
    (hrun : (Step.resolve tmp).run world offset t = some (text, t')) :
    Executes isa text ∧ Sim isa text t.regMap t'.regMap State.Same := by
  obtain ⟨r, hres, heq⟩ := Option.map_eq_some_iff.mp hrun
  obtain ⟨rfl, rfl⟩ := Prod.mk.inj heq
  have hexec := exec_conflictResolve isa h.map hres
  refine ⟨fun c => ?_, fun c c' hc' => ?_⟩
  · obtain ⟨c', hc', -⟩ := hexec c
    exact ⟨c', hc'⟩
  · obtain ⟨c₁, hc₁, hkeeps, -⟩ := hexec c
    obtain rfl : c' = c₁ := Option.some.inj (hc'.symm.trans hc₁)
    exact hkeeps.sameView.same

theorem Held.sim_releaseTmp {t t' : TransState} {text : List Asm} {held : Option Tmp}
    (h : Held t.regMap held) (hrun : Step.releaseTmp.run world offset t = some (text, t')) :
    Executes isa text ∧ Sim isa text t.regMap t'.regMap State.Same := by
  cases hrun
  refine ⟨fun c => ⟨c, rfl⟩, fun c c' hc' => ?_⟩
  cases hc'
  exact (sameView_releaseTmp h.map.inj c).same

/-- The value a physical register must have to show a state. -/
def RegMap.content (m : RegMap) (s : State) (p : Phys) : BitVec 64 :=
  ((m p).bind Virt.family).elim 0 s.regs

/-- A machine that shows the given state. -/
def RegMap.machine (m : RegMap) (s : State) : Machine where
  regs := fun
    | .gpr .r15 => m.content s .p15
    | .gpr .r14 => m.content s .p14
    | .gpr .r13 => m.content s .p13
    | .gpr .r12 => m.content s .p12
    | f => s.regs f
  env := s.env
  frame k := ((specialRegs.find? fun v => v.slot = some k).bind Virt.family).elim 0 s.regs

theorem RegMap.machine_regs (m : RegMap) (s : State) (p : Phys) :
    (m.machine s).regs (.gpr p.gpr) = m.content s p := by cases p <;> rfl

theorem RegMap.machine_frame (m : RegMap) (s : State) {v : Virt} {k : Nat} {f : Family}
    (hk : v.slot = some k) (hf : v.family = some f) : (m.machine s).frame k = s.regs f := by
  have hfind : (specialRegs.find? fun u => u.slot = some k) = some v := by
    cases v <;> cases hk <;> rfl
  simp only [RegMap.machine, hfind, Option.bind_some, hf, Option.elim_some]

/-- Every state is shown by some machine. -/
theorem exists_machine {m : RegMap} (hm : m.Injective) (s : State) : s.Same (abs m (m.machine s)) := by
  refine ⟨rfl, fun f hf => ?_⟩
  change absRegs m (m.machine s) f = s.regs f
  cases hv : f.virt with
  | none =>
      rw [absRegs_plain hv]
      cases f with
      | gpr g => cases g <;> first | rfl | cases hv
      | _ => rfl
  | some v =>
      have hfam := Family.virt_family hv
      rw [absRegs_virt hv]
      by_cases hres : m.Resident v
      · obtain ⟨p, hp⟩ := hres
        rw [virtValue_resident hm _ hp, m.machine_regs, RegMap.content, hp, Option.bind_some, hfam,
          Option.elim_some]
      · have hslot : v.slot ≠ none := fun h => by
          have htmp := isTmp_of_family hf hv
          rw [isTmp_slot.mpr h] at htmp
          cases htmp
        obtain ⟨k, hk⟩ := Option.ne_none_iff_exists'.mp hslot
        rw [virtValue_absent _ fun p hp => hres ⟨p, hp⟩, hk, Option.elim_some,
          m.machine_frame s hk hfam]

/-- Executing the text leaves RSP and memory as `f` says. -/
def Continues (isa : Isa) (text : List Asm) (m m' : RegMap) (f : State → State) : Prop :=
  ∀ c, ∃ c', execText isa text c = some c' ∧ (f (abs m c)).SameStack (abs m' c')

theorem Implements.continues {text : List Asm} {m m' : RegMap} {f : State → State}
    (h : Implements isa text m m' f) : Continues isa text m m' f := by
  intro c
  obtain ⟨c', hc'⟩ := h.1 c
  exact ⟨c', hc', (h.2 c c' hc').sameStack⟩

/-- The condition under which the text does what `f` says; where it fails, not even RSP and memory are
right. -/
structure DoesIff (isa : Isa) (text : List Asm) (m m' : RegMap) (f : State → State)
    (condition : Prop) : Prop where
  sound : condition → Implements isa text m m' f
  exact : Continues isa text m m' f → condition

theorem DoesIff.implements {text : List Asm} {m m' : RegMap} {f : State → State} {condition : Prop}
    (h : DoesIff isa text m m' f condition) : Implements isa text m m' f ↔ condition :=
  ⟨fun himp => h.exact himp.continues, h.sound⟩

/-- The functions respect what the program sees. -/
def Respects (f : State → State) : Prop := ∀ s s', s.Same s' → (f s).Same (f s')

/-- Code that is known to do `g` is compared with `f` on every state. -/
theorem doesIff_of_sim {text : List Asm} {m m' : RegMap} {f g : State → State} {condition : Prop}
    (hm : m.Injective) (hsim : Sim isa text m m' fun s s' => (g s).Same s') (hf : Respects f)
    (hg : Respects g) (hsound : condition → Executes isa text ∧ ∀ s, (f s).Same (g s))
    (hexact : Executes isa text → (∀ s, (f s).SameStack (g s)) → condition) :
    DoesIff isa text m m' f condition where
  sound h := ⟨(hsound h).1, fun c c' hc' => ((hsound h).2 _).trans (hsim c c' hc')⟩
  exact h := by
    refine hexact (fun c => ?_) fun s => ?_
    · obtain ⟨c', hc', -⟩ := h c
      exact ⟨c', hc'⟩
    · have hs := exists_machine hm s
      obtain ⟨c', hc', hsame⟩ := h (m.machine s)
      exact ((hf _ _ hs).sameStack.trans hsame).trans
        ((hsim _ _ hc').symm.trans (hg _ _ hs).symm).sameStack

/-- A step that is a call. -/
theorem Held.ran_call {step : Step} {t t' : TransState} {text : List Asm} {held : Option Tmp}
    {name : String} {args : List Arg} {f : State → State} (h : Held t.regMap held)
    (hcall : step.call world offset t.heap = some ⟨name, args, false⟩)
    (htmp : ∀ v ∈ conflictRegs args, v.isTmp → held.map Tmp.virt = some v)
    (hinst : ∀ s, execInst isa (BitVec.ofNat 64 offset) name args s = some (f s))
    (hrun : step.run world offset t = some (text, t')) :
    Held t'.regMap held ∧ (Sim isa text t.regMap t'.regMap fun s s' => s' = f s) ∧
      (RipAlone held (conflictRegs args) → Executes isa text) := by
  refine ⟨h.call hcall htmp hrun, (h.sim_call hcall htmp hrun).mono fun s s' hs => ?_,
    fun hrip => h.executes_call hcall htmp hrip (fun s => ⟨f s, hinst s⟩) hrun⟩
  rw [hinst] at hs
  exact (Option.some.inj hs).symm

end UserspaceBypass
