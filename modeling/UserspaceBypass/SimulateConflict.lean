import UserspaceBypass.SimulateAbstract

/-! The moves of `conflict.py` keep the abstract state. Each emitted move either saves a register to
its slot, which makes it absent, or fills a free register; both are described by `Keeps`, which
composes, so the loop of `conflict_resolve` and `recover_stable` are chains of the two. -/

namespace UserspaceBypass

open StraightLine

variable {isa : Isa}

/-- A resident copy agrees with its slot. -/
def Synced (m : RegMap) (c : Machine) (v : Virt) : Prop :=
  ∀ p k, m p = some v → v.slot = some k → c.regs (.gpr p.gpr) = c.frame k

def RegMap.Resident (m : RegMap) (v : Virt) : Prop := ∃ p, m p = some v

/-- RIP, where it is resident, has the given value. -/
def IpAt (m : RegMap) (c : Machine) (offset : Nat) : Prop :=
  ∀ p, m p = some .ip → c.regs (.gpr p.gpr) = BitVec.ofNat 64 offset

/-- Nothing the program can see changes between the two configurations, except that a temporary
that was not resident has no value to keep. -/
structure Keeps (m : RegMap) (c : Machine) (m' : RegMap) (c' : Machine) : Prop where
  env : c'.env = c.env
  value : ∀ v, v ≠ .ip → (v.isTmp → m.Resident v) → virtValue m' c' v = virtValue m c v
  tmp : ∀ v, v.isTmp → m.Resident v → m'.Resident v
  sync : ∀ v, v ≠ .ip → Synced m c v → Synced m' c' v
  plain : ∀ f, (∀ p : Phys, f ≠ .gpr p.gpr) → c'.regs f = c.regs f
  cells : ∀ k, (∀ v : Virt, v.slot ≠ some k) → c'.frame k = c.frame k

namespace Keeps

theorem refl (m : RegMap) (c : Machine) : Keeps m c m c where
  env := rfl
  value _ _ _ := rfl
  tmp _ _ h := h
  sync _ _ h := h
  plain _ _ := rfl
  cells _ _ := rfl

theorem trans {m m' m'' : RegMap} {c c' c'' : Machine} (h : Keeps m c m' c')
    (h' : Keeps m' c' m'' c'') : Keeps m c m'' c'' where
  env := h'.env.trans h.env
  value v hip htmp := by
    rw [h'.value v hip fun ht => h.tmp v ht (htmp ht), h.value v hip htmp]
  tmp v ht hres := h'.tmp v ht (h.tmp v ht hres)
  sync v hip hs := h'.sync v hip (h.sync v hip hs)
  plain f hf := (h'.plain f hf).trans (h.plain f hf)
  cells k hk := (h'.cells k hk).trans (h.cells k hk)

/-- Without new temporaries the abstract states are equal. -/
theorem absRegs_eq {m m' : RegMap} {c c' : Machine} (h : Keeps m c m' c')
    (htmp : ∀ v, v.isTmp → m'.Resident v → m.Resident v) : absRegs m' c' = absRegs m c := by
  funext f
  cases hf : f.virt with
  | none =>
      rw [absRegs_plain hf, absRegs_plain hf]
      exact h.plain f fun p hp => phys_virt_ne_none p (hp ▸ hf)
  | some v =>
      have hip : v ≠ .ip := fun hv => family_virt_ne_ip f (hv ▸ hf)
      rw [absRegs_virt hf, absRegs_virt hf]
      by_cases hnew : v.isTmp ∧ ¬m.Resident v
      · have hm : ∀ p, m p ≠ some v := fun p hp => hnew.2 ⟨p, hp⟩
        have hm' : ∀ p, m' p ≠ some v := fun p hp => hnew.2 (htmp v hnew.1 ⟨p, hp⟩)
        have hslot : v.slot = none := by
          cases v <;> first | rfl | cases hnew.1
        rw [virtValue_absent c hm, virtValue_absent c' hm', hslot]
        rfl
      · exact h.value v hip fun ht => by
          by_contra hres
          exact hnew ⟨ht, hres⟩

theorem abs_eq {m m' : RegMap} {c c' : Machine} (h : Keeps m c m' c')
    (htmp : ∀ v, v.isTmp → m'.Resident v → m.Resident v) : abs m' c' = abs m c := by
  rw [abs, abs, h.absRegs_eq htmp, h.env]

end Keeps

theorem isTmp_slot {v : Virt} : v.isTmp = true ↔ v.slot = none := by
  cases v <;> decide

theorem setSlot_frame_ne (c : Machine) {k j : Nat} (h : j ≠ k) (x : BitVec 64) :
    (c.setSlot k x).frame j = c.frame j := Function.update_of_ne h _ _

theorem setSlot_frame_self (c : Machine) (k : Nat) (x : BitVec 64) :
    (c.setSlot k x).frame k = x := Function.update_self ..

theorem setReg_regs_ne (c : Machine) {p q : Phys} (h : q ≠ p) (x : BitVec 64) :
    (c.setReg p x).regs (.gpr q.gpr) = c.regs (.gpr q.gpr) :=
  Function.update_of_ne (fun he => h (Phys.gpr_injective (Family.gpr.inj he))) _ _

theorem setReg_regs_self (c : Machine) (p : Phys) (x : BitVec 64) :
    (c.setReg p x).regs (.gpr p.gpr) = x := Function.update_self ..

theorem update_none_iff {m : RegMap} {p q : Phys} {v : Virt} :
    Function.update m p none q = some v ↔ q ≠ p ∧ m q = some v := by
  by_cases h : q = p
  · subst h
    simp
  · simp [h]

theorem update_some_iff {m : RegMap} {p q : Phys} {v w : Virt} :
    Function.update m p (some w) q = some v ↔ (q = p ∧ v = w) ∨ (q ≠ p ∧ m q = some v) := by
  by_cases h : q = p
  · subst h
    simp [eq_comm]
  · simp [h]

/-- A register that stays where it is, or stays absent with its slot untouched, keeps its value. -/
theorem virtValue_congr {m m' : RegMap} {c c' : Machine} {v : Virt} (hm : m.Injective)
    (hm' : m'.Injective) (hstay : ∀ p, m' p = some v ↔ m p = some v)
    (hregs : ∀ p, m p = some v → c'.regs (.gpr p.gpr) = c.regs (.gpr p.gpr))
    (hframe : ∀ k, v.slot = some k → c'.frame k = c.frame k) :
    virtValue m' c' v = virtValue m c v := by
  by_cases hres : m.Resident v
  · obtain ⟨p, hp⟩ := hres
    rw [virtValue_resident hm c hp, virtValue_resident hm' c' ((hstay p).mpr hp), hregs p hp]
  · have habsent : ∀ p, m p ≠ some v := fun p hp => hres ⟨p, hp⟩
    rw [virtValue_absent c habsent, virtValue_absent c' fun p hp => habsent p ((hstay p).mp hp)]
    cases hk : v.slot with
    | none => rfl
    | some k => exact hframe k hk

/-- Saving a register to its slot lets it go. -/
theorem Keeps.spill {m : RegMap} (hm : m.Injective) (c : Machine) {p : Phys} {u : Virt} {k : Nat}
    (hp : m p = some u) (hk : u.slot = some k) :
    Keeps m c (Function.update m p none) (c.setSlot k (c.regs (.gpr p.gpr))) where
  env := rfl
  value v _ _ := by
    by_cases hv : v = u
    · subst hv
      have habsent : ∀ q, Function.update m p none q ≠ some v := by
        intro q hq
        obtain ⟨hqp, hq⟩ := update_none_iff.mp hq
        exact hqp (hm q p v hq hp)
      rw [virtValue_absent _ habsent, virtValue_resident hm c hp, hk]
      exact Function.update_self ..
    · refine virtValue_congr hm (hm.update_none p) (fun q => ?_) (fun _ _ => rfl) fun j hj => ?_
      · rw [update_none_iff, and_iff_right_iff_imp]
        rintro hq rfl
        exact hv (Option.some.inj (hq.symm.trans hp))
      · exact setSlot_frame_ne c (fun h => hv (Virt.slot_injective hj (by rw [hk, h]))) _
  tmp v ht := by
    rintro ⟨q, hq⟩
    refine ⟨q, update_none_iff.mpr ⟨?_, hq⟩⟩
    rintro rfl
    rw [hp] at hq
    cases hq
    rw [isTmp_slot, hk] at ht
    cases ht
  sync v _ hs q j hq hj := by
    obtain ⟨hqp, hq⟩ := update_none_iff.mp hq
    have hjk : j ≠ k := by
      rintro rfl
      have hvu := Virt.slot_injective hj hk
      subst hvu
      exact hqp (hm q p v hq hp)
    rw [setSlot_frame_ne c hjk]
    exact hs q j hq hj
  plain _ _ := rfl
  cells j hj := setSlot_frame_ne c (fun h => hj u (by rw [hk, h])) _

/-- Whatever is put into a free register, the registers that are resident elsewhere or absent keep
their values; the new one has to be given its own. -/
theorem Keeps.fill {m : RegMap} (hm : m.Injective) (c : Machine) {p : Phys} {v : Virt} {x : BitVec 64}
    (hp : m p = none) (hv : ∀ q, m q ≠ some v)
    (hx : v = .ip ∨ v.isTmp = true ∨ ∃ k, v.slot = some k ∧ x = c.frame k) :
    Keeps m c (Function.update m p (some v)) (c.setReg p x) where
  env := rfl
  value w hip htmp := by
    by_cases hw : w = v
    · subst hw
      rcases hx with hx | hx | ⟨k, hk, hx⟩
      · exact absurd hx hip
      · obtain ⟨q, hq⟩ := htmp hx
        exact absurd hq (hv q)
      · rw [virtValue_resident (hm.update_some p hv) _ (Function.update_self ..),
          virtValue_absent c hv, hk, setReg_regs_self, hx]
        rfl
    · refine virtValue_congr hm (hm.update_some p hv) (fun q => ?_) (fun q hq => ?_) fun _ _ => rfl
      · rw [update_some_iff]
        constructor
        · rintro (⟨_, h⟩ | ⟨_, hq⟩)
          · exact absurd h hw
          · exact hq
        · intro hq
          refine Or.inr ⟨?_, hq⟩
          rintro rfl
          rw [hp] at hq
          cases hq
      · refine setReg_regs_ne c ?_ x
        rintro rfl
        rw [hp] at hq
        cases hq
  tmp w _ := by
    rintro ⟨q, hq⟩
    refine ⟨q, update_some_iff.mpr (Or.inr ⟨?_, hq⟩)⟩
    rintro rfl
    rw [hp] at hq
    cases hq
  sync w hip hs q j hq hj := by
    rcases update_some_iff.mp hq with ⟨rfl, rfl⟩ | ⟨hqp, hq⟩
    · rw [setReg_regs_self]
      rcases hx with hx | hx | ⟨k, hk, hx⟩
      · exact absurd hx hip
      · rw [isTmp_slot, hj] at hx
        cases hx
      · rw [hk] at hj
        cases hj
        exact hx
    · rw [setReg_regs_ne c hqp]
      exact hs q j hq hj
  plain f hf := Function.update_of_ne (hf p) _ _
  cells _ _ := rfl

theorem setReg_self (c : Machine) (p : Phys) : c.setReg p (c.regs (.gpr p.gpr)) = c := by
  rw [Machine.setReg, Function.update_eq_self]

theorem exec_fill (isa : Isa) (offset : Nat) {v : Virt} (hsp : v ≠ .sp) (hbp : v ≠ .bp) (p : Phys)
    (c : Machine) :
    ∃ x, execText isa (fill offset v p) c = some (c.setReg p x) ∧
      (v = .ip → x = BitVec.ofNat 64 offset) ∧
      (v = .ip ∨ v.isTmp = true ∨ ∃ k, v.slot = some k ∧ x = c.frame k) := by
  by_cases hip : v = .ip
  · refine ⟨BitVec.ofNat 64 offset, ?_, fun _ => rfl, Or.inl hip⟩
    rw [fill, if_pos hip]
    rfl
  by_cases htmp : v.isTmp = true
  · refine ⟨c.regs (.gpr p.gpr), ?_, fun h => absurd h hip, Or.inr (Or.inl htmp)⟩
    have hstable : v ∈ stableRegs := by
      cases v <;> first | decide | cases htmp
    rw [fill, if_neg hip, if_pos hstable, setReg_self]
    rfl
  · have hstable : v ∉ stableRegs := by
      cases v <;> first | decide | exact absurd rfl hsp | exact absurd rfl hbp | exact absurd rfl htmp
    obtain ⟨k, hk⟩ : ∃ k, v.slot = some k := by
      rw [isTmp_slot] at htmp
      exact Option.ne_none_iff_exists'.mp htmp
    refine ⟨c.frame k, ?_, fun h => absurd h hip, Or.inr (Or.inr ⟨k, hk, rfl⟩)⟩
    rw [fill, if_neg hip, if_neg hstable, execText, runAll_singleton, Asm.exec, hk]
    rfl

/-- The pools of one call: registers to be taken, those of the last two with a content that has a
slot, and virtual registers to be placed. -/
structure PoolsOk (m : RegMap) (pools : Pools) (vs : List Virt) : Prop where
  inj : m.Injective
  idle : ∀ p ∈ pools.idle, m p = none
  victim : ∀ p ∈ pools.victim, ∃ u k, m p = some u ∧ u.slot = some k
  stable : ∀ p ∈ pools.stable, ∃ u k, m p = some u ∧ u.slot = some k
  nodup : (pools.idle ++ pools.victim ++ pools.stable).Nodup
  absent : ∀ v ∈ vs, ∀ p, m p ≠ some v
  fresh : vs.Nodup
  fillable : ∀ v ∈ vs, v ≠ .sp ∧ v ≠ .bp

/-- What a pop can return: a free register, or one whose content is saved first; it leaves the
other pools alone. -/
theorem Pools.pop_cases {pools rest : Pools} {p : Phys} {evict : Bool}
    (h : pools.pop = some (p, evict, rest)) :
    pools.idle ++ pools.victim ++ pools.stable = p :: (rest.idle ++ rest.victim ++ rest.stable) ∧
      ((evict = false ∧ pools.idle = p :: rest.idle ∧ rest.victim = pools.victim ∧
          rest.stable = pools.stable) ∨
        (evict = true ∧ pools.idle = [] ∧ rest.idle = [] ∧ pools.victim = p :: rest.victim ∧
          rest.stable = pools.stable) ∨
        (evict = true ∧ pools.idle = [] ∧ rest.idle = [] ∧ pools.victim = [] ∧ rest.victim = [] ∧
          pools.stable = p :: rest.stable)) := by
  obtain ⟨idle, victim, stable⟩ := pools
  cases idle with
  | cons q idle =>
      cases h
      exact ⟨rfl, Or.inl ⟨rfl, rfl, rfl, rfl⟩⟩
  | nil =>
      cases victim with
      | cons q victim =>
          cases h
          exact ⟨rfl, Or.inr (Or.inl ⟨rfl, rfl, rfl, rfl, rfl⟩)⟩
      | nil =>
          cases stable with
          | cons q stable =>
              cases h
              exact ⟨rfl, Or.inr (Or.inr ⟨rfl, rfl, rfl, rfl, rfl, rfl⟩)⟩
          | nil => cases h

namespace PoolsOk

variable {m : RegMap} {pools rest : Pools} {p : Phys} {evict : Bool} {v : Virt} {vs : List Virt}

/-- The register popped is free or holds something that has a slot. -/
theorem popped (h : PoolsOk m pools vs) (hpop : pools.pop = some (p, evict, rest)) :
    (evict = false ∧ m p = none) ∨ (evict = true ∧ ∃ u k, m p = some u ∧ u.slot = some k) := by
  rcases (Pools.pop_cases hpop).2 with ⟨he, hidle, _, _⟩ | ⟨he, _, _, hvictim, _⟩ |
      ⟨he, _, _, _, _, hstable⟩
  · exact Or.inl ⟨he, h.idle p (by rw [hidle]; exact List.mem_cons_self)⟩
  · exact Or.inr ⟨he, h.victim p (by rw [hvictim]; exact List.mem_cons_self)⟩
  · exact Or.inr ⟨he, h.stable p (by rw [hstable]; exact List.mem_cons_self)⟩

theorem mem_of_rest (hpop : pools.pop = some (p, evict, rest)) :
    (∀ q ∈ rest.idle, q ∈ pools.idle) ∧ (∀ q ∈ rest.victim, q ∈ pools.victim) ∧
      (∀ q ∈ rest.stable, q ∈ pools.stable) := by
  rcases (Pools.pop_cases hpop).2 with ⟨_, hidle, hv, hs⟩ | ⟨_, _, hidle, hv, hs⟩ |
      ⟨_, _, hidle, _, hv, hs⟩
  · rw [hidle, hv, hs]
    exact ⟨fun q hq => List.mem_cons_of_mem _ hq, fun q hq => hq, fun q hq => hq⟩
  · rw [hidle, hv, hs]
    exact ⟨fun q hq => absurd hq List.not_mem_nil, fun q hq => List.mem_cons_of_mem _ hq,
      fun q hq => hq⟩
  · rw [hidle, hv, hs]
    exact ⟨fun q hq => absurd hq List.not_mem_nil, fun q hq => absurd hq List.not_mem_nil,
      fun q hq => List.mem_cons_of_mem _ hq⟩

/-- One round of the loop. -/
theorem step (h : PoolsOk m pools (v :: vs)) (hpop : pools.pop = some (p, evict, rest)) :
    PoolsOk (Function.update m p (some v)) rest vs := by
  have hnodup := h.nodup
  rw [(Pools.pop_cases hpop).1, List.nodup_cons] at hnodup
  obtain ⟨hidle, hvictim, hstable⟩ := mem_of_rest hpop
  have hne : ∀ q, q ∈ rest.idle ∨ q ∈ rest.victim ∨ q ∈ rest.stable → q ≠ p := by
    rintro q hq rfl
    apply hnodup.1
    simpa only [List.mem_append, or_assoc] using hq
  obtain ⟨hv, hfresh⟩ := List.nodup_cons.mp h.fresh
  refine ⟨h.inj.update_some p (h.absent v List.mem_cons_self), ?_, ?_, ?_, hnodup.2, ?_, hfresh,
    fun w hw => h.fillable w (List.mem_cons_of_mem _ hw)⟩
  · intro q hq
    rw [Function.update_of_ne (hne q (Or.inl hq))]
    exact h.idle q (hidle q hq)
  · intro q hq
    rw [Function.update_of_ne (hne q (Or.inr (Or.inl hq)))]
    exact h.victim q (hvictim q hq)
  · intro q hq
    rw [Function.update_of_ne (hne q (Or.inr (Or.inr hq)))]
    exact h.stable q (hstable q hq)
  · intro w hw q hq
    rcases update_some_iff.mp hq with ⟨_, rfl⟩ | ⟨_, hq⟩
    · exact hv hw
    · exact h.absent w (List.mem_cons_of_mem _ hw) q hq

end PoolsOk

/-- One round: save what has to be saved, then fill. -/
theorem exec_round (isa : Isa) {m : RegMap} {p : Phys} {evict : Bool} {v : Virt} (hm : m.Injective)
    (hp : (evict = false ∧ m p = none) ∨ (evict = true ∧ ∃ u k, m p = some u ∧ u.slot = some k))
    (hv : ∀ q, m q ≠ some v) (hsp : v ≠ .sp) (hbp : v ≠ .bp) (offset : Nat) (c : Machine)
    (hip : IpAt m c offset) :
    ∃ c', execText isa ((if evict then [Asm.store (m p) p] else []) ++ fill offset v p) c = some c' ∧
      Keeps m c (Function.update m p (some v)) c' ∧
      IpAt (Function.update m p (some v)) c' offset := by
  -- both cases end with a fill of a free register
  have hfill : ∀ (m₀ : RegMap) (c₀ : Machine), m₀.Injective → m₀ p = none → (∀ q, m₀ q ≠ some v) →
      IpAt m₀ c₀ offset → ∃ c', execText isa (fill offset v p) c₀ = some c' ∧
        Keeps m₀ c₀ (Function.update m₀ p (some v)) c' ∧
        IpAt (Function.update m₀ p (some v)) c' offset := by
    intro m₀ c₀ hm₀ hp₀ hv₀ hip₀
    obtain ⟨x, hexec, hxip, hx⟩ := exec_fill isa offset hsp hbp p c₀
    refine ⟨c₀.setReg p x, hexec, Keeps.fill hm₀ c₀ hp₀ hv₀ hx, fun q hq => ?_⟩
    rcases update_some_iff.mp hq with ⟨rfl, hvip⟩ | ⟨hqp, hq⟩
    · rw [setReg_regs_self, hxip hvip.symm]
    · rw [setReg_regs_ne c₀ hqp]
      exact hip₀ q hq
  rcases hp with ⟨rfl, hp⟩ | ⟨rfl, u, k, hp, hk⟩
  · exact hfill m c hm hp hv hip
  · have hspill := Keeps.spill hm c hp hk
    obtain ⟨c', hexec, hkeeps, hip'⟩ := hfill (Function.update m p none)
      (c.setSlot k (c.regs (.gpr p.gpr))) (hm.update_none p) (Function.update_self ..)
      (fun q hq => hv q (update_none_iff.mp hq).2) fun q hq => hip q (update_none_iff.mp hq).2
    rw [Function.update_idem] at hkeeps hip'
    refine ⟨c', ?_, hspill.trans hkeeps, hip'⟩
    rw [execText, runAll_append]
    simp only [if_true, runAll_singleton, Asm.exec, hp, Option.bind_some, hk, Option.map_some]
    exact hexec

theorem resolveLoop_cons {offset : Nat} {v : Virt} {vs : List Virt} {pools : Pools} {m m' : RegMap}
    {text : List Asm} (h : resolveLoop offset (v :: vs) pools m = some (text, m')) :
    ∃ p evict rest text', pools.pop = some (p, evict, rest) ∧
      resolveLoop offset vs rest (Function.update m p (some v)) = some (text', m') ∧
      text = (if evict then [Asm.store (m p) p] else []) ++ fill offset v p ++ text' := by
  rw [resolveLoop] at h
  cases hpop : pools.pop with
  | none =>
      rw [hpop] at h
      cases h
  | some r =>
      obtain ⟨p, evict, rest⟩ := r
      rw [hpop] at h
      obtain ⟨r, hrest, heq⟩ := Option.map_eq_some_iff.mp h
      obtain ⟨rfl, rfl⟩ := Prod.mk.inj heq
      exact ⟨p, evict, rest, r.1, rfl, hrest, rfl⟩

theorem resolveLoop_isMove {offset : Nat} {vs : List Virt} {pools : Pools} {m m' : RegMap}
    {text : List Asm} (h : resolveLoop offset vs pools m = some (text, m')) :
    ∀ a ∈ text, a.isMove = true := by
  induction vs generalizing pools m text with
  | nil =>
      cases h
      simp
  | cons v vs ih =>
      obtain ⟨p, evict, rest, text', -, hrest, rfl⟩ := resolveLoop_cons h
      have hfill : ∀ a ∈ fill offset v p, a.isMove = true := by
        unfold fill
        split_ifs <;> simp [Asm.isMove]
      have hspill : ∀ a ∈ (if evict then [Asm.store (m p) p] else []), a.isMove = true := by
        split_ifs <;> simp [Asm.isMove]
      exact List.forall_mem_append.mpr ⟨List.forall_mem_append.mpr ⟨hspill, hfill⟩, ih hrest⟩

theorem recoverStable_isMove (m : RegMap) : ∀ a ∈ (recoverStable m).1, a.isMove = true := by
  have hone : ∀ before m' v, ∀ a ∈ (recoverOne before m' v).1, a.isMove = true := by
    intro before m' v
    unfold recoverOne
    split
    · simp
    · split_ifs <;> simp [Asm.isMove]
  exact List.forall_mem_append.mpr ⟨hone _ _ _, hone _ _ _⟩

theorem releaseConflict_isMove (m : RegMap) (blockEnd : Bool) :
    ∀ a ∈ releaseConflict m blockEnd, a.isMove = true := by
  intro a ha
  unfold releaseConflict at ha
  split_ifs at ha
  · obtain ⟨p, -, hp⟩ := List.mem_filterMap.mp ha
    unfold saveResident at hp
    split at hp
    · cases hp
    · split_ifs at hp
      cases hp
      rfl
  · cases ha

/-- **The loop of `conflict_resolve`.** If it does not raise, its moves can be executed, keep the
abstract state, and put every requested register into a physical one. -/
theorem exec_resolveLoop (offset : Nat) {vs : List Virt} {pools : Pools} {m m' : RegMap}
    {text : List Asm} (hok : PoolsOk m pools vs)
    (h : resolveLoop offset vs pools m = some (text, m')) (c : Machine) (hip : IpAt m c offset) :
    ∃ c', execText isa text c = some c' ∧ Keeps m c m' c' ∧ m'.Injective ∧ IpAt m' c' offset := by
  induction vs generalizing pools m text c with
  | nil =>
      cases h
      exact ⟨c, rfl, Keeps.refl _ _, hok.inj, hip⟩
  | cons v vs ih =>
      obtain ⟨p, evict, rest, text', hpop, hrest, rfl⟩ := resolveLoop_cons h
      obtain ⟨hsp, hbp⟩ := hok.fillable v List.mem_cons_self
      obtain ⟨c₁, hexec, hkeeps, hip₁⟩ := exec_round isa hok.inj (hok.popped hpop)
        (hok.absent v List.mem_cons_self) hsp hbp offset c hip
      obtain ⟨c', hexec', hkeeps', hinj, hip'⟩ := ih (hok.step hpop) hrest c₁ hip₁
      refine ⟨c', ?_, hkeeps.trans hkeeps', hinj, hip'⟩
      rw [execText, runAll_append_some]
      exact ⟨c₁, hexec, hexec'⟩

/-- A loop that does not raise places all its registers, in registers of the pools; a pool that is
not reached stays as it is. -/
theorem resolveLoop_map {offset : Nat} {vs : List Virt} {pools : Pools} {m m' : RegMap}
    {text : List Asm} (hok : PoolsOk m pools vs)
    (h : resolveLoop offset vs pools m = some (text, m')) :
    m'.Injective ∧ (∀ v ∈ vs, m'.Resident v) ∧
      (∀ p, m' p = m p ∨ ∃ v ∈ vs, m' p = some v) ∧
      (∀ p, p ∉ pools.idle ++ pools.victim ++ pools.stable → m' p = m p) ∧
      (vs.length ≤ pools.idle.length + pools.victim.length →
        ∀ p, p ∉ pools.idle ++ pools.victim → m' p = m p) := by
  induction vs generalizing pools m text with
  | nil =>
      cases h
      exact ⟨hok.inj, fun v hv => absurd hv List.not_mem_nil, fun p => Or.inl rfl, fun p _ => rfl,
        fun _ p _ => rfl⟩
  | cons v vs ih =>
      obtain ⟨p, evict, rest, text', hpop, hrest, rfl⟩ := resolveLoop_cons h
      obtain ⟨hinj, hall, hfrom, hout, hshort⟩ := ih (hok.step hpop) hrest
      obtain ⟨happend, hcases⟩ := Pools.pop_cases hpop
      have hnodup := hok.nodup
      rw [happend, List.nodup_cons] at hnodup
      have hkeep : m' p = some v := by
        rw [hout p hnodup.1, Function.update_self]
      refine ⟨hinj, ?_, fun q => ?_, fun q hq => ?_, fun hlen q hq => ?_⟩
      · intro w hw
        rcases List.mem_cons.mp hw with rfl | hw
        · exact ⟨p, hkeep⟩
        · exact hall w hw
      · by_cases hqp : q = p
        · subst hqp
          exact Or.inr ⟨v, List.mem_cons_self, hkeep⟩
        · rcases hfrom q with hq | ⟨w, hw, hq⟩
          · rw [Function.update_of_ne hqp] at hq
            exact Or.inl hq
          · exact Or.inr ⟨w, List.mem_cons_of_mem _ hw, hq⟩
      · rw [happend, List.mem_cons, not_or] at hq
        rw [hout q hq.2, Function.update_of_ne hq.1]
      · -- a pop from the last pool would need more registers than the first two hold
        rw [List.length_cons] at hlen
        rcases hcases with ⟨_, hidle, hv, _⟩ | ⟨_, hidle, hidle', hv, _⟩ | ⟨_, hidle, _, hv, _, _⟩
        · rw [hidle, List.length_cons, ← hv] at hlen
          rw [hidle, ← hv, List.cons_append, List.mem_cons, not_or] at hq
          rw [hshort (by omega) q hq.2, Function.update_of_ne hq.1]
        · rw [hidle, hv, List.length_cons, List.length_nil] at hlen
          rw [hidle, hv, List.nil_append, List.mem_cons, not_or] at hq
          rw [hshort (by omega) q (by rw [hidle']; exact hq.2), Function.update_of_ne hq.1]
        · rw [hidle, hv, List.length_nil] at hlen
          omega

/-- The registers are taken in order: idle ones, then victims, then the homes. -/
theorem resolveLoop_getElem {offset : Nat} {vs : List Virt} {pools : Pools} {m m' : RegMap}
    {text : List Asm} (hok : PoolsOk m pools vs)
    (h : resolveLoop offset vs pools m = some (text, m')) {i : Nat} {v : Virt}
    (hv : vs[i]? = some v) :
    ∃ p, (pools.idle ++ pools.victim ++ pools.stable)[i]? = some p ∧ m' p = some v := by
  induction vs generalizing pools m text i with
  | nil => cases hv
  | cons w vs ih =>
      obtain ⟨p, evict, rest, text', hpop, hrest, rfl⟩ := resolveLoop_cons h
      obtain ⟨happend, -⟩ := Pools.pop_cases hpop
      rw [happend]
      cases i with
      | zero =>
          cases hv
          have hnodup := hok.nodup
          rw [happend, List.nodup_cons] at hnodup
          refine ⟨p, rfl, ?_⟩
          rw [(resolveLoop_map (hok.step hpop) hrest).2.2.2.1 p hnodup.1, Function.update_self]
      | succ i => exact ih (hok.step hpop) hrest hv

/-- The register map between two instructions: SP and BP are at home, and RIP is nowhere. -/
structure MapInv (m : RegMap) : Prop where
  inj : m.Injective
  sp : m .p13 = some .sp
  bp : m .p12 = some .bp
  noIp : ∀ p, m p ≠ some .ip

theorem mapInv_blockInit : MapInv blockInit where
  inj := by
    intro p q v hp hq
    cases p <;> cases q <;> first | rfl | (cases hp <;> cases hq)
  sp := rfl
  bp := rfl
  noIp := by
    intro p hp
    cases p <;> cases hp

theorem mem_toBeResolved {m : RegMap} {conflict : List Virt} {v : Virt} :
    v ∈ toBeResolved m conflict ↔ v ∈ conflict ∧ ∀ p, m p ≠ some v := by
  have hall : v ∈ specialRegs := by cases v <;> decide
  rw [toBeResolved, List.mem_filter, decide_eq_true_iff]
  constructor
  · rintro ⟨_, hv, habsent⟩
    exact ⟨hv, fun p => habsent p p.mem_all⟩
  · rintro ⟨hv, habsent⟩
    exact ⟨hall, hv, fun p _ => habsent p⟩

theorem mem_idleRegs {m : RegMap} {p : Phys} : p ∈ idleRegs m ↔ m p = none := by
  rw [idleRegs, List.mem_filter, decide_eq_true_iff]
  exact ⟨fun h => h.2, fun h => ⟨p.mem_all, h⟩⟩

theorem mem_possibleVictims {m : RegMap} {conflict : List Virt} {p : Phys} :
    p ∈ possibleVictims m conflict ↔ ∃ v, m p = some v ∧ v ∉ conflict ∧ v ∉ stableRegs := by
  rw [possibleVictims, List.mem_filter]
  cases h : m p with
  | none => simp
  | some v => simp [p.mem_all]

theorem mem_possibleStableVictims {m : RegMap} {conflict : List Virt} {p : Phys} :
    p ∈ possibleStableVictims m conflict ↔
      ∃ v, m p = some v ∧ p.homonym ∉ conflict ∧ (v = .sp ∨ v = .bp) := by
  rw [possibleStableVictims, List.mem_filter]
  cases h : m p with
  | none => simp
  | some v => cases v <;> simp [p.mem_all, stableRegs, Virt.isTmp]

theorem slot_of_not_stable {v : Virt} (hv : v ∉ stableRegs) : ∃ k, v.slot = some k := by
  cases v <;> first | exact ⟨_, rfl⟩ | exact absurd (by decide) hv

theorem MapInv.poolsOk {m : RegMap} (hm : MapInv m) (order : PopOrder) (conflict : List Virt) :
    PoolsOk m ⟨order.idle (idleRegs m), order.victim (possibleVictims m conflict),
      order.stable (possibleStableVictims m conflict)⟩ (order.iter (toBeResolved m conflict)) where
  inj := hm.inj
  idle p hp := mem_idleRegs.mp ((order.idle_perm _).mem_iff.mp hp)
  victim p hp := by
    obtain ⟨v, hv, _, hstable⟩ := mem_possibleVictims.mp ((order.victim_perm _).mem_iff.mp hp)
    obtain ⟨k, hk⟩ := slot_of_not_stable hstable
    exact ⟨v, k, hv, hk⟩
  stable p hp := by
    obtain ⟨v, hv, _, hsb⟩ := mem_possibleStableVictims.mp ((order.stable_perm _).mem_iff.mp hp)
    rcases hsb with rfl | rfl
    · exact ⟨_, _, hv, rfl⟩
    · exact ⟨_, _, hv, rfl⟩
  nodup := by
    have hall : Phys.all.Nodup := by decide
    rw [((((order.idle_perm _).append (order.victim_perm _)).append (order.stable_perm _))).nodup_iff]
    refine List.nodup_append'.mpr ⟨List.nodup_append'.mpr
      ⟨hall.filter _, hall.filter _, ?_⟩, hall.filter _, ?_⟩
    · intro p hidle hvictim
      obtain ⟨v, hv, _⟩ := mem_possibleVictims.mp hvictim
      rw [mem_idleRegs.mp hidle] at hv
      cases hv
    · intro p hp hstable
      obtain ⟨v, hv, _, hsb⟩ := mem_possibleStableVictims.mp hstable
      rcases List.mem_append.mp hp with hidle | hvictim
      · rw [mem_idleRegs.mp hidle] at hv
        cases hv
      · obtain ⟨w, hw, _, hw'⟩ := mem_possibleVictims.mp hvictim
        rw [hv] at hw
        cases hw
        rcases hsb with rfl | rfl <;> exact hw' (by decide)
  absent v hv := (mem_toBeResolved.mp ((order.iter_perm _).mem_iff.mp hv)).2
  fresh := by
    have hall : specialRegs.Nodup := by decide
    exact (order.iter_perm _).nodup_iff.mpr (hall.filter _)
  fillable v hv := by
    have habsent := (mem_toBeResolved.mp ((order.iter_perm _).mem_iff.mp hv)).2
    exact ⟨fun h => habsent .p13 (h ▸ hm.sp), fun h => habsent .p12 (h ▸ hm.bp)⟩

/-- **`conflict_resolve`.** A call that does not raise emits moves that keep the abstract state. -/
theorem exec_conflictResolve (isa : Isa) {m m' : RegMap} (hm : MapInv m) {order : PopOrder}
    {conflict : List Virt} {offset : Nat} {text : List Asm}
    (h : conflictResolve order m conflict offset = some (text, m')) (c : Machine) :
    ∃ c', execText isa text c = some c' ∧ Keeps m c m' c' ∧ m'.Injective ∧ IpAt m' c' offset :=
  exec_resolveLoop offset (hm.poolsOk order conflict) h c fun p hp => absurd hp (hm.noIp p)

end UserspaceBypass
