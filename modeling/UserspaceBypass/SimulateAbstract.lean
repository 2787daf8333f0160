import UserspaceBypass.LibMapM
import UserspaceBypass.TranslateNormal

/-! The abstract state behind a machine: the value of a virtual register is the physical register
`reg_map` assigns to it, or its slot in the frame. Reading and writing a register through the map is
reading and writing the abstract state, so an instruction whose operands have been renamed by
`apply_map` does to the abstract state what the original does. -/

namespace UserspaceBypass

def Family.virt : Family → Option Virt
  | .gpr .rsp => some .sp
  | .gpr .rbp => some .bp
  | .gpr .r15 => some .r15
  | .gpr .r14 => some .r14
  | .gpr .r13 => some .r13
  | .gpr .r12 => some .r12
  | .gpr _ => none
  | .seg .fs => some .fs
  | .seg .gs => some .gs
  | .seg _ => none
  | .tmp .t1 => some .t1
  | .tmp .t2 => some .t2

/-- The family a virtual register is the content of; RIP is none. -/
def Virt.family : Virt → Option Family
  | .ip => none
  | .sp => some (.gpr .rsp)
  | .bp => some (.gpr .rbp)
  | .r15 => some (.gpr .r15)
  | .r14 => some (.gpr .r14)
  | .r13 => some (.gpr .r13)
  | .r12 => some (.gpr .r12)
  | .fs => some (.seg .fs)
  | .gs => some (.seg .gs)
  | .t1 => some (.tmp .t1)
  | .t2 => some (.tmp .t2)

/-- The virtual register an identifier belongs to. -/
def ExprId.virt : ExprId → Option Virt
  | .gpr g _ => (Family.gpr g).virt
  | .rip | .eip => some .ip
  | .seg s => (Family.seg s).virt
  | .tmp t => (Family.tmp t).virt
  | .high _ | .xmm _ => none

/-- The width a renamed identifier keeps. -/
def ExprId.width : ExprId → Width
  | .gpr _ width => width
  | .eip => .d
  | _ => .q

/-- No virtual register is assigned to two physical registers. -/
def RegMap.Injective (m : RegMap) : Prop := ∀ p q v, m p = some v → m q = some v → p = q

def virtValue (m : RegMap) (c : Machine) (v : Virt) : BitVec 64 :=
  match invMap m v with
  | some p => c.regs (.gpr p.gpr)
  | none => v.slot.elim 0 c.frame

def absRegs (m : RegMap) (c : Machine) : Regs := fun f =>
  match f.virt with
  | none => c.regs f
  | some v => virtValue m c v

/-- The state the original program is in. -/
def abs (m : RegMap) (c : Machine) : State := ⟨absRegs m c, c.env⟩

theorem Phys.mem_all (p : Phys) : p ∈ Phys.all := by cases p <;> decide

theorem Phys.gpr_injective : Function.Injective Phys.gpr := by
  intro p q h
  cases p <;> cases q <;> first | rfl | cases h

theorem Virt.slot_injective {v w : Virt} {k : Nat} (hv : v.slot = some k) (hw : w.slot = some k) :
    v = w := by
  cases v <;> cases w <;> first | rfl | (cases hv <;> cases hw)

theorem invMap_eq_none {m : RegMap} {v : Virt} : invMap m v = none ↔ ∀ p, m p ≠ some v := by
  rw [invMap, List.find?_eq_none]
  constructor
  · intro h p
    simpa using h p (List.mem_reverse.mpr p.mem_all)
  · intro h p _
    simpa using h p

theorem invMap_some {m : RegMap} {v : Virt} {p : Phys} (h : invMap m v = some p) : m p = some v := by
  simpa using List.find?_some h

theorem RegMap.Injective.invMap_iff {m : RegMap} (hm : m.Injective) {v : Virt} {p : Phys} :
    invMap m v = some p ↔ m p = some v := by
  constructor
  · exact invMap_some
  · intro h
    cases hinv : invMap m v with
    | none => exact absurd h (invMap_eq_none.mp hinv p)
    | some q => rw [hm q p v (invMap_some hinv) h]

theorem RegMap.Injective.update_some {m : RegMap} (hm : m.Injective) {v : Virt} (p : Phys)
    (hv : ∀ q, m q ≠ some v) : RegMap.Injective (Function.update m p (some v)) := by
  intro q r w hq hr
  by_cases hqp : q = p <;> by_cases hrp : r = p
  · rw [hqp, hrp]
  · subst hqp
    rw [Function.update_self] at hq
    rw [Function.update_of_ne hrp] at hr
    exact absurd (hr.trans hq.symm) (hv r)
  · subst hrp
    rw [Function.update_self] at hr
    rw [Function.update_of_ne hqp] at hq
    exact absurd (hq.trans hr.symm) (hv q)
  · rw [Function.update_of_ne hqp] at hq
    rw [Function.update_of_ne hrp] at hr
    exact hm q r w hq hr

theorem RegMap.Injective.update_none {m : RegMap} (hm : m.Injective) (p : Phys) :
    RegMap.Injective (Function.update m p none) := by
  intro q r w hq hr
  by_cases hqp : q = p
  · subst hqp
    rw [Function.update_self] at hq
    cases hq
  by_cases hrp : r = p
  · subst hrp
    rw [Function.update_self] at hr
    cases hr
  rw [Function.update_of_ne hqp] at hq
  rw [Function.update_of_ne hrp] at hr
  exact hm q r w hq hr

theorem virtValue_resident {m : RegMap} (hm : m.Injective) (c : Machine) {v : Virt} {p : Phys}
    (hp : m p = some v) : virtValue m c v = c.regs (.gpr p.gpr) := by
  rw [virtValue, hm.invMap_iff.mpr hp]

theorem virtValue_absent {m : RegMap} (c : Machine) {v : Virt} (hv : ∀ p, m p ≠ some v) :
    virtValue m c v = v.slot.elim 0 c.frame := by
  rw [virtValue, invMap_eq_none.mpr hv]

theorem family_virt_ne_ip (f : Family) : f.virt ≠ some .ip := by
  cases f with
  | gpr g => cases g <;> decide
  | seg s => cases s <;> decide
  | tmp t => cases t <;> decide

theorem Family.virt_family {f : Family} {v : Virt} (h : f.virt = some v) : v.family = some f := by
  cases f with
  | gpr g => cases g <;> cases h <;> rfl
  | seg s => cases s <;> cases h <;> rfl
  | tmp t => cases t <;> cases h <;> rfl

theorem Virt.family_virt {f : Family} {v : Virt} (h : v.family = some f) : f.virt = some v := by
  cases v <;> cases h <;> rfl

theorem family_virt_injective {f g : Family} {v : Virt} (hf : f.virt = some v)
    (hg : g.virt = some v) : f = g :=
  Option.some.inj ((Family.virt_family hf).symm.trans (Family.virt_family hg))

theorem phys_virt_ne_none (p : Phys) : (Family.gpr p.gpr).virt ≠ none := by cases p <;> decide

theorem xmm_slice (k : Nat) : slice (ExprId.xmm k).name 0 2 = ['X', 'M'] ∧
    slice (ExprId.xmm k).name 1 3 = ['M', 'M'] := by
  simp [slice, ExprId.name]

/-- The two keys of a printed name find exactly the virtual register it belongs to. -/
theorem specialReg_slice (r : ExprId) :
    (if r.name.length > 2 then specialReg (slice r.name 1 3) else none).or
      (specialReg (slice r.name 0 2)) = r.virt := by
  cases r with
  | gpr g width => cases g <;> cases width <;> rfl
  | high h => cases h <;> rfl
  | rip => rfl
  | eip => rfl
  | seg s => cases s <;> rfl
  | tmp t => cases t <;> rfl
  | xmm k =>
      rw [(xmm_slice k).1, (xmm_slice k).2]
      split_ifs <;> rfl

theorem extractConflictRegs_eq (r : ExprId) : extractConflictRegs r = r.virt.toList := by
  cases r with
  | gpr g width => cases g <;> cases width <;> rfl
  | high h => cases h <;> rfl
  | rip => rfl
  | eip => rfl
  | seg s => cases s <;> rfl
  | tmp t => cases t <;> rfl
  | xmm k =>
      rw [extractConflictRegs, possibleKeys, (xmm_slice k).1, (xmm_slice k).2]
      split_ifs <;> rfl

theorem sz2sfx_size {r : ExprId} (hr : r.virt ≠ none) : sz2sfx r.size = some r.width := by
  cases r with
  | gpr g width => cases width <;> rfl
  | high h => exact absurd rfl hr
  | xmm k => exact absurd rfl hr
  | _ => rfl

theorem applyMapReg_eq (m : RegMap) (r : ExprId) :
    applyMapReg m r = match r.virt with
      | none => some r
      | some v => (invMap m v).map fun p => p.reg r.width := by
  have hkeys := specialReg_slice r
  have hsize := sz2sfx_size (r := r)
  unfold applyMapReg
  cases hone : (if r.name.length > 2 then specialReg (slice r.name 1 3) else none) with
  | some v =>
      rw [hone, Option.some_or] at hkeys
      rw [← hkeys] at hsize ⊢
      simp only [hsize (by simp), Option.map_some]
      cases invMap m v <;> rfl
  | none =>
      rw [hone, Option.none_or] at hkeys
      cases htwo : specialReg (slice r.name 0 2) with
      | some v =>
          rw [htwo] at hkeys
          rw [← hkeys] at hsize ⊢
          simp only [hsize (by simp), Option.map_some]
          cases invMap m v <;> rfl
      | none =>
          rw [htwo] at hkeys
          rw [← hkeys]

theorem applyMapReg_plain {m : RegMap} {r : ExprId} (hr : r.virt = none) :
    applyMapReg m r = some r := by
  rw [applyMapReg_eq, hr]

theorem applyMapReg_resident {m : RegMap} {r r' : ExprId} {v : Virt} (hr : r.virt = some v)
    (h : applyMapReg m r = some r') : ∃ p, m p = some v ∧ r' = p.reg r.width := by
  rw [applyMapReg_eq, hr] at h
  obtain ⟨p, hp, rfl⟩ := Option.map_eq_some_iff.mp h
  exact ⟨p, invMap_some hp, rfl⟩

theorem absRegs_plain {m : RegMap} {c : Machine} {f : Family} (hf : f.virt = none) :
    absRegs m c f = c.regs f := by
  rw [absRegs, hf]

theorem absRegs_virt {m : RegMap} {c : Machine} {f : Family} {v : Virt} (hf : f.virt = some v) :
    absRegs m c f = virtValue m c v := by
  rw [absRegs, hf]

theorem virtValue_setReg_ne {m : RegMap} (c : Machine) {p : Phys} {v w : Virt} (hp : m p = some v)
    (hw : w ≠ v) (x : BitVec 64) : virtValue m (c.setReg p x) w = virtValue m c w := by
  unfold virtValue
  cases hinv : invMap m w with
  | none => rfl
  | some q =>
      have hq : q ≠ p := by
        rintro rfl
        exact hw (Option.some.inj ((invMap_some hinv).symm.trans hp))
      have hne : Family.gpr q.gpr ≠ Family.gpr p.gpr := by
        intro h
        exact hq (Phys.gpr_injective (Family.gpr.inj h))
      exact Function.update_of_ne hne _ _

/-- Writing a physical register writes the virtual register it holds, and nothing else. -/
theorem absRegs_setReg {m : RegMap} (hm : m.Injective) (c : Machine) {p : Phys} {v : Virt}
    (hp : m p = some v) (x : BitVec 64) :
    absRegs m (c.setReg p x) =
      v.family.elim (absRegs m c) fun f => Function.update (absRegs m c) f x := by
  funext f
  cases hf : f.virt with
  | none =>
      have hne : f ≠ .gpr p.gpr := fun h => phys_virt_ne_none p (h ▸ hf)
      have hleft : absRegs m (c.setReg p x) f = absRegs m c f := by
        rw [absRegs_plain hf, absRegs_plain hf]
        exact Function.update_of_ne hne _ _
      rw [hleft]
      cases hv : v.family with
      | none => rfl
      | some g =>
          have hg : f ≠ g := by
            rintro rfl
            rw [Virt.family_virt hv] at hf
            cases hf
          exact (Function.update_of_ne hg _ _).symm
  | some w =>
      by_cases hw : w = v
      · subst hw
        rw [absRegs_virt hf, virtValue_resident hm _ hp, Family.virt_family hf]
        simp [Machine.setReg]
      · rw [absRegs_virt hf, virtValue_setReg_ne c hp hw, ← absRegs_virt (m := m) hf]
        cases hv : v.family with
        | none => rfl
        | some g =>
            have hg : f ≠ g := by
              rintro rfl
              rw [Virt.family_virt hv] at hf
              exact hw (Option.some.inj hf).symm
            exact (Function.update_of_ne hg _ _).symm

theorem absRegs_update_plain {m : RegMap} (c : Machine) {f : Family} (hf : f.virt = none)
    (x : BitVec 64) : absRegs m { c with regs := Function.update c.regs f x } =
      Function.update (absRegs m c) f x := by
  funext g
  by_cases hg : g = f
  · subst hg
    rw [absRegs_plain hf, Function.update_self]
    exact Function.update_self ..
  · rw [Function.update_of_ne hg]
    cases hv : g.virt with
    | none =>
        rw [absRegs_plain hv, absRegs_plain hv]
        exact Function.update_of_ne hg _ _
    | some v =>
        rw [absRegs_virt hv, absRegs_virt hv]
        unfold virtValue
        cases invMap m v with
        | none => rfl
        | some q =>
            have hq : Family.gpr q.gpr ≠ f := fun h => phys_virt_ne_none q (h ▸ hf)
            exact Function.update_of_ne hq _ _

theorem Width.get_q (x : BitVec 64) : Width.q.get x = x := BitVec.and_allOnes

/-- A register operand renamed by `apply_map` reads as the original one does, once RIP has its value
in the register that holds it. -/
theorem readReg_applyMapReg {m : RegMap} (hm : m.Injective) {c : Machine} {ip : BitVec 64}
    (hip : ∀ p, m p = some .ip → c.regs (.gpr p.gpr) = ip) {r r' : ExprId}
    (h : applyMapReg m r = some r') : readReg 0 c.regs r' = readReg ip (absRegs m c) r := by
  cases hr : r.virt with
  | none =>
      rw [applyMapReg_plain hr] at h
      cases h
      cases r with
      | gpr g width => rw [readReg, readReg, absRegs_plain hr]
      | high h => cases h <;> rfl
      | rip => cases hr
      | eip => cases hr
      | seg s => rw [readReg, readReg, absRegs_plain hr]
      | tmp t => cases t <;> cases hr
      | xmm k => rfl
  | some v =>
      obtain ⟨p, hp, rfl⟩ := applyMapReg_resident hr h
      have hval := virtValue_resident hm c hp
      cases r with
      | gpr g width => rw [readReg, absRegs_virt hr, hval]; rfl
      | high h => cases hr
      | rip => cases hr; rw [readReg, ← hip p hp]; exact Width.get_q _
      | eip => cases hr; rw [readReg, ← hip p hp]; rfl
      | seg s => rw [readReg, absRegs_virt hr, hval]; exact Width.get_q _
      | tmp t => rw [readReg, absRegs_virt hr, hval]; exact Width.get_q _
      | xmm k => cases hr

theorem writeReg_applyMapReg {m : RegMap} (hm : m.Injective) (c : Machine) {r r' : ExprId}
    (h : applyMapReg m r = some r') (x : BitVec 64) :
    absRegs m { c with regs := writeReg c.regs r' x } = writeReg (absRegs m c) r x := by
  cases hr : r.virt with
  | none =>
      rw [applyMapReg_plain hr] at h
      cases h
      cases r with
      | gpr g width => rw [writeReg, writeReg, absRegs_update_plain c hr, absRegs_plain hr]
      | high h =>
          have hplain : (Family.gpr h.gpr).virt = none := by cases h <;> rfl
          rw [writeReg, writeReg, absRegs_update_plain c hplain, absRegs_plain hplain]
      | rip => cases hr
      | eip => cases hr
      | seg s => rw [writeReg, writeReg, absRegs_update_plain c hr]
      | tmp t => cases t <;> cases hr
      | xmm k => rfl
  | some v =>
      obtain ⟨p, hp, rfl⟩ := applyMapReg_resident hr h
      have hset := absRegs_setReg hm c hp (r.width.put (c.regs (.gpr p.gpr)) x)
      have hval := virtValue_resident hm c hp
      change absRegs m (c.setReg p _) = _
      rw [hset]
      cases r with
      | gpr g width =>
          rw [writeReg, absRegs_virt hr, hval, Family.virt_family hr]
          rfl
      | high h => cases hr
      | rip => cases hr; rfl
      | eip => cases hr; rfl
      | seg s =>
          rw [writeReg, Family.virt_family hr]
          rfl
      | tmp t =>
          rw [writeReg, Family.virt_family hr]
          rfl
      | xmm k => cases hr

theorem applyMapMem_some {m : RegMap} {d d' : MemDict} (h : applyMapMem m d = some d') :
    d'.sz = d.sz ∧ d'.im = d.im ∧ d.regs.mapM (applyMapReg m) = some d'.regs ∧
      ((d.mul = none ∧ d'.mul = none) ∨
        ∃ scale r r', d.mul = some (scale, r) ∧ d'.mul = some (scale, r') ∧
          applyMapReg m r = some r') := by
  simp only [applyMapMem, Option.bind_eq_bind, Option.pure_def, Option.bind_eq_some_iff,
    Option.some.injEq] at h
  obtain ⟨regs, hregs, mul, hmul, rfl⟩ := h
  refine ⟨rfl, rfl, hregs, ?_⟩
  cases hd : d.mul with
  | none =>
      rw [hd] at hmul
      exact Or.inl ⟨rfl, (Option.some.inj hmul).symm⟩
  | some t =>
      obtain ⟨scale, r⟩ := t
      rw [hd] at hmul
      obtain ⟨r', hr', rfl⟩ := Option.map_eq_some_iff.mp hmul
      exact Or.inr ⟨scale, r, r', rfl, rfl, hr'⟩

section Operands

variable {m : RegMap} {c : Machine} {ip : BitVec 64}

theorem address_applyMap (hm : m.Injective)
    (hip : ∀ p, m p = some .ip → c.regs (.gpr p.gpr) = ip) {d d' : MemDict}
    (h : applyMapMem m d = some d') :
    d'.address (readReg 0 c.regs) = d.address (readReg ip (absRegs m c)) := by
  obtain ⟨_, him, hregs, hmul⟩ := applyMapMem_some h
  have hsum := MapM.map_congr hregs fun r r' => readReg_applyMapReg hm hip
  rw [MemDict.address, MemDict.address, hsum, him]
  rcases hmul with ⟨hnone, hnone'⟩ | ⟨scale, r, r', hr, hr', hread⟩
  · rw [hnone, hnone']
    rfl
  · rw [hr, hr', Option.elim_some, Option.elim_some, readReg_applyMapReg hm hip hread]

theorem size_applyMapReg {r r' : ExprId} (h : applyMapReg m r = some r') : r'.size = r.size := by
  cases hr : r.virt with
  | none =>
      rw [applyMapReg_plain hr] at h
      cases h
      rfl
  | some v =>
      obtain ⟨p, _, rfl⟩ := applyMapReg_resident hr h
      cases r with
      | high h => cases hr
      | xmm k => cases hr
      | _ => rfl

theorem applyMapReg_xmm {r : ExprId} {k : Nat} :
    applyMapReg m r = some (.xmm k) ↔ r = .xmm k := by
  constructor
  · intro h
    cases hr : r.virt with
    | none =>
        rw [applyMapReg_plain hr] at h
        exact Option.some.inj h
    | some v =>
        obtain ⟨p, _, hp⟩ := applyMapReg_resident hr h
        cases hp
  · rintro rfl
    exact applyMapReg_plain rfl

theorem Arg.eval_reg {read : ExprId → BitVec 64} {r : ExprId} (hr : ∀ k, r ≠ .xmm k) :
    Arg.eval read (.reg r) = .reg r.size (read r) := by
  cases r with
  | xmm k => exact absurd rfl (hr k)
  | _ => rfl

theorem eval_applyMapArg (hm : m.Injective)
    (hip : ∀ p, m p = some .ip → c.regs (.gpr p.gpr) = ip) (a a' : Arg)
    (h : applyMapArg m a = some a') :
    a'.eval (readReg 0 c.regs) = a.eval (readReg ip (absRegs m c)) := by
  cases a with
  | mem d =>
      obtain ⟨d', hd, rfl⟩ := Option.map_eq_some_iff.mp h
      rw [Arg.eval, Arg.eval, address_applyMap hm hip hd, (applyMapMem_some hd).1]
  | reg r =>
      obtain ⟨r', hr, rfl⟩ := Option.map_eq_some_iff.mp h
      by_cases hx : ∃ k, r = .xmm k
      · obtain ⟨k, rfl⟩ := hx
        rw [applyMapReg_plain rfl] at hr
        cases hr
        rfl
      · have hr' : ∀ k, r' ≠ .xmm k := fun k hk => hx ⟨k, applyMapReg_xmm.mp (hk ▸ hr)⟩
        rw [Arg.eval_reg hr', Arg.eval_reg fun k hk => hx ⟨k, hk⟩, size_applyMapReg hr,
          readReg_applyMapReg hm hip hr]
  | int n => cases h; rfl
  | empty => cases h; rfl
  | none => cases h; rfl

/-- The writes of a renamed instruction land on the operands of the original one. -/
theorem writeArgs_applyMap (hm : m.Injective) {args args' : List Arg}
    (h : applyMap m args = some args') (writes : List (Option (BitVec 64))) (c : Machine) :
    absRegs m { c with regs := writeArgs args' writes c.regs } =
      writeArgs args writes (absRegs m c) := by
  induction args generalizing args' writes c with
  | nil =>
      cases h
      cases writes <;> rfl
  | cons a args ih =>
      simp only [applyMap, List.mapM_cons, Option.bind_eq_bind, Option.pure_def,
        Option.bind_eq_some_iff, Option.some.injEq] at h
      obtain ⟨a', ha, args'', hargs, rfl⟩ := h
      cases writes with
      | nil => cases a <;> cases a' <;> rfl
      | cons x writes =>
          cases a with
          | reg r =>
              obtain ⟨r', hr, rfl⟩ := Option.map_eq_some_iff.mp ha
              cases x with
              | none => exact ih hargs writes c
              | some x =>
                  rw [writeArgs, writeArgs, ← writeReg_applyMapReg hm c hr x]
                  exact ih hargs writes { c with regs := writeReg c.regs r' x }
          | mem d =>
              obtain ⟨d', _, rfl⟩ := Option.map_eq_some_iff.mp ha
              cases x <;> exact ih hargs writes c
          | int n => cases ha; cases x <;> exact ih hargs writes c
          | empty => cases ha; cases x <;> exact ih hargs writes c
          | none => cases ha; cases x <;> exact ih hargs writes c

theorem hidden_virt {g : Gpr} (h : g.hidden = true) : (Family.gpr g).virt = none := by
  cases g <;> first | rfl | cases h

theorem hiddenRegs_absRegs (m : RegMap) (c : Machine) :
    hiddenRegs (absRegs m c) = hiddenRegs c.regs := by
  funext g
  unfold hiddenRegs
  split_ifs with hg
  · exact absRegs_plain (hidden_virt hg)
  · rfl

theorem writeHidden_of_virt {writes : Gpr → Option (BitVec 64)} {regs : Regs} {f : Family}
    (h : f.virt ≠ none) : writeHidden writes regs f = regs f := by
  cases f with
  | gpr g =>
      rw [writeHidden]
      split_ifs with hg
      · exact absurd (hidden_virt hg) h
      · rfl
  | _ => rfl

theorem writeHidden_phys (writes : Gpr → Option (BitVec 64)) (regs : Regs) (p : Phys) :
    writeHidden writes regs (.gpr p.gpr) = regs (.gpr p.gpr) :=
  writeHidden_of_virt (phys_virt_ne_none p)

/-- Registers that are used without being named are not renamed. -/
theorem writeHidden_absRegs (m : RegMap) (writes : Gpr → Option (BitVec 64)) (c : Machine) :
    absRegs m { c with regs := writeHidden writes c.regs } = writeHidden writes (absRegs m c) := by
  funext f
  cases hf : f.virt with
  | none =>
      have hplain : absRegs m c f = c.regs f := absRegs_plain hf
      rw [absRegs_plain hf]
      cases f <;> simp only [writeHidden, hplain]
  | some v =>
      rw [writeHidden_of_virt (by rw [hf]; simp), absRegs_virt hf, absRegs_virt hf, virtValue,
        virtValue]
      cases invMap m v with
      | none => rfl
      | some p => exact writeHidden_phys writes c.regs p

/-- **A renamed instruction.** On the abstract state it is the original instruction. -/
theorem exec_applyMap (isa : Isa) (name : String) (hm : m.Injective)
    (hip : ∀ p, m p = some .ip → c.regs (.gpr p.gpr) = ip) {args args' : List Arg}
    (h : applyMap m args = some args') :
    ((Asm.inst name args').exec isa c).map (abs m) = execInst isa ip name args (abs m c) := by
  have heval := MapM.map_congr h (eval_applyMapArg hm hip)
  have hhidden : hiddenRegs (abs m c).regs = hiddenRegs c.regs := hiddenRegs_absRegs m c
  have henv : (abs m c).env = c.env := rfl
  simp only [Asm.exec, execInst, Option.map_map, Machine.state, heval, hhidden, henv]
  apply congrArg (fun f => Option.map f _)
  funext e
  refine congrArg (State.mk · e.env) ?_
  have hwrite := writeArgs_applyMap hm h e.writes { c with env := e.env }
  exact (writeHidden_absRegs m e.hidden _).trans (congrArg (writeHidden e.hidden) hwrite)

end Operands

end UserspaceBypass
