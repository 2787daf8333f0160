import UserspaceBypass.SimulateSteps

/-! When `conflict_resolve` finds room. It takes a free register, then one whose content the
instruction does not name, then the home of SP or BP. The last set is filtered by the names of the
physical registers and not by what they hold: the home of SP is held back if the instruction names
R13, and given away if it names RSP. -/

namespace UserspaceBypass

/-- The registers are allocated: the call returns, everything it was asked for is resident, and
`apply_map` finds it. -/
def Allocates (order : PopOrder) (m : RegMap) (conflict : List Virt) (offset : Nat)
    (args : List Arg) : Prop :=
  ∃ text m', conflictResolve order m conflict offset = some (text, m') ∧
    (∀ v ∈ conflict, m'.Resident v) ∧ ∃ args', applyMap m' args = some args'

/-- There is room: the registers to be resolved find free registers and victims, or else the homes of
SP and BP that may be taken are enough and hold nothing that is asked for. -/
def Room (m : RegMap) (conflict : List Virt) : Prop :=
  let need := (toBeResolved m conflict).length
  let free := (idleRegs m).length + (possibleVictims m conflict).length
  need ≤ free ∨ need ≤ free + (possibleStableVictims m conflict).length ∧
    ∀ p ∈ possibleStableVictims m conflict, ∀ v ∈ conflict, m p ≠ some v

instance (m : RegMap) (conflict : List Virt) : Decidable (Room m conflict) :=
  inferInstanceAs (Decidable (_ ∨ _))

/-- A map between two calls of the handlers of a block: lines have been translated, and the current
line has made some of its calls. -/
def ReachableMap (m : RegMap) : Prop :=
  ∃ world lines address canCheck t emitted t₁ offset steps text t₂,
    translateLines world lines address canCheck (TransState.atBlock t) = some (emitted, t₁) ∧
      runSteps world offset steps t₁ = some (text, t₂) ∧ t₂.regMap = m

theorem ReachableMap.mapInv {m : RegMap} (h : ReachableMap m) : MapInv m := by
  obtain ⟨world, lines, address, canCheck, t, emitted, t₁, offset, steps, text, t₂, hlines, hsteps,
    rfl⟩ := h
  exact runSteps_mapInv (translateLines_mapInv mapInv_blockInit hlines).2 hsteps

def Pools.size (pools : Pools) : Nat :=
  pools.idle.length + pools.victim.length + pools.stable.length

section Loop

variable {offset : Nat} {vs : List Virt} {pools rest : Pools} {m m' : RegMap} {text : List Asm}
  {p : Phys} {evict : Bool}

theorem Pools.size_pop (h : pools.pop = some (p, evict, rest)) : pools.size = rest.size + 1 := by
  have happend := congrArg List.length (Pools.pop_cases h).1
  simp only [List.length_append, List.length_cons] at happend
  rw [Pools.size, Pools.size]
  omega

theorem Pools.pop_eq_none (h : pools.pop = none) : pools.size = 0 := by
  obtain ⟨idle, victim, stable⟩ := pools
  cases idle <;> cases victim <;> cases stable <;> first | rfl | cases h

/-- The loop pops one register for each that is to be resolved. -/
theorem resolveLoop_isSome : (resolveLoop offset vs pools m).isSome ↔ vs.length ≤ pools.size := by
  induction vs generalizing pools m with
  | nil => simp [resolveLoop]
  | cons v vs ih =>
      rw [resolveLoop]
      cases hpop : pools.pop with
      | none => simp [Pools.pop_eq_none hpop]
      | some r =>
          obtain ⟨p, evict, rest⟩ := r
          rw [Pools.size_pop hpop, List.length_cons, Nat.add_le_add_iff_right]
          dsimp only
          rw [Option.isSome_map]
          exact ih

/-- If the free registers and the victims are not enough, the first of the homes is taken. -/
theorem resolveLoop_takes {stable : List Phys} (hok : PoolsOk m pools vs)
    (hstable : pools.stable = p :: stable)
    (hlen : pools.idle.length + pools.victim.length < vs.length)
    (h : resolveLoop offset vs pools m = some (text, m')) : ∃ v ∈ vs, m' p = some v := by
  induction vs generalizing pools m text with
  | nil => cases hlen
  | cons v vs ih =>
      obtain ⟨q, evict, rest, text', hpop, hrest, -⟩ := resolveLoop_cons h
      have hnext : rest.stable = p :: stable →
          rest.idle.length + rest.victim.length < vs.length → ∃ w ∈ v :: vs, m' p = some w := by
        intro hstable' hlen'
        obtain ⟨w, hw, hp⟩ := ih (hok.step hpop) hstable' hlen' hrest
        exact ⟨w, List.mem_cons_of_mem _ hw, hp⟩
      obtain ⟨happend, hcases⟩ := Pools.pop_cases hpop
      rw [List.length_cons] at hlen
      rcases hcases with ⟨-, hidle, hv, hs⟩ | ⟨-, hidle, hidle', hv, hs⟩ | ⟨-, -, -, -, -, hs⟩
      · rw [hidle, List.length_cons] at hlen
        exact hnext (hs.trans hstable) (by rw [hv]; omega)
      · rw [hidle, hv, List.length_nil, List.length_cons] at hlen
        exact hnext (hs.trans hstable) (by rw [hidle', List.length_nil]; omega)
      · -- the home itself is popped, and not popped again
        obtain ⟨rfl, -⟩ := List.cons.inj (hs.symm.trans hstable)
        have hnodup := hok.nodup
        rw [happend, List.nodup_cons] at hnodup
        refine ⟨v, List.mem_cons_self, ?_⟩
        rw [(resolveLoop_map (hok.step hpop) hrest).2.2.2.1 q hnodup.1, Function.update_self]

end Loop

/-- One register in front of the others. -/
def toFront (p : Phys) (l : List Phys) : List Phys := if p ∈ l then p :: l.erase p else l

theorem toFront_perm (p : Phys) (l : List Phys) : (toFront p l).Perm l := by
  unfold toFront
  split_ifs with h
  · exact (List.perm_cons_erase h).symm
  · exact .refl _

/-- The order that gives away one home first. -/
def PopOrder.taking (p : Phys) : PopOrder :=
  { PopOrder.standard with
    stable := toFront p
    stable_perm := toFront_perm p }

section Room

variable {m m' : RegMap} {conflict : List Virt} {offset : Nat} {text : List Asm} {args : List Arg}

theorem applyMapReg_of_resident (h : ∀ v ∈ conflictRegs args, m'.Resident v) {a : Arg}
    (ha : a ∈ args) {r : ExprId} (hr : r ∈ extractReg a) : ∃ r', applyMapReg m' r = some r' := by
  rw [applyMapReg_eq]
  cases hv : r.virt with
  | none => exact ⟨r, rfl⟩
  | some v =>
      obtain ⟨p, hp⟩ := h v (mem_conflictRegs.mpr ⟨a, ha, r, hr, hv⟩)
      cases hinv : invMap m' v with
      | none => exact absurd hp (invMap_eq_none.mp hinv p)
      | some q => exact ⟨q.reg r.width, by simp only [hinv, Option.map_some]⟩

/-- `apply_map` finds every register that is resident. -/
theorem applyMap_of_resident (h : ∀ v ∈ conflictRegs args, m'.Resident v) :
    ∃ args', applyMap m' args = some args' := by
  refine MapM.exists_of_forall fun a ha => ?_
  have hregs := fun r hr => applyMapReg_of_resident h ha (r := r) hr
  cases a with
  | mem d =>
      obtain ⟨regs, hd⟩ := MapM.exists_of_forall fun r hr => hregs r (List.mem_append_left _ hr)
      obtain ⟨mul, hmul⟩ : ∃ mul, applyMapMul m' d.mul = some mul := by
        cases ht : d.mul with
        | none => exact ⟨none, rfl⟩
        | some t =>
            obtain ⟨r', hr'⟩ := hregs t.2 (by simp [extractReg, ht])
            exact ⟨some (t.1, r'), by rw [applyMapMul, hr']; rfl⟩
      exact ⟨_, by rw [applyMapArg, applyMapMem, hd, hmul]; rfl⟩
  | reg r =>
      obtain ⟨r', hr'⟩ := hregs r (by simp [extractReg])
      exact ⟨.reg r', by rw [applyMapArg, hr']; rfl⟩
  | int n => exact ⟨_, rfl⟩
  | empty => exact ⟨_, rfl⟩
  | none => exact ⟨_, rfl⟩

/-- The call returns if it has as many registers to take as it needs. -/
theorem conflictResolve_isSome (order : PopOrder) :
    (conflictResolve order m conflict offset).isSome ↔ (toBeResolved m conflict).length ≤
      (idleRegs m).length + (possibleVictims m conflict).length +
        (possibleStableVictims m conflict).length := by
  rw [conflictResolve, resolveLoop_isSome, Pools.size, (order.iter_perm _).length_eq,
    (order.idle_perm _).length_eq, (order.victim_perm _).length_eq, (order.stable_perm _).length_eq]

/-- What was resident stays so unless its register is given away. -/
theorem Room.resident (hm : MapInv m) (h : Room m conflict) {order : PopOrder}
    (hresolve : conflictResolve order m conflict offset = some (text, m')) :
    ∀ v ∈ conflict, m'.Resident v := by
  intro v hv
  have hok := hm.poolsOk order conflict
  obtain ⟨-, hall, -, hout, hshort⟩ := resolveLoop_map hok hresolve
  by_cases hres : m.Resident v
  · obtain ⟨p, hp⟩ := hres
    refine ⟨p, ?_⟩
    rw [← hp]
    have hidle : p ∉ order.idle (idleRegs m) := by
      rw [(order.idle_perm _).mem_iff, mem_idleRegs, hp]
      nofun
    have hvictim : p ∉ order.victim (possibleVictims m conflict) := by
      rw [(order.victim_perm _).mem_iff, mem_possibleVictims, hp]
      rintro ⟨w, ⟨⟩, hw, -⟩
      exact hw hv
    have hboth : p ∉ order.idle (idleRegs m) ++ order.victim (possibleVictims m conflict) :=
      fun hmem => (List.mem_append.mp hmem).elim hidle hvictim
    rcases h with hfree | ⟨-, hhome⟩
    · refine hshort ?_ p hboth
      dsimp only
      rw [(order.iter_perm _).length_eq, (order.idle_perm _).length_eq,
        (order.victim_perm _).length_eq]
      exact hfree
    · refine hout p fun hmem => (List.mem_append.mp hmem).elim hboth fun hstable => ?_
      exact hhome p ((order.stable_perm _).mem_iff.mp hstable) v hv hp
  · refine hall v ((order.iter_perm _).mem_iff.mpr (mem_toBeResolved.mpr ⟨hv, fun p hp => ?_⟩))
    exact hres ⟨p, hp⟩

theorem makeInst_applyMap {name : String} {args' : List Arg} (h : applyMap m args = some args')
    (hsize : ∀ d, Arg.mem d ∈ args → d.sz ∈ sz2pfx) :
    makeInst name args' = some (.inst name args') := by
  refine if_pos (List.all_eq_true.mpr fun a' ha' => ?_)
  obtain ⟨a, ha, heq⟩ : ∃ a ∈ args, applyMapArg m a = some a' := by
    clear hsize
    induction args generalizing args' with
    | nil =>
        cases h
        exact absurd ha' List.not_mem_nil
    | cons a args ih =>
        simp only [applyMap, List.mapM_cons, Option.bind_eq_bind, Option.pure_def,
          Option.bind_eq_some_iff, Option.some.injEq] at h
        obtain ⟨b, hb, bs, hbs, rfl⟩ := h
        rcases List.mem_cons.mp ha' with rfl | ha'
        · exact ⟨a, List.mem_cons_self, hb⟩
        · obtain ⟨x, hx, hxa⟩ := ih hbs ha'
          exact ⟨x, List.mem_cons_of_mem _ hx, hxa⟩
  cases a with
  | mem d =>
      obtain ⟨d', hd', rfl⟩ := Option.map_eq_some_iff.mp heq
      have hd := hsize d ha
      rw [← (applyMapMem_some hd').1] at hd
      exact decide_eq_true hd
  | reg r => obtain ⟨r', -, rfl⟩ := Option.map_eq_some_iff.mp heq; rfl
  | int n => cases heq; rfl
  | empty => cases heq; rfl
  | none => cases heq; rfl

theorem Room.allocates (hroom : Room m conflict) (hinv : MapInv m)
    (hargs : ∀ v ∈ conflictRegs args, v ∈ conflict) (order : PopOrder) (offset : Nat) :
    Allocates order m conflict offset args := by
  have hlen : (toBeResolved m conflict).length ≤ (idleRegs m).length +
      (possibleVictims m conflict).length + (possibleStableVictims m conflict).length := by
    rcases hroom with hfree | ⟨hlen, -⟩
    · exact hfree.trans (Nat.le_add_right _ _)
    · exact hlen
  obtain ⟨⟨text, m'⟩, hresolve⟩ : ∃ r, conflictResolve order m conflict offset = some r :=
    Option.isSome_iff_exists.mp ((conflictResolve_isSome order).mpr hlen)
  have hresident := hroom.resident hinv hresolve
  exact ⟨text, m', hresolve, hresident, applyMap_of_resident fun v hv => hresident v (hargs v hv)⟩

/-- An instruction is translated in every pop order if there is room for its registers. -/
theorem processPurified_of_room {t : TransState} (hm : MapInv t.regMap)
    (hroom : Room t.regMap (conflictRegs args)) (hsize : ∀ d, Arg.mem d ∈ args → d.sz ∈ sz2pfx)
    (world : World) (name : String) (offset : Nat) (canCheck : Bool) :
    ∃ text t', processPurified world name args offset canCheck t = some (text, t') := by
  rw [processPurified]
  split_ifs with hnil
  · rw [makeInst_applyMap (applyMap_plain (m := t.regMap) hnil) hsize]
    exact ⟨_, _, rfl⟩
  · obtain ⟨pre, m', hresolve, hresident, args', hargs⟩ :=
      hroom.allocates hm (fun _ hv => hv) (world.order t.calls) offset
    obtain ⟨toCheck, hcheck⟩ : ∃ ys, (toCheckRegs name args t.checked).mapM (applyMapReg m') = some ys := by
      refine MapM.exists_of_forall fun r hr => ?_
      obtain ⟨a, ha, hra⟩ := mem_toCheckRegs hr
      exact applyMapReg_of_resident hresident ha hra
    simp only [hresolve, hargs, hcheck, makeInst_applyMap hargs hsize, Option.bind_eq_bind,
      Option.bind_some, Option.pure_def]
    exact ⟨_, _, rfl⟩

theorem room_of_resident (h : ∀ v ∈ conflict, m.Resident v) : Room m conflict := by
  refine Or.inl ?_
  have hnil : toBeResolved m conflict = [] := by
    refine List.eq_nil_iff_forall_not_mem.mpr fun v hv => ?_
    obtain ⟨hmem, habsent⟩ := mem_toBeResolved.mp hv
    obtain ⟨p, hp⟩ := h v hmem
    exact habsent p hp
  simp [hnil]

/-- A call of a handler returns in every pop order if there is room. -/
theorem Step.run_of_room {step : Step} {t : TransState} {call : Call} {world : World}
    (hcall : step.call world offset t.heap = some call) (hm : MapInv t.regMap)
    (hroom : Room t.regMap (conflictRegs call.args))
    (hsize : ∀ d, Arg.mem d ∈ call.args → d.sz ∈ sz2pfx) :
    ∃ text t', step.run world offset t = some (text, t') := by
  obtain ⟨heap, hrun⟩ := Step.run_call hcall
  rw [hrun]
  exact processPurified_of_room (t := { t with heap := heap }) hm hroom hsize world _ _ _

theorem Step.run_resolve {t : TransState} (hm : MapInv t.regMap) (world : World) (tmp : Tmp) :
    ∃ text t', (Step.resolve tmp).run world offset t = some (text, t') := by
  have hlen := toBeResolved_tmp_le hm tmp.virt_isTmp
  obtain ⟨r, hr⟩ : ∃ r, conflictResolve (world.order t.calls) t.regMap [tmp.virt] 0 = some r :=
    Option.isSome_iff_exists.mp ((conflictResolve_isSome _).mpr (hlen.trans (Nat.le_add_right _ _)))
  exact ⟨_, _, congrArg (Option.map _) hr⟩

/-- In the order that gives away a home first, what it holds is lost. -/
theorem room_of_allocates (hinv : MapInv m)
    (h : ∀ order, Allocates order m conflict offset args) : Room m conflict := by
  by_cases hfree : (toBeResolved m conflict).length ≤
      (idleRegs m).length + (possibleVictims m conflict).length
  · exact Or.inl hfree
  · refine Or.inr ⟨?_, fun p hp v hv hpv => ?_⟩
    · obtain ⟨text, m', hresolve, -⟩ := h .standard
      exact (conflictResolve_isSome .standard).mp (by rw [hresolve]; rfl)
    · obtain ⟨text, m', hresolve, hresident, -⟩ := h (.taking p)
      obtain ⟨q, hq⟩ := hresident v hv
      have htaken : ∃ w ∈ (PopOrder.taking p).iter (toBeResolved m conflict), m' p = some w :=
        resolveLoop_takes (hinv.poolsOk (.taking p) conflict) (if_pos hp) (Nat.lt_of_not_le hfree)
          hresolve
      obtain ⟨w, hw, hpw⟩ := htaken
      have habsent := (mem_toBeResolved.mp hw).2
      rcases conflictResolve_map hinv hresolve q with hsame | ⟨u, -, hu, hqu⟩
      · have hqp : q = p := hinv.inj q p v (hsame ▸ hq) hpv
        rw [hqp, hpw] at hq
        exact habsent p (hq ▸ hpv)
      · rw [hq] at hqu
        exact hu p (hqu ▸ hpv)

section Local

variable {world : World} (orders : Nat → PopOrder) {t t' : TransState}

end Local

/-- **Register allocation.** For every map that is reached in a block and every set of registers
that an instruction asks for: in every pop order the call returns, leaves all of them resident and
lets `apply_map` find them, if and only if there is room. -/
theorem allocates_iff_room (hm : ReachableMap m) (hargs : ∀ v ∈ conflictRegs args, v ∈ conflict)
    (offset : Nat) :
    (∀ order, Allocates order m conflict offset args) ↔ Room m conflict :=
  ⟨room_of_allocates hm.mapInv, fun hroom order => hroom.allocates hm.mapInv hargs order offset⟩

end Room

/-- The operands of `MOV [R12+R13], R14`. -/
def threeSpecials : List Arg :=
  [.mem ⟨64, [.gpr .r12 .q, .gpr .r13 .q], none, none⟩, .reg (.gpr .r14 .q)]

theorem reachableMap_blockInit : ReachableMap blockInit :=
  ⟨.standard, [], 0, [], .start, [], .start, 0, [], [], .start, rfl, rfl, rfl⟩

/-- At the start of a block two registers are free; the third one is not found, for the homes of SP
and BP are called R13 and R12. -/
theorem threeSpecials_not_allocated :
    ReachableMap blockInit ∧
      ∀ order, ¬Allocates order blockInit (conflictRegs threeSpecials) 0x401000 threeSpecials := by
  refine ⟨reachableMap_blockInit, ?_⟩
  rintro order ⟨text, m', hresolve, -⟩
  have hsome : (conflictResolve order blockInit (conflictRegs threeSpecials) 0x401000).isSome := by
    rw [hresolve]
    rfl
  rw [conflictResolve_isSome] at hsome
  exact absurd hsome (by decide)

/-- The operands of `MOV R15, [R14]`. -/
def twoSpecials : List Arg := [.reg (.gpr .r15 .q), .mem ⟨64, [.gpr .r14 .q], none, none⟩]

theorem allocates_iff_room_twoSpecials :
    ReachableMap blockInit ∧
      ∀ order, Allocates order blockInit (conflictRegs twoSpecials) 0x401000 twoSpecials :=
  ⟨reachableMap_blockInit,
    (allocates_iff_room reachableMap_blockInit (fun _ hv => hv) 0x401000).mpr (by decide)⟩

end UserspaceBypass
