import UserspaceBypass.SlotTable
import Mathlib.Data.BitVec

/-! When a miss is reported. `exe_on_call` counts chained calls and misses in the slot, and reports a
miss only if the misses outnumber the calls. Neither `exe_init` nor `exe_add` sets the two counters:
they go on from what `vmalloc` has left there. -/

namespace UserspaceBypass

open StraightLine

/-- The end of an iteration that has chained a system call. -/
def SlotEvent.success (i : Fin maxExe) : SlotEvent → Bool
  | .leave j regs args0 => j = i ∧ args0 = argNormal ∧ legalCall regs.ax
  | _ => false

/-- The end of an iteration that has missed a callee or a jump target. -/
def SlotEvent.miss (i : Fin maxExe) : SlotEvent → Bool
  | .leave j _ args0 => j = i ∧ args0 ≠ argNormal
  | _ => false

def successes (i : Fin maxExe) (events : List SlotEvent) : Nat := events.countP (SlotEvent.success i)

def misses (i : Fin maxExe) (events : List SlotEvent) : Nat := events.countP (SlotEvent.miss i)

/-- The two counters say what happened in these events. -/
structure Balanced (i : Fin maxExe) (events : List SlotEvent) (s : Slots) : Prop where
  success : (s.kernel.exes i).successCnt.toNat = successes i events
  fail : (s.kernel.exes i).failCnt.toNat = misses i events

/-- A miss of a slot in operation is reported exactly if more misses than calls came before it, and
only counted otherwise. -/
def ReportsBalance (i : Fin maxExe) (events : List SlotEvent) (s : Slots) : Prop :=
  ∀ regs args0, args0 ≠ argNormal → (s.kernel.exes i).statusCode = .normal →
    (((s.kernel.exes i).afterCall regs args0).statusCode =
        (if args0 = argCallMiss then .callMiss else .ijMiss) ↔
      successes i events < misses i events) ∧
    (¬successes i events < misses i events →
      (s.kernel.exes i).afterCall regs args0 =
        { s.kernel.exes i with failCnt := (s.kernel.exes i).failCnt + 1 })

section Counters

variable {s s' : Slots} {i : Fin maxExe}

theorem ExeInfo.afterCall_counters (exe : ExeInfo) (regs : PtRegs) (args0 : BitVec 64) :
    (exe.afterCall regs args0).successCnt =
        exe.successCnt + (if args0 = argNormal ∧ legalCall regs.ax then 1 else 0) ∧
      (exe.afterCall regs args0).failCnt = exe.failCnt + if args0 ≠ argNormal then 1 else 0 := by
  unfold ExeInfo.afterCall
  split_ifs <;> simp_all

/-- `exe_add` leaves the counters as they are. -/
theorem exeAdd_counters (pid : BitVec 32) (rip : BitVec 64) (mem : Vmalloc) (k : Kernel)
    (i : Fin maxExe) :
    ((exeAdd pid rip mem k).exes i).successCnt = (k.exes i).successCnt ∧
      ((exeAdd pid rip mem k).exes i).failCnt = (k.exes i).failCnt := by
  unfold exeAdd
  dsimp only
  split_ifs
  · exact ⟨rfl, rfl⟩
  · exact ⟨rfl, rfl⟩
  · by_cases hi : i = getExe pid rip
    · subst hi
      simp
    · simp [Kernel.update_ne k hi]

/-- So does a packet. -/
theorem sysfsStore_counters (head : RecvPkt) (payload : List UInt8) (k : Kernel) (i : Fin maxExe) :
    ((sysfsStore head payload k).exes i).successCnt = (k.exes i).successCnt ∧
      ((sysfsStore head payload k).exes i).failCnt = (k.exes i).failCnt := by
  unfold sysfsStore
  dsimp only
  split_ifs
  · by_cases hi : i = getExe head.pid head.rip
    · subst hi
      simp
    · simp [Kernel.update_ne k hi]
  · exact ⟨rfl, rfl⟩

theorem counters_step {event : SlotEvent} (hstep : slotStep event s = some s') (i : Fin maxExe) :
    (s'.kernel.exes i).successCnt =
        (s.kernel.exes i).successCnt + (if event.success i then 1 else 0) ∧
      (s'.kernel.exes i).failCnt = (s.kernel.exes i).failCnt + if event.miss i then 1 else 0 := by
  cases event with
  | add pid rip mem =>
      cases hstep
      obtain ⟨hsuccess, hfail⟩ := exeAdd_counters pid rip mem s.kernel i
      simp [hsuccess, hfail, SlotEvent.success, SlotEvent.miss]
  | enter pid ip =>
      simp only [slotStep] at hstep
      split_ifs at hstep
      cases hstep
      simp [SlotEvent.success, SlotEvent.miss]
  | leave j regs args0 =>
      simp only [slotStep] at hstep
      split_ifs at hstep
      cases hstep
      by_cases hij : j = i
      · subst hij
        simpa [SlotEvent.success, SlotEvent.miss] using (s.kernel.exes j).afterCall_counters regs args0
      · simp [SlotEvent.success, SlotEvent.miss, hij, Kernel.update_ne s.kernel (Ne.symm hij)]
  | «show» =>
      cases hstep
      simp [SlotEvent.success, SlotEvent.miss]
  | store head payload =>
      simp only [slotStep] at hstep
      split_ifs at hstep
      cases hstep
      obtain ⟨hsuccess, hfail⟩ := sysfsStore_counters head payload s.kernel i
      simp [hsuccess, hfail, SlotEvent.success, SlotEvent.miss]

/-- A counter that is raised by some of the events. -/
theorem ofNat_countP_cons {α : Type*} (p : α → Bool) (x : α) (l : List α) :
    BitVec.ofNat 64 ((x :: l).countP p) =
      (if p x then 1 else 0) + BitVec.ofNat 64 (l.countP p) := by
  rw [List.countP_cons, add_comm, BitVec.ofNat_add]
  split_ifs <;> rfl

/-- Over a run the counters go up by the numbers of calls and misses, modulo `2^64`. -/
theorem counters_run {events : List SlotEvent} (hrun : runAll slotStep events s = some s')
    (i : Fin maxExe) :
    (s'.kernel.exes i).successCnt =
        (s.kernel.exes i).successCnt + BitVec.ofNat 64 (successes i events) ∧
      (s'.kernel.exes i).failCnt =
        (s.kernel.exes i).failCnt + BitVec.ofNat 64 (misses i events) := by
  induction events generalizing s with
  | nil =>
      cases hrun
      simp [successes, misses]
  | cons event events ih =>
      obtain ⟨mid, hstep, hrest⟩ := Option.bind_eq_some_iff.mp hrun
      obtain ⟨hsuccess, hfail⟩ := counters_step hstep i
      obtain ⟨hsuccess', hfail'⟩ := ih hrest
      rw [successes, misses, ofNat_countP_cons, ofNat_countP_cons, ← add_assoc, ← add_assoc,
        ← hsuccess, ← hfail]
      exact ⟨hsuccess', hfail'⟩

/-- Before `exe_add` has taken it, a slot is not executed. -/
theorem not_counted_before {start : Slots} (hstart : start.Fresh) {events : List SlotEvent}
    (hrun : runAll slotStep events start = some s) (hfree : ¬s.kernel.Used i) :
    successes i events = 0 ∧ misses i events = 0 := by
  have hnone : ∀ event ∈ events, ∀ regs args0, event ≠ .leave i regs args0 := by
    rintro event hevent regs args0 rfl
    obtain ⟨before, after, rfl⟩ := List.append_of_mem hevent
    obtain ⟨s₁, hbefore, hrest⟩ := runAll_append_some.mp hrun
    obtain ⟨s₂, hleave, hafter⟩ := Option.bind_eq_some_iff.mp hrest
    obtain ⟨hplaced, -⟩ := (Placed.fresh hstart).run hbefore
    have hrunning : i ∈ s₁.running := by
      by_contra hnot
      rw [slotStep, if_neg hnot] at hleave
      cases hleave
    obtain ⟨hplaced₂, hkeeps⟩ := hplaced.step hleave
    obtain ⟨-, hkeeps'⟩ := hplaced₂.run hafter
    exact hfree ((hkeeps.trans hkeeps') i (hplaced.running i hrunning)).1
  constructor
  · refine List.countP_eq_zero.mpr fun event hevent => ?_
    cases event with
    | leave j regs args0 =>
        have hne : j ≠ i := fun hij => hnone _ hevent regs args0 (by rw [hij])
        simp [SlotEvent.success, hne]
    | _ => simp [SlotEvent.success]
  · refine List.countP_eq_zero.mpr fun event hevent => ?_
    cases event with
    | leave j regs args0 =>
        have hne : j ≠ i := fun hij => hnone _ hevent regs args0 (by rw [hij])
        simp [SlotEvent.miss, hne]
    | _ => simp [SlotEvent.miss]

/-- What the counters decide is what the events say. -/
theorem Balanced.reports {events : List SlotEvent} (h : Balanced i events s) :
    ReportsBalance i events s := by
  intro regs args0 hmiss hnormal
  have hlt : (s.kernel.exes i).successCnt < (s.kernel.exes i).failCnt ↔
      successes i events < misses i events := by
    rw [BitVec.lt_def, h.success, h.fail]
  rw [← hlt]
  unfold ExeInfo.afterCall
  by_cases hmore : (s.kernel.exes i).successCnt < (s.kernel.exes i).failCnt
  · by_cases hcall : args0 = argCallMiss
    · simp [hmore, hcall, argCallMiss, argNormal]
    · simp [hmiss, hmore, hcall]
  · simp only [hmiss, if_false, hmore, false_and, not_false_eq_true, imp_self, and_true, iff_false,
      hnormal]
    split_ifs <;> decide

end Counters

/-- A counter is right after every part of a run exactly if it starts at zero and does not wrap. -/
theorem counter_iff {x : BitVec 64} {n : Nat} :
    (x = 0 ∧ (x + BitVec.ofNat 64 n).toNat = n) ↔ x = 0 ∧ n < 2 ^ 64 := by
  refine and_congr_right ?_
  rintro rfl
  rw [zero_add, BitVec.toNat_ofNat]
  constructor
  · intro h
    rw [← h]
    exact Nat.mod_lt _ (by decide)
  · exact Nat.mod_eq_of_lt

/-- **Miss reports.** For a slot that `exe_add` takes in a run, and every further run: after each part
of it the counters are the numbers of chained calls and misses since, and decide every miss
accordingly, if and only if both counters are zero in the memory the module started with and neither
number reaches `2^64`. -/
theorem miss_balance_iff {start s₀ s : Slots} (hstart : start.Fresh) {before after : List SlotEvent}
    (hbefore : runAll slotStep before start = some s₀) {pid : BitVec 32} {rip : BitVec 64}
    {mem : Vmalloc} (hfree : ¬s₀.kernel.Used (getExe pid rip))
    (hrun : runAll slotStep (.add pid rip mem :: after) s₀ = some s) :
    (∀ done rest, after = done ++ rest →
      ∀ s', runAll slotStep (.add pid rip mem :: done) s₀ = some s' →
        Balanced (getExe pid rip) done s' ∧ ReportsBalance (getExe pid rip) done s') ↔
      (start.kernel.exes (getExe pid rip)).successCnt = 0 ∧
      (start.kernel.exes (getExe pid rip)).failCnt = 0 ∧
      successes (getExe pid rip) after < 2 ^ 64 ∧ misses (getExe pid rip) after < 2 ^ 64 := by
  generalize hi : getExe pid rip = i at *
  obtain ⟨hzeroSuccess, hzeroMiss⟩ := not_counted_before hstart hbefore hfree
  have hvalue : ∀ done s', runAll slotStep (.add pid rip mem :: done) s₀ = some s' →
      (s'.kernel.exes i).successCnt =
          (start.kernel.exes i).successCnt + BitVec.ofNat 64 (successes i done) ∧
        (s'.kernel.exes i).failCnt =
          (start.kernel.exes i).failCnt + BitVec.ofNat 64 (misses i done) := by
    intro done s' hdone
    obtain ⟨hsuccess, hfail⟩ := counters_run hbefore i
    obtain ⟨hsuccess', hfail'⟩ := counters_run hdone i
    rw [hzeroSuccess, BitVec.add_zero] at hsuccess
    rw [hzeroMiss, BitVec.add_zero] at hfail
    rw [hsuccess] at hsuccess'
    rw [hfail] at hfail'
    exact ⟨hsuccess', hfail'⟩
  constructor
  · intro hall
    obtain ⟨s₁, hadd, -⟩ := Option.bind_eq_some_iff.mp hrun
    have hnil : runAll slotStep [.add pid rip mem] s₀ = some s₁ := by rwa [runAll_singleton]
    obtain ⟨hfirst, -⟩ := hall [] after rfl s₁ hnil
    obtain ⟨hlast, -⟩ := hall after [] (List.append_nil _).symm s hrun
    obtain ⟨hsuccess₁, hfail₁⟩ := hvalue [] s₁ hnil
    obtain ⟨hsuccess, hfail⟩ := hvalue after s hrun
    have hzero : ∀ {x y : BitVec 64}, x = y + BitVec.ofNat 64 0 → x.toNat = 0 → y = 0 := by
      intro x y hxy hx
      rw [BitVec.add_zero] at hxy
      rw [← hxy]
      exact BitVec.eq_of_toNat_eq hx
    have hsuccess₀ := hzero hsuccess₁ hfirst.success
    have hfail₀ := hzero hfail₁ hfirst.fail
    refine ⟨hsuccess₀, hfail₀, (counter_iff.mp ⟨hsuccess₀, ?_⟩).2, (counter_iff.mp ⟨hfail₀, ?_⟩).2⟩
    · rw [← hsuccess]
      exact hlast.success
    · rw [← hfail]
      exact hlast.fail
  · rintro ⟨hsuccess₀, hfail₀, hsuccesses, hmisses⟩ done rest rfl s' hdone
    obtain ⟨hsuccess, hfail⟩ := hvalue done s' hdone
    have hle : successes i done ≤ successes i (done ++ rest) ∧
        misses i done ≤ misses i (done ++ rest) := by
      rw [successes, successes, misses, misses, List.countP_append, List.countP_append]
      omega
    have hbalanced : Balanced i done s' := by
      constructor
      · rw [hsuccess]
        exact (counter_iff.mpr ⟨hsuccess₀, hle.1.trans_lt hsuccesses⟩).2
      · rw [hfail]
        exact (counter_iff.mpr ⟨hfail₀, hle.2.trans_lt hmisses⟩).2
    exact ⟨hbalanced, hbalanced.reports⟩

/-- A slot next to another one gets its code; it misses, chains a call, and misses again. -/
def iterations : List SlotEvent :=
  [.show, .store ⟨.normal, 1, 0x7ffff7de6487, 0⟩ [0xC3],
    .enter 1 0x7ffff7de6487, .leave (getExe 1 0x7ffff7de6487) default argCallMiss,
    .enter 1 0x7ffff7de6487, .leave (getExe 1 0x7ffff7de6487) default argNormal,
    .enter 1 0x7ffff7de6487, .leave (getExe 1 0x7ffff7de6487) default argCallMiss,
    .enter 1 0x7ffff7de6487]

theorem iterations_run :
    ((runAll slotStep (.add 2 0x7ffff7de6487 zeroed :: .add 1 0x7ffff7de6487 zeroed :: iterations)
      freshSlots).map fun s => (s.kernel.exes (getExe 1 0x7ffff7de6487)).statusCode) =
        some .normal := by
  decide +kernel

/-- The next miss is reported. -/
theorem miss_balance_iterations :
    ∃ s, runAll slotStep (.add 2 0x7ffff7de6487 zeroed :: .add 1 0x7ffff7de6487 zeroed ::
        iterations) freshSlots = some s ∧
      Balanced (getExe 1 0x7ffff7de6487) iterations s ∧
      ∀ regs, ((s.kernel.exes (getExe 1 0x7ffff7de6487)).afterCall regs argCallMiss).statusCode =
        .callMiss := by
  obtain ⟨s, hrun, hnormal⟩ := Option.map_eq_some_iff.mp iterations_run
  have hstart : freshSlots.Fresh := ⟨fun _ => rfl, rfl, rfl, rfl⟩
  obtain ⟨s₀, hbefore, hafter⟩ := Option.bind_eq_some_iff.mp hrun
  have hadded : runAll slotStep [.add 2 0x7ffff7de6487 zeroed] freshSlots = some s₀ :=
    (runAll_singleton ..).trans hbefore
  have hfree : ¬s₀.kernel.Used (getExe 1 0x7ffff7de6487) := by
    cases hbefore
    decide +kernel
  have hlaw := (miss_balance_iff hstart hadded hfree hafter).mpr
    ⟨rfl, rfl, by decide +kernel, by decide +kernel⟩
  obtain ⟨hbalanced, hreports⟩ := hlaw iterations [] (List.append_nil _).symm s hafter
  refine ⟨s, hrun, hbalanced, fun regs => ?_⟩
  exact (hreports regs argCallMiss (by decide) hnormal).1.mpr (by decide +kernel)

/-- One call site is added, read, and gets its code. -/
def oneSite : List SlotEvent :=
  [.add 1 0x7ffff7de6487 zeroed, .show, .store ⟨.normal, 1, 0x7ffff7de6487, 0⟩ [0xC3],
    .enter 1 0x7ffff7de6487]

/-- A table with a count of misses that was there before. -/
def staleSlots : Slots :=
  ⟨⟨fun _ => ⟨.unUsed, 0, 0, 0, fun _ => 0, 0, 0, 0, 1⟩, 0⟩, [], []⟩

/-- The first execution of the slot misses, and is reported, although no miss came before it. -/
theorem first_miss_reported : staleSlots.Fresh ∧
    misses (getExe 1 0x7ffff7de6487) oneSite = 0 ∧
    ((runAll slotStep (oneSite ++ [.leave (getExe 1 0x7ffff7de6487) default argCallMiss])
        staleSlots).map fun s => (s.kernel.exes (getExe 1 0x7ffff7de6487)).statusCode) =
      some .callMiss :=
  ⟨⟨fun _ => rfl, rfl, rfl, rfl⟩, by decide, by decide +kernel⟩

end UserspaceBypass
