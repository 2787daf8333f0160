import UserspaceBypass.KernelExe
import UserspaceBypass.LibStraightLine
import Mathlib.Data.Finset.Card
import Mathlib.Data.Fintype.Basic
import Mathlib.Data.List.FinRange

/-! The table of slots over whole runs. A slot is taken by `exe_add` and never given back; the
running process moves its status and its counters, and a packet its status and the memory behind
`code_block`. The daemon copies pid and RIP of a packet from a record of `sysfs_show`, so that it
always finds the slot it has read. -/

namespace UserspaceBypass

open StraightLine Chunk

/-- The table, the slots whose code is being executed, and the records the daemon has read. -/
structure Slots where
  kernel : Kernel
  running : List (Fin maxExe)
  shown : List ExeInfo

/-- An iteration of `exe_on_call` has two ends, between which other steps may come. -/
inductive SlotEvent where
  | add (pid : BitVec 32) (rip : BitVec 64) (mem : Vmalloc)
  | enter (pid : BitVec 32) (ip : BitVec 64)
  | leave (i : Fin maxExe) (regs : PtRegs) (args0 : BitVec 64)
  | show
  | store (head : RecvPkt) (payload : List UInt8)

/-- A packet of the daemon. -/
def Slots.Sends (s : Slots) (head : RecvPkt) : Prop :=
  (∃ x ∈ s.shown, x.pid = head.pid ∧ x.rip = head.rip) ∧
    (head.statusCode = .normal ∨ head.statusCode = .unInit)

instance (s : Slots) (head : RecvPkt) : Decidable (s.Sends head) :=
  inferInstanceAs (Decidable (_ ∧ _))

def slotStep : SlotEvent → Slots → Option Slots
  | .add pid rip mem, s => some { s with kernel := exeAdd pid rip mem s.kernel }
  | .enter pid ip, s =>
      if Enters s.kernel pid ip then some { s with running := getExe pid ip :: s.running } else none
  | .leave i regs args0, s =>
      if i ∈ s.running then
        some { s with
          kernel := s.kernel.update i ((s.kernel.exes i).afterCall regs args0)
          running := s.running.erase i }
      else none
  | .show, s => some { s with shown := sysfsShow s.kernel ++ s.shown }
  | .store head payload, s =>
      if s.Sends head then some { s with kernel := sysfsStore head payload s.kernel } else none

/-- The state `exe_init` leaves. -/
structure Slots.Fresh (s : Slots) : Prop where
  unused : ∀ i, (s.kernel.exes i).statusCode = .unUsed
  added : s.kernel.added = 0
  running : s.running = []
  shown : s.shown = []

def Kernel.Used (k : Kernel) (i : Fin maxExe) : Prop := (k.exes i).statusCode ≠ .unUsed

instance (k : Kernel) : DecidablePred k.Used := fun _ => inferInstanceAs (Decidable (_ ≠ _))

def Kernel.usedSlots (k : Kernel) : Finset (Fin maxExe) := Finset.univ.filter k.Used

/-- `sizeof(struct exe_info)` -/
def exeInfoSize : Nat := 56

/-- What a used slot keeps. -/
structure ExeInfo.SameSite (p q : ExeInfo) : Prop where
  pid : q.pid = p.pid
  rip : q.rip = p.rip
  codeBlock : q.codeBlock = p.codeBlock

/-- No slot in use is lost or taken over. -/
def Kernel.Keeps (k k' : Kernel) : Prop :=
  ∀ i, k.Used i → k'.Used i ∧ (k.exes i).SameSite (k'.exes i)

/-- The invariant of the table. -/
structure Placed (s : Slots) : Prop where
  count : s.kernel.usedSlots.card = s.kernel.added
  bound : s.kernel.added ≤ 63
  place : ∀ i, s.kernel.Used i → getExe (s.kernel.exes i).pid (s.kernel.exes i).rip = i
  running : ∀ i ∈ s.running, s.kernel.Used i
  shown : ∀ x ∈ s.shown, ∃ i, s.kernel.Used i ∧ (s.kernel.exes i).pid = x.pid ∧
    (s.kernel.exes i).rip = x.rip

section Keeps

variable {k k' : Kernel} {i : Fin maxExe}

theorem ExeInfo.SameSite.refl (p : ExeInfo) : p.SameSite p := ⟨rfl, rfl, rfl⟩

theorem Kernel.Keeps.refl (k : Kernel) : k.Keeps k := fun _ h => ⟨h, .refl _⟩

theorem Kernel.Keeps.trans {k'' : Kernel} (h : k.Keeps k') (h' : k'.Keeps k'') : k.Keeps k'' := by
  intro i hi
  obtain ⟨hused, hsame⟩ := h i hi
  obtain ⟨hused', hsame'⟩ := h' i hused
  exact ⟨hused', hsame'.pid.trans hsame.pid, hsame'.rip.trans hsame.rip,
    hsame'.codeBlock.trans hsame.codeBlock⟩

/-- A slot in use is overwritten, and stays what it is. -/
theorem Kernel.keeps_update (hi : k.Used i) {p : ExeInfo} (hp : p.statusCode ≠ .unUsed)
    (hsame : (k.exes i).SameSite p) :
    k.Keeps (k.update i p) ∧ (k.update i p).usedSlots = k.usedSlots := by
  have hused : ∀ j, (k.update i p).Used j ↔ k.Used j := by
    intro j
    by_cases hj : j = i
    · subst hj
      simp only [Kernel.Used, Kernel.update_self]
      exact iff_of_true hp hi
    · rw [Kernel.Used, Kernel.update_ne k hj, Kernel.Used]
  refine ⟨fun j hj => ⟨(hused j).mpr hj, ?_⟩, Finset.filter_congr fun j _ => hused j⟩
  by_cases hji : j = i
  · subst hji
    rw [Kernel.update_self]
    exact hsame
  · rw [Kernel.update_ne k hji]
    exact .refl _

/-- The slot `exe_add` takes was not in use, and there was room. -/
theorem exeAdd_cases (pid : BitVec 32) (rip : BitVec 64) (mem : Vmalloc) (k : Kernel) :
    exeAdd pid rip mem k = k ∨
      ¬k.Used (getExe pid rip) ∧ k.added ≤ 62 ∧ (exeAdd pid rip mem k).added = k.added + 1 ∧
        ∃ p : ExeInfo, p.statusCode = .unInit ∧ p.pid = pid ∧ p.rip = rip ∧
          (exeAdd pid rip mem k).exes = (k.update (getExe pid rip) p).exes := by
  unfold exeAdd
  dsimp only
  split_ifs with hused hfull
  · exact Or.inl rfl
  · exact Or.inl rfl
  · exact Or.inr ⟨hused, Nat.not_lt.mp hfull, rfl, _, rfl, rfl, rfl, rfl⟩

/-- What a packet does to a slot it finds. -/
theorem sysfsStore_found {head : RecvPkt} (payload : List UInt8)
    (hplace : getExe head.pid head.rip = i) (hpid : (k.exes i).pid = head.pid)
    (hrip : (k.exes i).rip = head.rip) : sysfsStore head payload k = k.update i
      { k.exes i with
        code := blit (k.exes i).code head.offset payload, statusCode := head.statusCode } := by
  subst hplace
  exact if_pos ⟨hrip, hpid⟩

end Keeps

section Steps

variable {s s' : Slots}

theorem Placed.fresh (h : s.Fresh) : Placed s where
  count := by
    rw [h.added, Finset.card_eq_zero, Kernel.usedSlots, Finset.filter_eq_empty_iff]
    exact fun i _ hi => hi (h.unused i)
  bound := by rw [h.added]; exact Nat.zero_le _
  place i hi := absurd (h.unused i) hi
  running i hi := by
    rw [h.running] at hi
    cases hi
  shown x hx := by
    rw [h.shown] at hx
    cases hx

/-- A step that keeps the slots and takes none. -/
theorem Placed.keep (h : Placed s) {k' : Kernel} (hkeeps : s.kernel.Keeps k')
    (hused : k'.usedSlots = s.kernel.usedSlots) (hadded : k'.added = s.kernel.added) :
    Placed { s with kernel := k' } where
  count := by
    rw [hused, hadded]
    exact h.count
  bound := by
    rw [hadded]
    exact h.bound
  place i hi := by
    have hi' : s.kernel.Used i := by
      have hmem : i ∈ k'.usedSlots := Finset.mem_filter.mpr ⟨Finset.mem_univ i, hi⟩
      rw [hused] at hmem
      exact (Finset.mem_filter.mp hmem).2
    obtain ⟨-, hsame⟩ := hkeeps i hi'
    rw [hsame.pid, hsame.rip]
    exact h.place i hi'
  running i hi := (hkeeps i (h.running i hi)).1
  shown x hx := by
    obtain ⟨i, hi, hpid, hrip⟩ := h.shown x hx
    obtain ⟨hi', hsame⟩ := hkeeps i hi
    exact ⟨i, hi', hsame.pid.trans hpid, hsame.rip.trans hrip⟩

theorem Placed.add (h : Placed s) (pid : BitVec 32) (rip : BitVec 64) (mem : Vmalloc) :
    Placed { s with kernel := exeAdd pid rip mem s.kernel } ∧
      s.kernel.Keeps (exeAdd pid rip mem s.kernel) := by
  rcases exeAdd_cases pid rip mem s.kernel with hsame | ⟨hfree, hroom, hadded, p, hp, hpid, hrip, hexes⟩
  · rw [hsame]
    exact ⟨h, .refl _⟩
  · have hne : ∀ j, s.kernel.Used j → j ≠ getExe pid rip := by
      rintro j hj rfl
      exact hfree hj
    have hother : ∀ j, j ≠ getExe pid rip →
        (exeAdd pid rip mem s.kernel).exes j = s.kernel.exes j := by
      intro j hj
      rw [hexes]
      exact s.kernel.update_ne hj p
    have hself : (exeAdd pid rip mem s.kernel).exes (getExe pid rip) = p := by
      rw [hexes, Kernel.update_self]
    have hkeeps : s.kernel.Keeps (exeAdd pid rip mem s.kernel) := by
      intro j hj
      rw [Kernel.Used, hother j (hne j hj)]
      exact ⟨hj, .refl _⟩
    have hused : (exeAdd pid rip mem s.kernel).usedSlots =
        insert (getExe pid rip) s.kernel.usedSlots := by
      ext j
      simp only [Kernel.usedSlots, Finset.mem_filter, Finset.mem_univ, true_and, Finset.mem_insert]
      by_cases hj : j = getExe pid rip
      · subst hj
        refine iff_of_true ?_ (Or.inl rfl)
        rw [Kernel.Used, hself, hp]
        decide
      · rw [Kernel.Used, hother j hj, or_iff_right hj, Kernel.Used]
    refine ⟨⟨?_, ?_, fun j hj => ?_, fun i hi => (hkeeps i (h.running i hi)).1, fun x hx => ?_⟩, hkeeps⟩
    · have hnew : getExe pid rip ∉ s.kernel.usedSlots := fun hmem =>
        hfree (Finset.mem_filter.mp hmem).2
      rw [hused, Finset.card_insert_of_notMem hnew, h.count, hadded]
    · rw [hadded]
      omega
    · by_cases hji : j = getExe pid rip
      · subst hji
        rw [hself, hpid, hrip]
      · rw [Kernel.Used, hother j hji] at hj
        rw [hother j hji]
        exact h.place j hj
    · obtain ⟨i, hi, hxpid, hxrip⟩ := h.shown x hx
      obtain ⟨hi', hsame⟩ := hkeeps i hi
      exact ⟨i, hi', hsame.pid.trans hxpid, hsame.rip.trans hxrip⟩

theorem Placed.leave (h : Placed s) {i : Fin maxExe} (hi : i ∈ s.running) (regs : PtRegs)
    (args0 : BitVec 64) :
    Placed { s with kernel := s.kernel.update i ((s.kernel.exes i).afterCall regs args0) } ∧
      s.kernel.Keeps (s.kernel.update i ((s.kernel.exes i).afterCall regs args0)) := by
  obtain ⟨hpid, hrip, -, hstatus⟩ := (s.kernel.exes i).afterCall_spec regs args0
  have hused := h.running i hi
  have hused' : ((s.kernel.exes i).afterCall regs args0).statusCode ≠ .unUsed := by
    rcases hstatus with hstatus | hstatus | hstatus <;> rw [hstatus]
    · exact hused
    · decide
    · decide
  obtain ⟨hkeeps, hslots⟩ := Kernel.keeps_update hused hused'
    ⟨hpid, hrip, ExeInfo.afterCall_codeBlock ..⟩
  exact ⟨h.keep hkeeps hslots rfl, hkeeps⟩

theorem Placed.store (h : Placed s) {head : RecvPkt} (payload : List UInt8) (hsends : s.Sends head) :
    Placed { s with kernel := sysfsStore head payload s.kernel } ∧
      s.kernel.Keeps (sysfsStore head payload s.kernel) := by
  obtain ⟨⟨x, hx, hxpid, hxrip⟩, hstatus⟩ := hsends
  obtain ⟨i, hi, hpid, hrip⟩ := h.shown x hx
  rw [hxpid] at hpid
  rw [hxrip] at hrip
  have hplace := h.place i hi
  rw [hpid, hrip] at hplace
  have hused : head.statusCode ≠ .unUsed := by
    rcases hstatus with hstatus | hstatus <;> rw [hstatus] <;> decide
  rw [sysfsStore_found payload hplace hpid hrip]
  obtain ⟨hkeeps, hslots⟩ := Kernel.keeps_update hi
    (p := { s.kernel.exes i with
      code := blit (s.kernel.exes i).code head.offset payload, statusCode := head.statusCode })
    hused ⟨rfl, rfl, rfl⟩
  exact ⟨h.keep hkeeps hslots rfl, hkeeps⟩

theorem Placed.step (h : Placed s) {event : SlotEvent} (hstep : slotStep event s = some s') :
    Placed s' ∧ s.kernel.Keeps s'.kernel := by
  cases event with
  | add pid rip mem =>
      cases hstep
      exact h.add pid rip mem
  | enter pid ip =>
      simp only [slotStep] at hstep
      split_ifs at hstep with henter
      cases hstep
      refine ⟨⟨h.count, h.bound, h.place, List.forall_mem_cons.mpr ⟨?_, h.running⟩, h.shown⟩, .refl _⟩
      rw [Kernel.Used, henter.1]
      decide
  | leave i regs args0 =>
      simp only [slotStep] at hstep
      split_ifs at hstep with hi
      cases hstep
      obtain ⟨hplaced, hkeeps⟩ := h.leave hi regs args0
      exact ⟨⟨hplaced.count, hplaced.bound, hplaced.place,
        fun j hj => hplaced.running j (List.mem_of_mem_erase hj), hplaced.shown⟩, hkeeps⟩
  | «show» =>
      cases hstep
      refine ⟨⟨h.count, h.bound, h.place, h.running, fun x hx => ?_⟩, .refl _⟩
      rcases List.mem_append.mp hx with hx | hx
      · obtain ⟨i, rfl, hused⟩ := mem_sysfsShow.mp hx
        exact ⟨i, hused, rfl, rfl⟩
      · exact h.shown x hx
  | store head payload =>
      simp only [slotStep] at hstep
      split_ifs at hstep with hsends
      cases hstep
      exact h.store payload hsends

theorem Placed.run {events : List SlotEvent} (h : Placed s)
    (hrun : runAll slotStep events s = some s') : Placed s' ∧ s.kernel.Keeps s'.kernel := by
  have hstep : ∀ event ∈ events, ∀ t t' : Slots, Placed t ∧ s.kernel.Keeps t.kernel →
      slotStep event t = some t' → Placed t' ∧ s.kernel.Keeps t'.kernel := by
    rintro event - t t' ⟨hplaced, hkeeps⟩ hstep
    obtain ⟨hplaced', hkeeps'⟩ := hplaced.step hstep
    exact ⟨hplaced', hkeeps.trans hkeeps'⟩
  exact runAll_invariant hstep s s' ⟨h, .refl _⟩ hrun

end Steps

/-- The records of `sysfs_show` are the used slots in their order. -/
theorem sysfsShow_eq (k : Kernel) :
    sysfsShow k = ((List.finRange maxExe).filter fun i => decide (k.Used i)).map k.exes := by
  rw [sysfsShow, List.filter_map]
  rfl

theorem length_sysfsShow (k : Kernel) : (sysfsShow k).length = k.usedSlots.card := by
  have hset : k.usedSlots = ((List.finRange maxExe).filter fun i => decide (k.Used i)).toFinset := by
    ext i
    simp [Kernel.usedSlots]
  rw [sysfsShow_eq, List.length_map, hset,
    List.toFinset_card_of_nodup ((List.nodup_finRange maxExe).filter _)]

/-- **Slot table.** In every state that is reached from `exe_init`: as many slots are used as `added`
says, and at most 63; a used slot stands at the hash of its pid and RIP, so that no two are for one
call site; pid, RIP and `code_block` of a used slot stay for the rest of the run; and `sysfs_show`
returns the used slots, once each, in a page. -/
theorem slot_table {start s : Slots} (hstart : start.Fresh) {events : List SlotEvent}
    (hrun : runAll slotStep events start = some s) :
    (s.kernel.usedSlots.card = s.kernel.added ∧ s.kernel.added ≤ 63) ∧
    (∀ i, s.kernel.Used i →
      (zzHash (s.kernel.exes i).pid (s.kernel.exes i).rip).toNat % 511 = i ∧
      getExe (s.kernel.exes i).pid (s.kernel.exes i).rip = i ∧
      ∀ j, s.kernel.Used j → (s.kernel.exes j).pid = (s.kernel.exes i).pid →
        (s.kernel.exes j).rip = (s.kernel.exes i).rip → j = i) ∧
    (∀ i, s.kernel.Used i → ∀ more s', runAll slotStep more s = some s' →
      s'.kernel.Used i ∧ (s.kernel.exes i).SameSite (s'.kernel.exes i)) ∧
    sysfsShow s.kernel = ((List.finRange maxExe).filter fun i => decide (s.kernel.Used i)).map
      s.kernel.exes ∧
    (sysfsShow s.kernel).length * exeInfoSize ≤ 4096 := by
  obtain ⟨hplaced, -⟩ := (Placed.fresh hstart).run hrun
  refine ⟨⟨hplaced.count, hplaced.bound⟩, fun i hi => ⟨?_, hplaced.place i hi, fun j hj hpid hrip => ?_⟩,
    fun i hi more s' hmore => (hplaced.run hmore).2 i hi, sysfsShow_eq _, ?_⟩
  · exact congrArg Fin.val (hplaced.place i hi)
  · rw [← hplaced.place j hj, hpid, hrip]
    exact hplaced.place i hi
  · have hcount := hplaced.count
    have hbound := hplaced.bound
    rw [length_sysfsShow, exeInfoSize]
    omega

def freshSlots : Slots := ⟨emptyKernel, [], []⟩

/-- Two processes have the same call site, and one of them a second one. The second process gets its
code while the first is executing. -/
def threeSlots : List SlotEvent :=
  [.add 1 0x7ffff7de6487 zeroed, .add 2 0x7ffff7de6487 zeroed, .add 1 0x7ffff7fa1abb zeroed, .show,
    .store ⟨.normal, 1, 0x7ffff7de6487, 0⟩ [0xC3], .enter 1 0x7ffff7de6487,
    .store ⟨.normal, 2, 0x7ffff7de6487, 0⟩ [0x90, 0xC3],
    .leave (getExe 1 0x7ffff7de6487) default argCallMiss, .enter 2 0x7ffff7de6487]

theorem threeSlots_run :
    ((runAll slotStep threeSlots freshSlots).map fun s => (s.kernel.added,
      decide (s.kernel.Used (getExe 2 0x7ffff7de6487)),
        (s.kernel.exes (getExe 2 0x7ffff7de6487)).pid)) = some (3, true, 2) := by
  decide +kernel

theorem slot_table_threeSlots :
    ∃ s, runAll slotStep threeSlots freshSlots = some s ∧ s.kernel.usedSlots.card = 3 ∧
      (∀ more s', runAll slotStep more s = some s' →
        (s'.kernel.exes (getExe 2 0x7ffff7de6487)).pid = 2) ∧
      (sysfsShow s.kernel).length * exeInfoSize ≤ 4096 := by
  obtain ⟨s, hrun, heq⟩ := Option.map_eq_some_iff.mp threeSlots_run
  simp only [Prod.mk.injEq, decide_eq_true_eq] at heq
  obtain ⟨hadded, hused, hpid⟩ := heq
  obtain ⟨⟨hcount, -⟩, -, hkeeps, -, hpage⟩ := slot_table ⟨fun _ => rfl, rfl, rfl, rfl⟩ hrun
  refine ⟨s, hrun, hcount.trans hadded, fun more s' hmore => ?_, hpage⟩
  exact (hkeeps _ hused more s' hmore).2.pid.trans hpid

end UserspaceBypass
