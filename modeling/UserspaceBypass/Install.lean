import UserspaceBypass.DaemonSys
import UserspaceBypass.LibStraightLine

/-! Installing code while it is executed. The kernel runs iterations of `exe_on_call` and `exe_add`;
the daemon reads snapshots, goes through their slots, and sends packets. The steps interleave in any
order. A status other than normal is moved by the daemon only, and it acts on a slot once for each
snapshot, so that what a snapshot says about such a slot stays true until the daemon's own first
packet. -/

namespace UserspaceBypass

open StraightLine Chunk

/-- The two sides: the slot whose code the process is executing, the part of the snapshot `check` has
not yet gone through, and the loop of `write_sys`. -/
structure System where
  kernel : Kernel
  running : Option (Fin maxExe)
  snapshot : List ExeInfo
  transfer : Option Transfer

/-- `enter` and `leave` are the two ends of an iteration that executes a code block; `check` goes to
the next slot of the snapshot, with the `jit.bin` that `write_sys` finds if it is called. -/
inductive Event where
  | add (pid : BitVec 32) (rip : BitVec 64) (mem : Vmalloc)
  | enter (pid : BitVec 32) (ip : BitVec 64)
  | leave (regs : PtRegs) (args0 : BitVec 64)
  | show
  | check (jitBin : List UInt8)
  | store

def step : Event → System → Option System
  | .add pid rip mem, s => some { s with kernel := exeAdd pid rip mem s.kernel }
  | .enter pid ip, s =>
      if s.running = none ∧ Enters s.kernel pid ip then
        some { s with running := some (getExe pid ip) }
      else none
  | .leave regs args0, s => s.running.map fun i =>
      { s with
        kernel := s.kernel.update i ((s.kernel.exes i).afterCall regs args0), running := none }
  | .show, s =>
      if s.snapshot.isEmpty ∧ s.transfer.isNone then some { s with snapshot := readSys s.kernel }
      else none
  | .check jitBin, s =>
      match s.transfer, s.snapshot with
      | none, exe :: rest =>
          some { s with
            snapshot := rest
            transfer := exe.report.bind fun _ => Transfer.start exe.pid exe.rip jitBin }
      | _, _ => none
  | .store, s => s.transfer.map fun tr =>
      { s with kernel := sysfsStore tr.head tr.payload s.kernel, transfer := tr.next }

/-- The module has just been loaded. -/
structure System.Fresh (s : System) : Prop where
  unused : ∀ i, (s.kernel.exes i).statusCode = .unUsed
  running : s.running = none
  snapshot : s.snapshot = []
  transfer : s.transfer = none

/-- In the course of the events `write_sys` has read this file for the slot of this call site. -/
def ReadFor (start : System) (events : List Event) (pid : BitVec 32) (rip : BitVec 64)
    (jitBin : List UInt8) : Prop :=
  ∃ before after s s' tr, events = before ++ .check jitBin :: after ∧
    runAll step before start = some s ∧ step (.check jitBin) s = some s' ∧
    s'.transfer = some tr ∧ tr.pid = pid ∧ tr.rip = rip

theorem ReadFor.append {start : System} {events : List Event} {pid : BitVec 32} {rip : BitVec 64}
    {jitBin : List UInt8} (h : ReadFor start events pid rip jitBin) (more : List Event) :
    ReadFor start (events ++ more) pid rip jitBin := by
  obtain ⟨before, after, s, s', tr, rfl, hrest⟩ := h
  exact ⟨before, after ++ more, s, s', tr, by simp, hrest⟩

/-- The slot an entry of a snapshot is about. -/
def ExeInfo.slot (x : ExeInfo) : Fin maxExe := getExe x.pid x.rip

/-- The entry is still true, as far as the daemon will act on it. -/
structure Current (k : Kernel) (x : ExeInfo) : Prop where
  pid : (k.exes x.slot).pid = x.pid
  rip : (k.exes x.slot).rip = x.rip
  used : (k.exes x.slot).statusCode ≠ .unUsed
  status : x.statusCode ≠ .normal → (k.exes x.slot).statusCode = x.statusCode

/-- A transfer under way: the slot is the daemon's, and begins with what has been sent. -/
structure Underway (k : Kernel) (tr : Transfer) : Prop where
  pid : (k.exes tr.slot).pid = tr.pid
  rip : (k.exes tr.slot).rip = tr.rip
  used : (k.exes tr.slot).statusCode ≠ .unUsed
  held : (k.exes tr.slot).statusCode ≠ .normal
  sent : Begins (k.exes tr.slot).code (tr.buf.take tr.offset)

/-- The invariant of the two sides, with what is known of the file that `write_sys` read for the slot
of a call site. -/
structure Installing (read : BitVec 32 → BitVec 64 → List UInt8 → Prop) (s : System) : Prop where
  placed : ∀ i, (s.kernel.exes i).statusCode ≠ .unUsed → (s.kernel.exes i).slot = i
  running : ∀ i, s.running = some i → (s.kernel.exes i).statusCode = .normal
  current : ∀ x ∈ s.snapshot, Current s.kernel x
  distinct : (s.snapshot.map ExeInfo.slot).Nodup
  underway : ∀ tr, s.transfer = some tr → Underway s.kernel tr
  apart : ∀ tr, s.transfer = some tr → tr.slot ∉ s.snapshot.map ExeInfo.slot
  sending : ∀ tr, s.transfer = some tr → ∃ jitBin, tr.buf = jitBin.take bufLen ∧
    read tr.pid tr.rip jitBin
  whole : ∀ i, (s.kernel.exes i).statusCode = .normal → ∃ jitBin,
    Begins (s.kernel.exes i).code (jitBin.take bufLen) ∧
      read (s.kernel.exes i).pid (s.kernel.exes i).rip jitBin

section Steps

variable {read read' : BitVec 32 → BitVec 64 → List UInt8 → Prop} {start s s' : System}

theorem Current.congr {k k' : Kernel} {x : ExeInfo} (h : k'.exes x.slot = k.exes x.slot)
    (hx : Current k x) : Current k' x := by
  obtain ⟨hpid, hrip, hused, hstatus⟩ := hx
  rw [← h] at hpid hrip hused hstatus
  exact ⟨hpid, hrip, hused, hstatus⟩

theorem Underway.congr {k k' : Kernel} {tr : Transfer} (h : k'.exes tr.slot = k.exes tr.slot)
    (htr : Underway k tr) : Underway k' tr := by
  obtain ⟨hpid, hrip, hused, hheld, hsent⟩ := htr
  rw [← h] at hpid hrip hused hheld hsent
  exact ⟨hpid, hrip, hused, hheld, hsent⟩

theorem Installing.mono (h : Installing read s)
    (hread : ∀ pid rip jitBin, read pid rip jitBin → read' pid rip jitBin) : Installing read' s where
  placed := h.placed
  running := h.running
  current := h.current
  distinct := h.distinct
  underway := h.underway
  apart := h.apart
  sending tr htr := by
    obtain ⟨jitBin, hbuf, hfor⟩ := h.sending tr htr
    exact ⟨jitBin, hbuf, hread _ _ _ hfor⟩
  whole i hi := by
    obtain ⟨jitBin, hbegins, hfor⟩ := h.whole i hi
    exact ⟨jitBin, hbegins, hread _ _ _ hfor⟩

theorem Installing.fresh (h : start.Fresh) : Installing read start where
  placed i hi := absurd (h.unused i) hi
  running i hi := by
    rw [h.running] at hi
    cases hi
  current x hx := by
    rw [h.snapshot] at hx
    cases hx
  distinct := by
    rw [h.snapshot]
    exact List.nodup_nil
  underway tr htr := by
    rw [h.transfer] at htr
    cases htr
  apart tr htr := by
    rw [h.transfer] at htr
    cases htr
  sending tr htr := by
    rw [h.transfer] at htr
    cases htr
  whole i hi := by
    rw [h.unused i] at hi
    cases hi

/-- `exe_add` touches no slot that is in use. -/
theorem Installing.add (h : Installing read s) (pid : BitVec 32) (rip : BitVec 64)
    (mem : Vmalloc) :
    Installing read { s with kernel := exeAdd pid rip mem s.kernel } := by
  have hused : ∀ i, (s.kernel.exes i).statusCode ≠ .unUsed →
      (exeAdd pid rip mem s.kernel).exes i = s.kernel.exes i := fun i hi =>
    (exeAdd_spec pid rip mem s.kernel i).resolve_right fun hadd => hi hadd.1
  refine ⟨fun i hi => ?_, fun i hi => ?_, fun x hx => ?_, h.distinct, fun tr htr => ?_, h.apart,
    h.sending, fun i hi => ?_⟩
  · rcases exeAdd_spec pid rip mem s.kernel i with hsame | ⟨-, -, hplaced⟩
    · simp only [hsame] at hi ⊢
      exact h.placed i hi
    · exact hplaced
  · have hnormal := h.running i hi
    rw [← hnormal]
    exact congrArg ExeInfo.statusCode (hused i (by rw [hnormal]; decide))
  · exact (h.current x hx).congr (hused _ (h.current x hx).used)
  · exact (h.underway tr htr).congr (hused _ (h.underway tr htr).used)
  · rcases exeAdd_spec pid rip mem s.kernel i with hsame | ⟨-, hinit, -⟩
    · simp only [hsame] at hi ⊢
      exact h.whole i hi
    · rw [hinit] at hi
      cases hi

theorem Installing.enter (h : Installing read s) {pid : BitVec 32} {ip : BitVec 64}
    (henter : Enters s.kernel pid ip) :
    Installing read { s with running := some (getExe pid ip) } := by
  refine ⟨h.placed, fun i hi => ?_, h.current, h.distinct, h.underway, h.apart, h.sending, h.whole⟩
  cases hi
  exact henter.1

/-- The iteration changes only the slot it runs, which no snapshot and no transfer holds. -/
theorem Installing.leave (h : Installing read s) {i : Fin maxExe}
    (hrunning : s.running = some i) (regs : PtRegs) (args0 : BitVec 64) :
    Installing read { s with
      kernel := s.kernel.update i ((s.kernel.exes i).afterCall regs args0), running := none } := by
  have hnormal := h.running i hrunning
  obtain ⟨hpid, hrip, hcode, hstatus⟩ := (s.kernel.exes i).afterCall_spec regs args0
  have hother : ∀ j, j ≠ i → (s.kernel.update i ((s.kernel.exes i).afterCall regs args0)).exes j =
      s.kernel.exes j := fun j hj => s.kernel.update_ne hj _
  have hused : ((s.kernel.exes i).afterCall regs args0).statusCode ≠ .unUsed := by
    rw [hnormal] at hstatus
    rcases hstatus with hstatus | hstatus | hstatus <;> rw [hstatus] <;> decide
  refine ⟨Kernel.forall_update (P := fun j p => p.statusCode ≠ .unUsed → p.slot = j) (fun _ => ?_)
    fun j _ => h.placed j, fun j hj => ?_, fun x hx => ?_, h.distinct, fun tr htr => ?_, h.apart,
    h.sending, Kernel.forall_update (P := fun _ p => p.statusCode = .normal → ∃ jitBin,
      Begins p.code (jitBin.take bufLen) ∧ read p.pid p.rip jitBin) (fun _ => ?_) fun j _ => h.whole j⟩
  · rw [ExeInfo.slot, hpid, hrip]
    exact h.placed i (by rw [hnormal]; decide)
  · cases hj
  · have hx := h.current x hx
    by_cases hxi : x.slot = i
    · have hkernel : (s.kernel.update i ((s.kernel.exes i).afterCall regs args0)).exes x.slot =
          (s.kernel.exes i).afterCall regs args0 := by rw [hxi, Kernel.update_self]
      refine ⟨?_, ?_, ?_, fun hne => ?_⟩
      · rw [hkernel, hpid, ← hxi, hx.pid]
      · rw [hkernel, hrip, ← hxi, hx.rip]
      · rw [hkernel]
        exact hused
      · have hheld := hx.status hne
        rw [hxi, hnormal] at hheld
        exact absurd hheld.symm hne
    · exact hx.congr (hother _ hxi)
  · have htr := h.underway tr htr
    refine htr.congr (hother _ fun hslot => htr.held ?_)
    rw [hslot]
    exact hnormal
  · rw [hpid, hrip, hcode]
    exact h.whole i hnormal

theorem readSys_distinct {k : Kernel}
    (hplaced : ∀ i, (k.exes i).statusCode ≠ .unUsed → (k.exes i).slot = i) :
    ((readSys k).map ExeInfo.slot).Nodup := by
  have hshow : (sysfsShow k).map ExeInfo.slot =
      (List.finRange maxExe).filter fun i => (k.exes i).statusCode ≠ .unUsed := by
    rw [sysfsShow, List.filter_map, List.map_map]
    refine (List.map_congr_left fun i hi => ?_).trans (List.map_id _)
    exact hplaced i (by simpa using (List.mem_filter.mp hi).2)
  have hnodup : ((sysfsShow k).map ExeInfo.slot).Nodup := by
    rw [hshow]
    exact (List.nodup_finRange maxExe).filter _
  exact hnodup.sublist ((List.take_sublist _ _).map _)

theorem Installing.show (h : Installing read s) (htransfer : s.transfer = none) :
    Installing read { s with snapshot := readSys s.kernel } := by
  refine ⟨h.placed, h.running, fun x hx => ?_, ?_, h.underway, fun tr htr => ?_, h.sending, h.whole⟩
  · dsimp only at hx
    obtain ⟨i, rfl, hused⟩ := mem_readSys hx
    have hslot := h.placed i hused
    exact ⟨by rw [hslot], by rw [hslot], by rw [hslot]; exact hused, fun _ => by rw [hslot]⟩
  · dsimp only
    exact readSys_distinct h.placed
  · rw [htransfer] at htr
    cases htr

theorem ExeInfo.report_held {exe : ExeInfo} (h : exe.report ≠ none) :
    exe.statusCode ≠ .normal := by
  intro hnormal
  unfold ExeInfo.report at h
  rw [hnormal] at h
  split_ifs at h
  all_goals exact h rfl

theorem step_check {jitBin : List UInt8} (h : step (.check jitBin) s = some s') :
    ∃ exe rest, s.snapshot = exe :: rest ∧ s' = { s with
      snapshot := rest
      transfer := exe.report.bind fun _ => Transfer.start exe.pid exe.rip jitBin } := by
  simp only [step] at h
  split at h
  · rename_i exe rest _ hsnapshot
    exact ⟨exe, rest, hsnapshot, (Option.some.inj h).symm⟩
  · cases h

/-- The next slot of the snapshot: if the daemon starts a transfer, the slot is its own. -/
theorem Installing.check (h : Installing read s) {jitBin : List UInt8}
    (hstep : step (.check jitBin) s = some s')
    (hkeep : ∀ i, (s.kernel.exes i).statusCode = .normal → ∀ bin,
      read (s.kernel.exes i).pid (s.kernel.exes i).rip bin →
        read' (s.kernel.exes i).pid (s.kernel.exes i).rip bin)
    (hread : ∀ tr, s'.transfer = some tr → read' tr.pid tr.rip jitBin) : Installing read' s' := by
  obtain ⟨exe, rest, hsnapshot, rfl⟩ := step_check hstep
  have hcurrent := h.current exe (by rw [hsnapshot]; exact List.mem_cons_self)
  have hdistinct := h.distinct
  rw [hsnapshot, List.map_cons, List.nodup_cons] at hdistinct
  have hstart : ∀ tr, (exe.report.bind fun _ => Transfer.start exe.pid exe.rip jitBin) = some tr →
      exe.report ≠ none ∧ tr.slot = exe.slot ∧ tr.pid = exe.pid ∧ tr.rip = exe.rip ∧
        tr.buf = jitBin.take bufLen ∧ tr.offset = 0 := by
    intro tr htr
    obtain ⟨report, hreport, hstart⟩ := Option.bind_eq_some_iff.mp htr
    obtain ⟨hpid, hrip, hbuf, hoffset⟩ := Transfer.start_some hstart
    refine ⟨by simp [hreport], ?_, hpid, hrip, hbuf, hoffset⟩
    rw [Transfer.slot, hpid, hrip, ExeInfo.slot]
  refine ⟨h.placed, h.running, fun x hx => ?_, hdistinct.2, fun tr htr => ?_, fun tr htr => ?_,
    fun tr htr => ?_, fun i hi => ?_⟩
  · exact h.current x (by rw [hsnapshot]; exact List.mem_cons_of_mem _ hx)
  · obtain ⟨hreport, hslot, hpid, hrip, -, hoffset⟩ := hstart tr htr
    have hheld := ExeInfo.report_held hreport
    refine ⟨?_, ?_, ?_, ?_, ?_⟩
    · rw [hslot, hcurrent.pid, hpid]
    · rw [hslot, hcurrent.rip, hrip]
    · rw [hslot]
      exact hcurrent.used
    · rw [hslot, hcurrent.status hheld]
      exact hheld
    · rw [hoffset]
      exact begins_nil _
  · rw [(hstart tr htr).2.1]
    exact hdistinct.1
  · exact ⟨jitBin, (hstart tr htr).2.2.2.2.1, hread tr htr⟩
  · obtain ⟨bin, hbegins, hfor⟩ := h.whole i hi
    exact ⟨bin, hbegins, hkeep i hi bin hfor⟩

/-- A packet: the slot holds one chunk more, and the last one hands it back to the kernel. -/
theorem Installing.store (h : Installing read s) {tr : Transfer}
    (htr : s.transfer = some tr) :
    Installing read
      { s with kernel := sysfsStore tr.head tr.payload s.kernel, transfer := tr.next } := by
  have hway := h.underway tr htr
  obtain ⟨jitBin, hbuf, hread⟩ := h.sending tr htr
  have hkernel : sysfsStore tr.head tr.payload s.kernel = s.kernel.update tr.slot
      { s.kernel.exes tr.slot with
        code := blit (s.kernel.exes tr.slot).code tr.offset tr.payload
        statusCode := tr.head.statusCode } := if_pos ⟨hway.rip, hway.pid⟩
  rw [hkernel]
  have hnext : ∀ tr', tr.next = some tr' → tr'.slot = tr.slot := by
    intro tr' htr'
    obtain ⟨hpid, hrip, -⟩ := Transfer.next_some htr'
    rw [Transfer.slot, hpid, hrip, Transfer.slot]
  have hbegins := begins_blit tr.toCopyLen hway.sent
  have hused : tr.head.statusCode ≠ .unUsed := by
    unfold Transfer.head
    dsimp only
    split_ifs <;> decide
  refine ⟨Kernel.forall_update (P := fun j p => p.statusCode ≠ .unUsed → p.slot = j) (fun _ => ?_)
    fun j _ => h.placed j, fun j hj => ?_, fun x hx => ?_, h.distinct, fun tr' htr' => ?_,
    fun tr' htr' => ?_, fun tr' htr' => ?_, Kernel.forall_update (P := fun _ p =>
      p.statusCode = .normal → ∃ jitBin, Begins p.code (jitBin.take bufLen) ∧ read p.pid p.rip jitBin)
      (fun hnormal => ?_) fun j _ => h.whole j⟩
  · rw [ExeInfo.slot, hway.pid, hway.rip]
    rfl
  · have hnormal := h.running j hj
    have hslot : j ≠ tr.slot := by
      rintro rfl
      exact hway.held hnormal
    rwa [Kernel.update_ne _ hslot]
  · refine (h.current x hx).congr (Kernel.update_ne _ (fun hslot => h.apart tr htr ?_) _)
    rw [← hslot]
    exact List.mem_map_of_mem hx
  · obtain ⟨hpid, hrip, hbuf', hoffset, hstatus⟩ := Transfer.next_some htr'
    refine ⟨?_, ?_, ?_, ?_, ?_⟩ <;> rw [hnext tr' htr', Kernel.update_self]
    · exact hway.pid.trans hpid.symm
    · exact hway.rip.trans hrip.symm
    · exact hused
    · exact fun hnormal => absurd (hstatus.symm.trans hnormal) (by decide)
    · rw [hbuf', hoffset]
      exact hbegins
  · rw [hnext tr' htr']
    exact h.apart tr htr
  · obtain ⟨hpid, hrip, hbuf', -⟩ := Transfer.next_some htr'
    rw [hbuf', hpid, hrip]
    exact ⟨jitBin, hbuf, hread⟩
  · have hlast := Transfer.length_le_of_next_none (tr.next_none_iff.mpr hnormal)
    refine ⟨jitBin, ?_, ?_⟩
    · rw [← hbuf]
      exact hbegins.whole hlast
    · rw [← hway.pid, ← hway.rip] at hread
      exact hread

theorem Installing.step (h : Installing read s) {event : Event}
    (hevent : ∀ jitBin, event ≠ .check jitBin) (hstep : UserspaceBypass.step event s = some s') :
    Installing read s' := by
  cases event with
  | check jitBin => exact absurd rfl (hevent jitBin)
  | add pid rip mem =>
      cases hstep
      exact h.add pid rip mem
  | enter pid ip =>
      simp only [UserspaceBypass.step] at hstep
      split_ifs at hstep with henter
      cases hstep
      exact h.enter henter.2
  | leave regs args0 =>
      obtain ⟨i, hrunning, rfl⟩ := Option.map_eq_some_iff.mp hstep
      exact h.leave hrunning regs args0
  | «show» =>
      simp only [UserspaceBypass.step] at hstep
      split_ifs at hstep with hidle
      cases hstep
      exact h.show (Option.isNone_iff_eq_none.mp hidle.2)
  | store =>
      obtain ⟨tr, htr, rfl⟩ := Option.map_eq_some_iff.mp hstep
      exact h.store htr

theorem Installing.run (hstart : start.Fresh) : ∀ events s,
    runAll UserspaceBypass.step events start = some s → Installing (ReadFor start events) s := by
  refine runAll_history (.fresh hstart) fun events event s s' hrun h hstep => ?_
  have hlonger : ∀ pid rip jitBin, ReadFor start events pid rip jitBin →
      ReadFor start (events ++ [event]) pid rip jitBin := fun _ _ _ hread => hread.append _
  by_cases hcheck : ∃ jitBin, event = .check jitBin
  · obtain ⟨jitBin, rfl⟩ := hcheck
    exact h.check hstep (fun _ _ _ => hlonger _ _ _) fun tr htr =>
      ⟨events, [], s, s', tr, rfl, hrun, hstep, htr, rfl, rfl⟩
  · exact (h.step (fun jitBin heq => hcheck ⟨jitBin, heq⟩) hstep).mono hlonger

/-- Nothing but a packet for it changes a slot that waits for the daemon. -/
theorem Installing.frozen (h : Installing read s) {i : Fin maxExe}
    (hmiss : (s.kernel.exes i).statusCode = .callMiss ∨ (s.kernel.exes i).statusCode = .ijMiss)
    {event : Event} (hstep : UserspaceBypass.step event s = some s')
    (hpacket : ∀ tr, event = .store → s.transfer = some tr → tr.slot ≠ i) :
    s'.kernel.exes i = s.kernel.exes i := by
  cases event with
  | add pid rip mem =>
      cases hstep
      refine (exeAdd_spec pid rip mem s.kernel i).resolve_right fun hadd => ?_
      rw [hadd.1] at hmiss
      rcases hmiss with hmiss | hmiss <;> cases hmiss
  | leave regs args0 =>
      obtain ⟨j, hrunning, rfl⟩ := Option.map_eq_some_iff.mp hstep
      refine s.kernel.update_ne (fun hij => ?_) _
      rw [hij, h.running j hrunning] at hmiss
      rcases hmiss with hmiss | hmiss <;> cases hmiss
  | store =>
      obtain ⟨tr, htr, rfl⟩ := Option.map_eq_some_iff.mp hstep
      have hslot := hpacket tr rfl htr
      simp only [sysfsStore]
      split_ifs
      · exact s.kernel.update_ne (Ne.symm hslot) _
      · rfl
  | check jitBin =>
      obtain ⟨exe, rest, -, rfl⟩ := step_check hstep
      rfl
  | enter pid ip =>
      simp only [UserspaceBypass.step] at hstep
      split_ifs at hstep
      cases hstep
      rfl
  | «show» =>
      simp only [UserspaceBypass.step] at hstep
      split_ifs at hstep
      cases hstep
      rfl

end Steps

/-- No packet for the slot is among the events that follow. -/
def NoPacket (i : Fin maxExe) (more : List Event) (s : System) : Prop :=
  ∀ before after s₁ tr, more = before ++ .store :: after → runAll step before s = some s₁ →
    s₁.transfer = some tr → tr.slot ≠ i

theorem frozen_run {start : System} (hstart : start.Fresh) {i : Fin maxExe} {more events : List Event}
    {s s' : System} (hrun : runAll step events start = some s)
    (hmiss : (s.kernel.exes i).statusCode = .callMiss ∨ (s.kernel.exes i).statusCode = .ijMiss)
    (hmore : runAll step more s = some s') (hpacket : NoPacket i more s) :
    s'.kernel.exes i = s.kernel.exes i := by
  induction more generalizing events s with
  | nil =>
      cases hmore
      rfl
  | cons event more ih =>
      obtain ⟨s₁, hstep, hrest⟩ := Option.bind_eq_some_iff.mp hmore
      have hsame : s₁.kernel.exes i = s.kernel.exes i := by
        refine (Installing.run hstart events s hrun).frozen hmiss hstep fun tr hevent htr => ?_
        exact hpacket [] more s tr (by rw [hevent]; rfl) rfl htr
      have hrun₁ : runAll step (events ++ [event]) start = some s₁ :=
        runAll_append_some.mpr ⟨s, hrun, by rw [runAll_singleton]; exact hstep⟩
      rw [← hsame] at hmiss ⊢
      refine ih hrun₁ hmiss hrest fun before after s₂ tr heq hbefore htr => ?_
      refine hpacket (event :: before) after s₂ tr (by rw [heq]; rfl) ?_ htr
      rw [runAll_cons, hstep, Option.bind_some, hbefore]

/-- **Installation is atomic.** In every interleaving: code that `exe_on_call` enters begins with the
whole of one `jit.bin` that `write_sys` read for its slot; while a transfer is under way its slot is
not normal; and a slot with a miss keeps its addresses and its code until the next packet for it. -/
theorem install_atomic {start s : System} (hstart : start.Fresh) {events : List Event}
    (hrun : runAll step events start = some s)
    (hbin : ∀ jitBin, .check jitBin ∈ events → jitBin.length ≤ numPg * 4096) :
    (∀ pid ip, Enters s.kernel pid ip → ∃ jitBin, ReadFor start events pid ip jitBin ∧
      Begins (s.kernel.exes (getExe pid ip)).code jitBin) ∧
    (∀ tr, s.transfer = some tr → (s.kernel.exes tr.slot).statusCode ≠ .normal) ∧
    ∀ i, (s.kernel.exes i).statusCode = .callMiss ∨ (s.kernel.exes i).statusCode = .ijMiss →
      ∀ more s', runAll step more s = some s' → NoPacket i more s →
        (s'.kernel.exes i).jumpFrom = (s.kernel.exes i).jumpFrom ∧
        (s'.kernel.exes i).tgtAddr = (s.kernel.exes i).tgtAddr ∧
        (s'.kernel.exes i).code = (s.kernel.exes i).code := by
  have hinv := Installing.run hstart events s hrun
  refine ⟨fun pid ip henter => ?_, fun tr htr => (hinv.underway tr htr).held,
    fun i hmiss more s' hmore hpacket => ?_⟩
  · obtain ⟨hnormal, hrip, hpid⟩ := henter
    obtain ⟨jitBin, hbegins, hread⟩ := hinv.whole _ hnormal
    rw [hrip, hpid] at hread
    refine ⟨jitBin, hread, ?_⟩
    have hmem : .check jitBin ∈ events := by
      obtain ⟨before, after, -, -, -, rfl, -⟩ := hread
      simp
    have hlen : jitBin.length ≤ bufLen := (hbin jitBin hmem).trans (by decide)
    rw [List.take_of_length_le hlen] at hbegins
    exact hbegins
  · rw [frozen_run hstart hrun hmiss hmore hpacket]
    exact ⟨rfl, rfl, rfl⟩

/-- Two call sites are added and seen. The first gets a `jit.bin` of one byte, and is executed while
the second gets one that takes two packets. -/
def twoInstalls : List Event :=
  [.add 1 0x7ffff7fa1abb zeroed, .add 1 0x7ffff7de6487 zeroed, .show, .check [0xC3], .store,
    .check (List.replicate 4001 0x90), .store, .enter 1 0x7ffff7fa1abb, .store,
    .leave default argCallMiss]

theorem twoInstalls_enters :
    ((runAll step twoInstalls ⟨emptyKernel, none, [], none⟩).map fun s =>
      decide (Enters s.kernel 1 0x7ffff7de6487)) = some true := by
  decide +kernel

theorem install_atomic_twoInstalls :
    ∃ s jitBin, runAll step twoInstalls ⟨emptyKernel, none, [], none⟩ = some s ∧
      ReadFor ⟨emptyKernel, none, [], none⟩ twoInstalls 1 0x7ffff7de6487 jitBin ∧
      Begins (s.kernel.exes (getExe 1 0x7ffff7de6487)).code jitBin := by
  obtain ⟨s, hrun, henter⟩ := Option.map_eq_some_iff.mp twoInstalls_enters
  have hfresh : System.Fresh ⟨emptyKernel, none, [], none⟩ := ⟨fun _ => rfl, rfl, rfl, rfl⟩
  have hbin : ∀ jitBin, .check jitBin ∈ twoInstalls → jitBin.length ≤ numPg * 4096 := by
    intro jitBin hmem
    simp only [twoInstalls, List.mem_cons, List.not_mem_nil, or_false, reduceCtorEq, false_or,
      Event.check.injEq] at hmem
    rcases hmem with rfl | rfl
    · decide
    · rw [List.length_replicate]
      decide
  obtain ⟨jitBin, hread, hbegins⟩ :=
    (install_atomic hfresh hrun hbin).1 1 0x7ffff7de6487 (of_decide_eq_true henter)
  exact ⟨s, jitBin, hrun, hread, hbegins⟩

end UserspaceBypass
