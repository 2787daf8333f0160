import UserspaceBypass.DaemonCompile
import UserspaceBypass.Install
import UserspaceBypass.LibLog

/-! Where installed code comes from. The daemon works in one directory for each call site, and its
history of commands does not mention the process: a report that has been made before, by whichever
process, is answered with the `jit.bin` that is there ("Compile saved"). So code comes from the run
of `disassem.py` that followed the latest command for the call site, and was made for the process
whose report that command answered; this is the process itself if its own report was new. -/

namespace UserspaceBypass

open StraightLine Chunk Log

/-- The kernel and the daemon, its directories, and what it has done so far. -/
structure Host where
  system : System
  daemon : Daemon
  acts : List Act

/-- A `check` goes on with the outcome that a compilation has if there is one; the other events are
those of `Event`. -/
inductive HostEvent where
  | other (event : Event)
  | check (outcome : Outcome)

def hostStep (template : Dir) : HostEvent → Host → Option Host
  | .other (.check _), _ => none
  | .other event, h => (step event h.system).map fun s => { h with system := s }
  | .check outcome, h => do
      let exe ← h.system.snapshot.head?
      let r ← h.daemon.check template outcome exe
      let s ← step (.check r.1) h.system
      pure ⟨s, r.2.2, h.acts ++ r.2.1⟩

/-- The module has just been loaded, and the daemon has removed the directories. -/
structure Host.Fresh (h : Host) : Prop where
  system : h.system.Fresh
  daemon : h.daemon = ⟨[], fun _ => none⟩
  acts : h.acts = []

/-- Commands and compilations for the call site. -/
def Act.concerns (rip : BitVec 64) : Act → Prop
  | .system r _ => r = rip
  | .compile _ r _ => r = rip
  | .saved _ _ => False
  | .writeSys _ _ _ => False

def Act.writes (pid : BitVec 32) (rip : BitVec 64) (a : Act) : Prop :=
  ∃ jitBin, a = .writeSys pid rip jitBin

/-- What is written after the given acts comes from the compilation behind the latest command for the
call site, unless that failed. Either the command and the compilation have just been run for the
process itself, or the command of its report is in the history and the compilation is that of the
process whose report was the latest one to be new. -/
def Provenance (acts : List Act) (pid : BitVec 32) (rip : BitVec 64) (jitBin : List UInt8) : Prop :=
  ∃ before report pid' outcome after,
    acts = before ++ .system rip report :: .compile pid' rip outcome :: after ∧
    (∀ a ∈ after, ¬a.concerns rip) ∧ (∀ built, outcome = .built built → jitBin = built) ∧
    (pid' = pid ∧ after = [] ∨
      ∃ known, acts.getLast? = some (.saved rip known) ∧ .system rip known ∈ acts)

/-- The directory of the call site is as the compilation behind its latest command has left it. -/
def CompiledLast (acts : List Act) (d : Daemon) (rip : BitVec 64) (pid : BitVec 32)
    (after : List Act) : Prop :=
  ∃ before report outcome, acts = before ++ .system rip report :: .compile pid rip outcome :: after ∧
    (∀ a ∈ after, ¬a.concerns rip) ∧
    ∀ built, outcome = .built built → (d.dirs rip).bind Dir.jitBin = some built

/-- The history and the directories agree with what has been done. -/
structure Tracks (acts : List Act) (d : Daemon) : Prop where
  hist : ∀ rip report, Report.cmd rip report ∈ d.cmdHist → .system rip report ∈ acts
  dir : ∀ rip report, .system rip report ∈ acts → ∃ pid after, CompiledLast acts d rip pid after

section Daemon

variable {template : Dir} {outcome : Outcome} {exe : ExeInfo} {acts more : List Act} {d d' : Daemon}

/-- What happens elsewhere. -/
theorem CompiledLast.append {rip : BitVec 64} {pid : BitVec 32} {after : List Act}
    (h : CompiledLast acts d rip pid after) (hmore : ∀ a ∈ more, ¬a.concerns rip)
    (hdirs : d'.dirs rip = d.dirs rip) : CompiledLast (acts ++ more) d' rip pid (after ++ more) := by
  obtain ⟨before, report, outcome, rfl, hafter, hbuilt⟩ := h
  refine ⟨before, report, outcome, by simp, List.forall_mem_append.mpr ⟨hafter, hmore⟩, ?_⟩
  rw [hdirs]
  exact hbuilt

theorem Tracks.append (h : Tracks acts d) (hmore : ∀ rip, ∀ a ∈ more, ¬a.concerns rip) :
    Tracks (acts ++ more) d where
  hist rip report hr := List.mem_append_left _ (h.hist rip report hr)
  dir rip report hr := by
    rcases List.mem_append.mp hr with hr | hr
    · obtain ⟨pid, after, hlast⟩ := h.dir rip report hr
      exact ⟨pid, _, hlast.append (hmore rip) rfl⟩
    · exact absurd rfl (hmore rip _ hr)

/-- A compilation leaves what it built, if the directory is there. -/
theorem compile_built {rip : BitVec 64} {dirs : BitVec 64 → Option Dir} {built : List UInt8}
    (h : (compile rip outcome dirs).1 = .built built) :
    ((compile rip outcome dirs).2 rip).bind Dir.jitBin = some built := by
  unfold compile at h ⊢
  split at h
  · cases h
  · dsimp only at h ⊢
    rw [Function.update_self, h]
    rfl

/-- Commands and compilations stay in the directory of their call site. -/
theorem compile_system_other {rip rip' : BitVec 64} (h : rip' ≠ rip) (report : Report)
    (dirs : BitVec 64 → Option Dir) :
    (compile rip outcome (report.system template rip dirs)).2 rip' = dirs rip' := by
  have hsystem : report.system template rip dirs rip' = dirs rip' := by
    unfold Report.system
    split_ifs
    · rfl
    · cases report <;> exact Function.update_of_ne h ..
  unfold compile
  split
  · exact hsystem
  · exact (Function.update_of_ne h ..).trans hsystem

/-- A command that is new, and the compilation behind it. -/
theorem Tracks.new (h : Tracks acts d) (report : Report) {o : Outcome}
    {dirs : BitVec 64 → Option Dir} (hother : ∀ rip, rip ≠ exe.rip → dirs rip = d.dirs rip)
    (hbuilt : ∀ built, o = .built built → (dirs exe.rip).bind Dir.jitBin = some built) :
    Tracks (acts ++ [.system exe.rip report, .compile exe.pid exe.rip o])
        ⟨d.cmdHist ++ [report.cmd exe.rip], dirs⟩ ∧
      CompiledLast (acts ++ [.system exe.rip report, .compile exe.pid exe.rip o])
        ⟨d.cmdHist ++ [report.cmd exe.rip], dirs⟩ exe.rip exe.pid [] := by
  have hself : CompiledLast (acts ++ [.system exe.rip report, .compile exe.pid exe.rip o])
      ⟨d.cmdHist ++ [report.cmd exe.rip], dirs⟩ exe.rip exe.pid [] :=
    ⟨acts, report, o, rfl, nofun, hbuilt⟩
  refine ⟨⟨fun rip r hr => ?_, fun rip r hr => ?_⟩, hself⟩
  · rcases List.mem_append.mp hr with hr | hr
    · exact List.mem_append_left _ (h.hist rip r hr)
    · obtain ⟨rfl, rfl⟩ := Report.cmd_injective (List.mem_singleton.mp hr)
      simp
  · by_cases hrip : rip = exe.rip
    · exact ⟨exe.pid, [], hrip ▸ hself⟩
    · have hold : .system rip r ∈ acts := by simpa [hrip] using hr
      obtain ⟨pid, after, hlast⟩ := h.dir rip r hold
      exact ⟨pid, _, hlast.append (by simp [Act.concerns, Ne.symm hrip]) (hother rip hrip)⟩

/-- Up to `write_sys` the history and the directories stay right, and the directory is that of a
compilation. -/
theorem Tracks.prepare (h : Tracks acts d) (report : Report) :
    let r := d.prepare template outcome exe report
    Tracks (acts ++ r.1) r.2 ∧ ∃ pid after, CompiledLast (acts ++ r.1) r.2 exe.rip pid after ∧
      (pid = exe.pid ∧ after = [] ∨ ∃ known, (acts ++ r.1).getLast? = some (.saved exe.rip known) ∧
        .system exe.rip known ∈ acts ++ r.1) := by
  unfold Daemon.prepare
  dsimp only
  split_ifs with hold
  · have hsystem := h.hist _ _ hold
    obtain ⟨pid, after, hlast⟩ := h.dir _ _ hsystem
    have hsaved : ∀ rip, ∀ a ∈ [Act.saved exe.rip report], ¬a.concerns rip := by
      simp [Act.concerns]
    exact ⟨h.append hsaved, pid, _, hlast.append (hsaved _) rfl,
      Or.inr ⟨report, by simp, List.mem_append_left _ hsystem⟩⟩
  · obtain ⟨htracks, hlast⟩ := h.new report (fun rip hne => compile_system_other hne report d.dirs)
      fun built => compile_built
    exact ⟨htracks, exe.pid, [], hlast, Or.inl ⟨rfl, rfl⟩⟩

theorem prepare_no_write (report : Report) :
    ∀ a ∈ (d.prepare template outcome exe report).1, ∀ pid rip, ¬a.writes pid rip := by
  unfold Daemon.prepare Act.writes
  dsimp only
  split_ifs <;> simp

/-- Every `write_sys` so far has written what it should. -/
def AllFrom (acts : List Act) : Prop :=
  Each (fun before a => ∀ pid rip jitBin, a = .writeSys pid rip jitBin →
    Provenance before pid rip jitBin) acts

/-- One round of `check` keeps both. If the slot has a report, the last thing it does is to write
what it read. -/
theorem Tracks.check (h : Tracks acts d) (hfrom : AllFrom acts) {jitBin : List UInt8}
    (hcheck : d.check template outcome exe = some (jitBin, more, d')) :
    Tracks (acts ++ more) d' ∧ AllFrom (acts ++ more) ∧
      (exe.report = none ∧ more = [] ∨ exe.report ≠ none ∧ ∃ front,
        more = front ++ [.writeSys exe.pid exe.rip jitBin] ∧
          ∀ a ∈ front, ∀ pid rip, ¬a.writes pid rip) := by
  unfold Daemon.check at hcheck
  split at hcheck
  · rename_i hreport
    cases hcheck
    rw [List.append_nil]
    exact ⟨h, hfrom, Or.inl ⟨hreport, rfl⟩⟩
  · rename_i report hreport
    obtain ⟨bin, hbin, heq⟩ := Option.map_eq_some_iff.mp hcheck
    cases heq
    obtain ⟨htracks, pid', after, ⟨before, r, o, hacts, hafter, hbuilt⟩, hpid⟩ :=
      @Tracks.prepare template outcome exe acts d h report
    have hquiet := @prepare_no_write template outcome exe d report
    rw [← List.append_assoc]
    refine ⟨htracks.append (by simp [Act.concerns]), ?_, Or.inr ⟨by simp [hreport], _, rfl, hquiet⟩⟩
    have hmore : AllFrom (acts ++ (d.prepare template outcome exe report).1) := by
      refine hfrom.append fun pre' a post hsplit pid rip bin' ha => ?_
      exact absurd ⟨bin', ha⟩ (hquiet a (by rw [hsplit]; simp) pid rip)
    refine hmore.concat ?_
    rintro pid rip bin' ⟨⟩
    refine ⟨before, r, pid', o, after, hacts, hafter, fun built ho => ?_, hpid⟩
    exact Option.some.inj (hbin.symm.trans (hbuilt built ho))

end Daemon

/-- The invariant of the host: the kernel holds, and is being sent, what the latest `write_sys` for
the slot wrote. -/
structure Hosted (h : Host) : Prop where
  installing : Installing
    (fun pid rip jitBin => Latest (Act.writes pid rip) [.writeSys pid rip jitBin] h.acts) h.system
  tracks : Tracks h.acts h.daemon
  allFrom : AllFrom h.acts

theorem Hosted.fresh {h : Host} (hfresh : h.Fresh) : Hosted h where
  installing := .fresh hfresh.system
  tracks := by
    rw [hfresh.daemon, hfresh.acts]
    exact ⟨nofun, nofun⟩
  allFrom := by
    rw [hfresh.acts]
    exact each_nil _

/-- The next slot of the snapshot. A slot that is written for is not normal, so that the others keep
their latest write. -/
theorem Hosted.check {template : Dir} {s : System} {h : Host} (hh : Hosted h)
    {outcome : Outcome} {exe : ExeInfo} {jitBin : List UInt8} {more : List Act} {d : Daemon}
    (hhead : h.system.snapshot.head? = some exe)
    (hcheck : h.daemon.check template outcome exe = some (jitBin, more, d))
    (hstep : step (.check jitBin) h.system = some s) : Hosted ⟨s, d, h.acts ++ more⟩ := by
  obtain ⟨htracks, hall, hmore⟩ := hh.tracks.check hh.allFrom hcheck
  refine ⟨hh.installing.check hstep (fun i hi bin hlatest => hlatest.append fun a ha => ?_)
    fun tr htr => ?_, htracks, hall⟩
  · rcases hmore with ⟨-, rfl⟩ | ⟨hreport, front, rfl, hfront⟩
    · cases ha
    · rcases List.mem_append.mp ha with ha | ha
      · exact hfront a ha _ _
      · have hcurrent := hh.installing.current exe (List.mem_of_mem_head? hhead)
        rintro ⟨bin', hwrite⟩
        obtain ⟨hpid, hrip, -⟩ := Act.writeSys.inj ((List.mem_singleton.mp ha).symm.trans hwrite)
        have hslot : exe.slot = i := by
          rw [← hh.installing.placed i (by rw [hi]; decide), ExeInfo.slot, ExeInfo.slot, hpid, hrip]
        have hheld := hcurrent.status (ExeInfo.report_held hreport)
        rw [hslot, hi] at hheld
        exact ExeInfo.report_held hreport hheld.symm
  · obtain ⟨exe', rest, hsnapshot, rfl⟩ := step_check hstep
    rw [hsnapshot] at hhead
    cases hhead
    obtain ⟨report, hreport, hstart⟩ := Option.bind_eq_some_iff.mp htr
    obtain ⟨hpid, hrip, -⟩ := Transfer.start_some hstart
    rcases hmore with ⟨hnone, -⟩ | ⟨-, front, rfl, -⟩
    · cases hnone.symm.trans hreport
    · rw [hpid, hrip, ← List.append_assoc]
      exact latest_append _ _ _

theorem Hosted.step {template : Dir} {h h' : Host} (hh : Hosted h) {event : HostEvent}
    (hstep : hostStep template event h = some h') : Hosted h' := by
  cases event with
  | check outcome =>
      simp only [hostStep, Option.bind_eq_bind, Option.pure_def, Option.bind_eq_some_iff,
        Option.some.injEq] at hstep
      obtain ⟨exe, hhead, ⟨jitBin, more, d⟩, hcheck, s, hs, rfl⟩ := hstep
      exact hh.check hhead hcheck hs
  | other event =>
      cases event with
      | check jitBin => cases hstep
      | _ =>
          simp only [hostStep, Option.map_eq_some_iff] at hstep
          obtain ⟨s, hs, rfl⟩ := hstep
          exact ⟨hh.installing.step (by simp) hs, hh.tracks, hh.allFrom⟩

end UserspaceBypass
