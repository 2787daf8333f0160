import UserspaceBypass.KernelExe
import Mathlib.Data.List.Induction

/-! The profile by which `stat.c` finds hot call sites. On each CPU `stat_func` remembers where and
when the last system call returned, and takes a system call that is entered shortly after as one more
short return there. It does not remember which process returned, and an entry of the profile is
matched by its address alone. Beside it runs the profile that is meant: for each process its own last
call, and for each process and address how often a short return was really made. -/

namespace UserspaceBypass

/-- A system call as `stat_func` sees it at its end: `ts` is when it was entered, `currentTime` is
now, and `ip` where it returns to. -/
structure SysCall where
  pid : BitVec 32
  ip : BitVec 64
  ts : BitVec 64
  currentTime : BitVec 64
  deriving DecidableEq, Repr

structure CallerInfo where
  rip : BitVec 64
  pid : BitVec 32
  cnt : Nat
  deriving DecidableEq, Repr

def maxCaller : Nat := 16

structure PerCpuInfo where
  lastCaller : BitVec 64
  lastTs : BitVec 64
  callCnt : Nat
  milestoneTs : BitVec 64
  caller : Fin maxCaller → CallerInfo
  interested : Bool

def syscallShortTh : BitVec 64 := 1300

def hotCallerTh : Nat := 900

def milestoneCnt : Nat := 30000

def milestoneDurationTh : BitVec 64 := 1000000000

/-- What `stat_init` leaves. -/
def statInit : PerCpuInfo := ⟨0, 0, 0, 0, fun _ => ⟨0, 0, 0⟩, false⟩

def callerPos (pid : BitVec 32) (rip : BitVec 64) : Fin maxCaller :=
  ⟨(zzHash pid rip).toNat % maxCaller, Nat.mod_lt _ (by decide)⟩

/-- The calls of `exe_add` at a milestone. -/
def PerCpuInfo.hot (info : PerCpuInfo) : List (BitVec 32 × BitVec 64) :=
  if info.callCnt > milestoneCnt ∧ info.interested then
    (((List.finRange maxCaller).map info.caller).filter fun c => c.cnt > hotCallerTh).map
      fun c => (c.pid, c.rip)
  else []

/-- The block that starts a new window. -/
def PerCpuInfo.milestone (currentTime : BitVec 64) (info : PerCpuInfo) : PerCpuInfo :=
  if info.callCnt > milestoneCnt then
    { info with
      caller := if info.interested then fun pos => { info.caller pos with cnt := 0 } else info.caller
      callCnt := 0
      interested := currentTime - info.milestoneTs < milestoneDurationTh
      milestoneTs := currentTime }
  else info

/-- The block for a short system call. -/
def PerCpuInfo.count (pid : BitVec 32) (info : PerCpuInfo) : PerCpuInfo :=
  let pos := callerPos pid info.lastCaller
  let caller := info.caller pos
  let caller := if caller.cnt = 0 then { caller with pid := pid, rip := info.lastCaller } else caller
  let caller :=
    if caller.rip = info.lastCaller then { caller with cnt := caller.cnt + 1 } else caller
  { info with caller := Function.update info.caller pos caller }

/-- The state behind the milestone. -/
def PerCpuInfo.begin (info : PerCpuInfo) (call : SysCall) : PerCpuInfo :=
  { info with callCnt := info.callCnt + 1 }.milestone call.currentTime

/-- `stat_func`, with the calls of `exe_add` it makes. -/
def statFunc (call : SysCall) (info : PerCpuInfo) : PerCpuInfo × List (BitVec 32 × BitVec 64) :=
  let added := { info with callCnt := info.callCnt + 1 }.hot
  let info := info.begin call
  if info.interested then
    let info := if call.ts - info.lastTs < syscallShortTh then info.count call.pid else info
    ({ info with lastTs := call.currentTime, lastCaller := call.ip }, added)
  else (info, added)

/-- The profile that is meant: the last call of each process, and how often in this window the
process returned at the address and entered its own next call shortly after. -/
structure Profile where
  callCnt : Nat
  last : BitVec 32 → Option SysCall
  tally : BitVec 32 → BitVec 64 → Nat

def Profile.start : Profile := ⟨0, fun _ => none, fun _ _ => 0⟩

/-- One more short return. -/
def bump (tally : BitVec 32 → BitVec 64 → Nat) (pid : BitVec 32) (rip : BitVec 64) :
    BitVec 32 → BitVec 64 → Nat :=
  fun pid' rip' => if pid' = pid ∧ rip' = rip then tally pid' rip' + 1 else tally pid' rip'

/-- The call before this one was the process's own, and returned shortly before. -/
def Profile.shortReturn (p : Profile) (call : SysCall) : Option (BitVec 64) :=
  (p.last call.pid).bind fun own =>
    if call.ts - own.currentTime < syscallShortTh then some own.ip else none

/-- The tally a call adds to; a window has as many calls as in `stat_func`. -/
def Profile.opening (p : Profile) : BitVec 32 → BitVec 64 → Nat :=
  if p.callCnt + 1 > milestoneCnt then fun _ _ => 0 else p.tally

def Profile.step (p : Profile) (call : SysCall) : Profile where
  callCnt := if p.callCnt + 1 > milestoneCnt then 0 else p.callCnt + 1
  last := Function.update p.last call.pid (some call)
  tally := (p.shortReturn call).elim p.opening (bump p.opening call.pid)

/-- Both profiles. -/
structure Cpu where
  info : PerCpuInfo
  profile : Profile

def Cpu.start : Cpu := ⟨statInit, .start⟩

def Cpu.step (s : Cpu) (call : SysCall) : Cpu := ⟨(statFunc call s.info).1, s.profile.step call⟩

def Cpu.run (s : Cpu) (calls : List SysCall) : Cpu := calls.foldl Cpu.step s

/-- The profile claims no more than is true; and what it adds to the table is hot. -/
structure Exact (s : Cpu) : Prop where
  cnt : ∀ pos, 0 < (s.info.caller pos).cnt →
    (s.info.caller pos).cnt ≤ s.profile.tally (s.info.caller pos).pid (s.info.caller pos).rip
  added : ∀ call, ∀ site ∈ (statFunc call s.info).2, hotCallerTh < s.profile.tally site.1 site.2

/-- If the call is counted, then the last return is that of the process itself, and the entry it is
counted in does not stand for the same address in another process. -/
def Attributed (s : Cpu) (call : SysCall) : Prop :=
  let info := s.info.begin call
  info.interested → call.ts - info.lastTs < syscallShortTh →
    (∃ own, s.profile.last call.pid = some own ∧ own.ip = info.lastCaller ∧
      own.currentTime = info.lastTs) ∧
    ((info.caller (callerPos call.pid info.lastCaller)).cnt ≠ 0 →
      (info.caller (callerPos call.pid info.lastCaller)).rip = info.lastCaller →
        (info.caller (callerPos call.pid info.lastCaller)).pid = call.pid)

/-- Each call of a run, in the state it comes in. -/
def AllAttributed (s : Cpu) : List SysCall → Prop
  | [] => True
  | call :: calls => Attributed s call ∧ AllAttributed (s.step call) calls

/-- Every entry in use is backed by as many short returns. -/
def Backed (info : PerCpuInfo) (tally : BitVec 32 → BitVec 64 → Nat) : Prop :=
  ∀ pos, 0 < (info.caller pos).cnt →
    (info.caller pos).cnt ≤ tally (info.caller pos).pid (info.caller pos).rip

/-- The invariant: the windows are the same, and outside of interesting ones nothing is counted. -/
structure Cpu.Inv (s : Cpu) : Prop where
  window : s.info.callCnt = s.profile.callCnt
  backed : Backed s.info s.profile.tally
  idle : s.info.interested = false → ∀ pos, (s.info.caller pos).cnt = 0

section Steps

variable {s : Cpu} {info : PerCpuInfo} {tally tally' : BitVec 32 → BitVec 64 → Nat}

theorem le_bump (tally : BitVec 32 → BitVec 64 → Nat) (pid : BitVec 32) (rip : BitVec 64)
    (pid' : BitVec 32) (rip' : BitVec 64) : tally pid' rip' ≤ bump tally pid rip pid' rip' := by
  unfold bump
  split_ifs
  · exact Nat.le_succ _
  · exact le_rfl

theorem Backed.mono (h : Backed info tally) (hle : ∀ pid rip, tally pid rip ≤ tally' pid rip) :
    Backed info tally' := fun pos hpos => (h pos hpos).trans (hle _ _)

/-- The entry that is counted in. -/
theorem Backed.count (h : Backed info tally) {pid : BitVec 32}
    (hentry : (info.caller (callerPos pid info.lastCaller)).cnt ≠ 0 →
      (info.caller (callerPos pid info.lastCaller)).rip = info.lastCaller →
        (info.caller (callerPos pid info.lastCaller)).pid = pid) :
    Backed (info.count pid) (bump tally pid info.lastCaller) := by
  intro pos hpos
  by_cases heq : pos = callerPos pid info.lastCaller
  · subst heq
    have hle := h (callerPos pid info.lastCaller)
    simp only [PerCpuInfo.count, Function.update_self] at hpos ⊢
    by_cases hzero : (info.caller (callerPos pid info.lastCaller)).cnt = 0
    · simp [hzero, bump]
    · by_cases hrip : (info.caller (callerPos pid info.lastCaller)).rip = info.lastCaller
      · have hbacked := hle (Nat.pos_of_ne_zero hzero)
        rw [hentry hzero hrip, hrip] at hbacked
        simp only [if_neg hzero, hrip, if_true, hentry hzero hrip, bump, and_self]
        exact Nat.succ_le_succ hbacked
      · simp only [if_neg hzero, if_neg hrip] at hpos ⊢
        exact (hle hpos).trans (le_bump ..)
  · simp only [PerCpuInfo.count, Function.update_of_ne heq] at hpos ⊢
    exact (h pos hpos).trans (le_bump ..)

theorem opening_le_step (p : Profile) (call : SysCall) (pid : BitVec 32) (rip : BitVec 64) :
    p.opening pid rip ≤ (p.step call).tally pid rip := by
  unfold Profile.step
  dsimp only
  cases p.shortReturn call with
  | none => exact le_rfl
  | some own => exact le_bump ..

/-- A milestone starts from nothing, in the entries and in the tally. -/
theorem Cpu.Inv.begin (h : s.Inv) (call : SysCall) :
    (s.info.begin call).callCnt = (s.profile.step call).callCnt ∧
      Backed (s.info.begin call) s.profile.opening ∧
      ((s.info.begin call).interested = false → ∀ pos, ((s.info.begin call).caller pos).cnt = 0) := by
  have hwindow := h.window
  unfold PerCpuInfo.begin PerCpuInfo.milestone Profile.step Profile.opening
  dsimp only
  rw [hwindow]
  by_cases hfull : s.profile.callCnt + 1 > milestoneCnt
  · have hzero : ∀ pos, ((if s.info.interested then fun pos => { s.info.caller pos with cnt := 0 }
        else s.info.caller) pos).cnt = 0 := by
      intro pos
      cases hint : s.info.interested with
      | false => exact h.idle hint pos
      | true => rfl
    simp only [hfull, if_true]
    refine ⟨trivial, fun pos hpos => ?_, fun _ => hzero⟩
    rw [hzero pos] at hpos
    exact absurd hpos (lt_irrefl 0)
  · simp only [hfull, if_false]
    exact ⟨trivial, h.backed, h.idle⟩

theorem Cpu.Inv.step (h : s.Inv) {call : SysCall} (hcall : Attributed s call) :
    (s.step call).Inv := by
  obtain ⟨hwindow, hbacked, hidle⟩ := h.begin call
  have hlonger := hbacked.mono (opening_le_step s.profile call)
  unfold Cpu.step statFunc
  dsimp only
  cases hint : (s.info.begin call).interested with
  | false =>
      simp only [Bool.false_eq_true, if_false]
      exact ⟨hwindow, hlonger, hidle⟩
  | true =>
      simp only [if_true]
      by_cases hshort : call.ts - (s.info.begin call).lastTs < syscallShortTh
      · obtain ⟨⟨own, hown, hip, htime⟩, hentry⟩ := hcall hint hshort
        have hreturn : s.profile.shortReturn call = some (s.info.begin call).lastCaller := by
          rw [Profile.shortReturn, hown, Option.bind_some, htime, if_pos hshort, hip]
        simp only [hshort, if_true]
        refine ⟨hwindow, ?_, fun hfalse => ?_⟩
        · rw [Profile.step, hreturn]
          exact hbacked.count hentry
        · exact absurd (hint.symm.trans hfalse) (by decide)
      · simp only [hshort, if_false]
        exact ⟨hwindow, hlonger, fun hfalse => absurd (hint.symm.trans hfalse) (by decide)⟩

theorem Cpu.Inv.start : Cpu.start.Inv := ⟨rfl, nofun, fun _ _ => rfl⟩

/-- What is added at a milestone stood in the entries before it. -/
theorem Cpu.Inv.exact (h : s.Inv) : Exact s := by
  refine ⟨h.backed, fun call site hsite => ?_⟩
  have hhot : site ∈ { s.info with callCnt := s.info.callCnt + 1 }.hot := by
    unfold statFunc at hsite
    dsimp only at hsite
    split_ifs at hsite <;> exact hsite
  unfold PerCpuInfo.hot at hhot
  split_ifs at hhot
  · obtain ⟨c, hc, rfl⟩ := List.mem_map.mp hhot
    obtain ⟨hmem, hcnt⟩ := List.mem_filter.mp hc
    obtain ⟨pos, -, rfl⟩ := List.mem_map.mp hmem
    have hlt : hotCallerTh < (s.info.caller pos).cnt := of_decide_eq_true hcnt
    exact hlt.trans_le (h.backed pos (Nat.zero_lt_of_lt hlt))
  · cases hhot

end Steps

theorem Cpu.Inv.run {s : Cpu} {calls : List SysCall} (h : s.Inv) (hcalls : AllAttributed s calls) :
    (s.run calls).Inv := by
  induction calls generalizing s with
  | nil => exact h
  | cons call calls ih => exact ih (h.step hcalls.1) hcalls.2

theorem allAttributed_append {s : Cpu} {before after : List SysCall} :
    AllAttributed s (before ++ after) ↔
      AllAttributed s before ∧ AllAttributed (s.run before) after := by
  induction before generalizing s with
  | nil => exact (and_iff_right trivial).symm
  | cons call before ih =>
      rw [List.cons_append, AllAttributed, AllAttributed, ih, and_assoc]
      rfl

/-- **Attribution.** In every run in which each call that is counted follows a return of its own
process and is counted in an entry of its own, in every state every entry is backed by as many short
returns of the process it names, and `exe_add` is called for hot call sites only. -/
theorem profile_exact {calls : List SysCall} (hcalls : AllAttributed .start calls) :
    ∀ before after, calls = before ++ after → Exact (Cpu.start.run before) := by
  rintro before after rfl
  exact (Cpu.Inv.start.run (allAttributed_append.mp hcalls).1).exact

section Idle

variable {s : Cpu} {call : SysCall}

/-- Outside of an interesting window a call is only counted towards the next milestone. -/
theorem begin_idle (hlen : s.info.callCnt < milestoneCnt) :
    s.info.begin call = { s.info with callCnt := s.info.callCnt + 1 } :=
  if_neg (Nat.not_lt.mpr hlen)

theorem step_idle (hidle : s.info.interested = false) (hlen : s.info.callCnt < milestoneCnt) :
    (s.step call).info = { s.info with callCnt := s.info.callCnt + 1 } := by
  unfold Cpu.step statFunc
  simp only [begin_idle hlen, hidle, Bool.false_eq_true, if_false]

theorem run_idle {calls : List SysCall} (hidle : s.info.interested = false)
    (hlen : s.info.callCnt + calls.length ≤ milestoneCnt) :
    (s.run calls).info = { s.info with callCnt := s.info.callCnt + calls.length } ∧
      AllAttributed s calls := by
  induction calls generalizing s with
  | nil => exact ⟨rfl, trivial⟩
  | cons call calls ih =>
      rw [List.length_cons] at hlen ⊢
      have hlt : s.info.callCnt < milestoneCnt := by omega
      have hstep := @step_idle s call hidle hlt
      have hrest : (s.step call).info.callCnt + calls.length ≤ milestoneCnt := by
        rw [hstep]
        dsimp only
        omega
      obtain ⟨hrun, hcalls⟩ := ih (by rw [hstep]; exact hidle) hrest
      refine ⟨?_, fun hint => ?_, hcalls⟩
      · rw [Cpu.run, List.foldl_cons, ← Cpu.run, hrun, hstep]
        simp only [PerCpuInfo.mk.injEq, true_and, and_true]
        omega
      · rw [begin_idle hlt] at hint
        exact absurd (hidle.symm.trans hint) (by decide)

/-- A process that makes no call has no short return. -/
theorem run_other {calls : List SysCall} {pid : BitVec 32} (hlast : s.profile.last pid = none)
    (htally : ∀ rip, s.profile.tally pid rip = 0) (hcalls : ∀ call ∈ calls, call.pid ≠ pid) :
    (s.run calls).profile.last pid = none ∧ ∀ rip, (s.run calls).profile.tally pid rip = 0 := by
  induction calls generalizing s with
  | nil => exact ⟨hlast, htally⟩
  | cons call calls ih =>
      obtain ⟨hne, hrest⟩ := List.forall_mem_cons.mp hcalls
      refine ih (s := s.step call) ?_ (fun rip => ?_) hrest
      · exact (Function.update_of_ne (Ne.symm hne) _ _).trans hlast
      · have hopening : s.profile.opening pid rip = 0 := by
          unfold Profile.opening
          split_ifs
          · rfl
          · exact htally rip
        unfold Cpu.step Profile.step
        dsimp only
        cases s.profile.shortReturn call with
        | none => exact hopening
        | some own =>
            rw [Option.elim_some, bump, if_neg fun h => hne h.1.symm]
            exact hopening

end Idle

/-- A window of calls by one process, 10 microseconds each, from the time `t` on. -/
@[irreducible] def windowCalls (t : Nat) : List SysCall := (List.range milestoneCnt).map fun n =>
  ⟨1, 0x401000, BitVec.ofNat 64 (t + 10000 * n), BitVec.ofNat 64 (t + 10000 * n + 5000)⟩

theorem length_windowCalls (t : Nat) : (windowCalls t).length = milestoneCnt := by
  unfold windowCalls
  exact (List.length_map _).trans List.length_range

theorem pid_windowCalls {t : Nat} {call : SysCall} (h : call ∈ windowCalls t) : call.pid = 1 := by
  unfold windowCalls at h
  obtain ⟨n, -, rfl⟩ := List.mem_map.mp h
  rfl

/-- The process has the CPU for two windows, the second one less than a second long. -/
def hotCpu : List SysCall :=
  windowCalls 1000000000 ++ [⟨1, 0x401000, 4999995000, 5000000000⟩] ++ windowCalls 5000010000 ++
    [⟨1, 0x401000, 5500000000, 5500005000⟩]

theorem Cpu.run_append (s : Cpu) (before after : List SysCall) :
    s.run (before ++ after) = (s.run before).run after := List.foldl_append ..

/-- The second milestone finds the process interesting, and its last return short ago. -/
theorem hotCpu_run : AllAttributed .start hotCpu ∧ (Cpu.start.run hotCpu).info =
    { statInit with
      lastCaller := 0x401000, lastTs := 5500005000, milestoneTs := 5500005000, interested := true } := by
  have hwindow : ∀ (s : Cpu) (t : Nat) (milestoneTs : BitVec 64),
      s.info = { statInit with milestoneTs := milestoneTs } →
        (s.run (windowCalls t)).info =
          { statInit with callCnt := milestoneCnt, milestoneTs := milestoneTs } ∧
        AllAttributed s (windowCalls t) := by
    intro s t milestoneTs hs
    have hcnt : s.info.callCnt + (windowCalls t).length = milestoneCnt := by
      rw [hs, length_windowCalls]
      exact Nat.zero_add _
    obtain ⟨hrun, hcalls⟩ := run_idle (by rw [hs]; rfl) hcnt.le
    rw [hcnt, hs] at hrun
    exact ⟨hrun, hcalls⟩
  obtain ⟨hinfo₁, hcalls₁⟩ := hwindow .start 1000000000 0 rfl
  have hfirst : (Cpu.start.run (windowCalls 1000000000 ++
      [⟨1, 0x401000, 4999995000, 5000000000⟩])).info =
        { statInit with milestoneTs := 5000000000 } := by
    rw [Cpu.run_append, Cpu.run, List.foldl_cons, List.foldl_nil, Cpu.step, hinfo₁]
    rfl
  obtain ⟨hinfo₂, hcalls₂⟩ := hwindow _ 5000010000 5000000000 hfirst
  rw [← Cpu.run_append] at hinfo₂
  rw [hotCpu, allAttributed_append, allAttributed_append, allAttributed_append]
  refine ⟨⟨⟨⟨hcalls₁, ?_, trivial⟩, hcalls₂⟩, ?_, trivial⟩, ?_⟩
  · unfold Attributed
    rw [hinfo₁]
    exact fun hint => absurd hint (by decide)
  · unfold Attributed
    rw [hinfo₂]
    exact fun _ hshort => absurd hshort (by decide)
  · rw [Cpu.run_append, Cpu.run, List.foldl_cons, List.foldl_nil, Cpu.step, hinfo₂]
    rfl

section Hot

variable {calls : List SysCall}

/-- The state behind the second milestone. -/
def hotInfo : PerCpuInfo :=
  { statInit with
    lastCaller := 0x401000, lastTs := 5500005000, milestoneTs := 5500005000, interested := true }

/-- A call of a process that has made none, right after the return of another. -/
theorem other_counted (hinfo : (Cpu.start.run calls).info = hotInfo)
    (hpid : ∀ call ∈ calls, call.pid ≠ 2) :
    ¬Exact (Cpu.start.run (calls ++ [⟨2, 0x402000, 5500006000, 5500007000⟩])) := by
  intro h
  obtain ⟨hlast, htally⟩ := @run_other .start calls 2 rfl (fun _ => rfl) hpid
  have hcaller : (Cpu.start.run (calls ++ [⟨2, 0x402000, 5500006000, 5500007000⟩])).info.caller
      (callerPos 2 0x401000) = ⟨0x401000, 2, 1⟩ := by
    rw [Cpu.run_append, Cpu.run, List.foldl_cons, List.foldl_nil, Cpu.step, hinfo]
    rfl
  have hcnt := h.cnt (callerPos 2 0x401000)
  rw [hcaller] at hcnt
  have hzero : (Cpu.start.run (calls ++ [⟨2, 0x402000, 5500006000, 5500007000⟩])).profile.tally
      2 0x401000 = 0 := by
    rw [Cpu.run_append, Cpu.run, List.foldl_cons, List.foldl_nil, Cpu.step, Profile.step,
      Profile.shortReturn, hlast, Option.bind_none, Option.elim_none, Profile.opening]
    split_ifs
    · rfl
    · exact htally _
  exact absurd ((hcnt Nat.one_pos).trans_eq hzero) (by decide)

/-- A call of the process whose return was the last. -/
theorem own_attributed {before : List SysCall} (hcalls : AllAttributed .start calls)
    (hinfo : (Cpu.start.run calls).info = hotInfo)
    (hlast : calls = before ++ [⟨1, 0x401000, 5500000000, 5500005000⟩]) :
    AllAttributed .start (calls ++ [⟨1, 0x402000, 5500006000, 5500007000⟩]) := by
  have hown : (Cpu.start.run calls).profile.last 1 =
      some ⟨1, 0x401000, 5500000000, 5500005000⟩ := by
    rw [hlast, Cpu.run_append, Cpu.run, List.foldl_cons, List.foldl_nil]
    simp [Cpu.step, Profile.step]
  refine allAttributed_append.mpr ⟨hcalls, ?_, trivial⟩
  unfold Attributed
  rw [hinfo, hown]
  exact fun _ _ => ⟨⟨_, rfl, rfl, rfl⟩, fun hcnt => absurd rfl hcnt⟩

end Hot

theorem pid_hotCpu {call : SysCall} (hcall : call ∈ hotCpu) : call.pid = 1 := by
  simp only [hotCpu, List.mem_append, List.mem_singleton] at hcall
  rcases hcall with ((hcall | rfl) | hcall) | rfl
  · exact pid_windowCalls hcall
  · rfl
  · exact pid_windowCalls hcall
  · rfl

/-- Another process enters a system call right after the return of the first one, which it is then
said to have made. -/
theorem return_of_other_process_counted :
    ¬Exact (Cpu.start.run (hotCpu ++ [⟨2, 0x402000, 5500006000, 5500007000⟩])) :=
  other_counted hotCpu_run.2 fun call hcall => by
    rw [pid_hotCpu hcall]
    decide

/-- The same call by the first process is a short return of its own. -/
theorem profile_exact_hotCpu :
    AllAttributed .start (hotCpu ++ [⟨1, 0x402000, 5500006000, 5500007000⟩]) ∧
      Exact (Cpu.start.run (hotCpu ++ [⟨1, 0x402000, 5500006000, 5500007000⟩])) := by
  have hcalls := own_attributed hotCpu_run.1 hotCpu_run.2 rfl
  exact ⟨hcalls, profile_exact hcalls _ [] (List.append_nil _).symm⟩

end UserspaceBypass
