import UserspaceBypass.CallProfile
import Mathlib.Algebra.BigOperators.Group.Finset.Basic
import Mathlib.Algebra.Order.BigOperators.Group.Finset
import Mathlib.Data.Fintype.BigOperators

/-! The windows of the profile. A window of `stat_func` is `milestone_cnt` calls long. The counts are
cleared at its end only if it was of interest; outside of such windows nothing is counted, so that
every window starts from nothing. -/

namespace UserspaceBypass

/-- The state of a CPU after these system calls. -/
def statRun (calls : List SysCall) : PerCpuInfo :=
  calls.foldl (fun info call => (statFunc call info).1) statInit

/-- The number of short returns in the table. -/
def PerCpuInfo.total (info : PerCpuInfo) : Nat := ∑ pos, (info.caller pos).cnt

/-- The invariant of a window, with room for the call that may be counted next. -/
structure Window (info : PerCpuInfo) (room : Nat) : Prop where
  idle : info.interested = false → ∀ pos, (info.caller pos).cnt = 0
  length : info.callCnt ≤ milestoneCnt
  total : info.total ≤ info.callCnt + room
  place : ∀ pos, 0 < (info.caller pos).cnt →
    callerPos (info.caller pos).pid (info.caller pos).rip = pos

section Steps

variable {info : PerCpuInfo}

theorem Window.start : Window statInit 1 where
  idle _ _ := rfl
  length := Nat.zero_le _
  total := by simp [PerCpuInfo.total, statInit]
  place _ hpos := absurd hpos (lt_irrefl 0)

/-- At a milestone nothing is left of the window before. -/
theorem begin_cleared (hidle : info.interested = false → ∀ pos, (info.caller pos).cnt = 0)
    (hfull : info.callCnt + 1 > milestoneCnt) (call : SysCall) (pos : Fin maxCaller) :
    ((info.begin call).caller pos).cnt = 0 := by
  unfold PerCpuInfo.begin PerCpuInfo.milestone
  simp only [hfull, if_true]
  cases hint : info.interested with
  | false => exact hidle hint pos
  | true => rfl

theorem begin_same (hlen : ¬info.callCnt + 1 > milestoneCnt) (call : SysCall) :
    info.begin call = { info with callCnt := info.callCnt + 1 } := if_neg hlen

/-- Behind the milestone no call of the window has been counted that did not take place in it. -/
theorem Window.begin (h : Window info 1) (call : SysCall) : Window (info.begin call) 0 := by
  by_cases hfull : info.callCnt + 1 > milestoneCnt
  · have hzero := begin_cleared h.idle hfull call
    have hcnt : (info.begin call).callCnt = 0 := by
      unfold PerCpuInfo.begin PerCpuInfo.milestone
      simp only [hfull, if_true]
    refine ⟨fun _ => hzero, ?_, ?_, fun pos hpos => ?_⟩
    · rw [hcnt]
      exact Nat.zero_le _
    · rw [PerCpuInfo.total, Finset.sum_eq_zero fun pos _ => hzero pos]
      exact Nat.zero_le _
    · rw [hzero pos] at hpos
      exact absurd hpos (lt_irrefl 0)
  · rw [begin_same hfull]
    have htotal := h.total
    exact ⟨h.idle, Nat.not_lt.mp hfull, htotal, h.place⟩

/-- The entry a short call is counted in: one more count at most, and in its place. -/
theorem count_entry (info : PerCpuInfo) (pid : BitVec 32) (pos : Fin maxCaller) :
    ((info.count pid).caller pos).cnt ≤
        (info.caller pos).cnt + (if pos = callerPos pid info.lastCaller then 1 else 0) ∧
      (0 < ((info.count pid).caller pos).cnt →
        (0 < (info.caller pos).cnt → callerPos (info.caller pos).pid (info.caller pos).rip = pos) →
          callerPos ((info.count pid).caller pos).pid ((info.count pid).caller pos).rip = pos) := by
  by_cases heq : pos = callerPos pid info.lastCaller
  · subst heq
    simp only [PerCpuInfo.count, Function.update_self, if_true]
    by_cases hzero : (info.caller (callerPos pid info.lastCaller)).cnt = 0
    · simp [hzero]
    · simp only [if_neg hzero]
      have hpos := Nat.pos_of_ne_zero hzero
      split_ifs
      · exact ⟨le_rfl, fun _ hplace => hplace hpos⟩
      · exact ⟨Nat.le_succ _, fun _ hplace => hplace hpos⟩
  · simp only [PerCpuInfo.count, Function.update_of_ne heq, if_neg heq]
    exact ⟨le_rfl, fun hpos hplace => hplace hpos⟩

theorem total_count_le (info : PerCpuInfo) (pid : BitVec 32) :
    (info.count pid).total ≤ info.total + 1 := by
  calc (info.count pid).total
      ≤ ∑ pos, ((info.caller pos).cnt + if pos = callerPos pid info.lastCaller then 1 else 0) :=
        Finset.sum_le_sum fun pos _ => (count_entry info pid pos).1
    _ = info.total + 1 := by
        rw [Finset.sum_add_distrib, Finset.sum_ite_eq' Finset.univ, if_pos (Finset.mem_univ _)]
        rfl

theorem Window.count (h : Window info 0) (hint : info.interested = true) (pid : BitVec 32) :
    Window (info.count pid) 1 where
  idle hfalse := absurd (hint.symm.trans hfalse) (by decide)
  length := h.length
  total := (total_count_le info pid).trans (Nat.add_le_add_right h.total 1)
  place pos hpos := (count_entry info pid pos).2 hpos (h.place pos)

theorem Window.more (h : Window info 0) : Window info 1 :=
  ⟨h.idle, h.length, h.total.trans (Nat.le_succ _), h.place⟩

theorem Window.step (h : Window info 1) (call : SysCall) : Window (statFunc call info).1 1 := by
  have hbegin := h.begin call
  unfold statFunc
  dsimp only
  split_ifs with hint hshort
  · obtain ⟨hidle, hlength, htotal, hplace⟩ := hbegin.count hint call.pid
    exact ⟨hidle, hlength, htotal, hplace⟩
  · obtain ⟨hidle, hlength, htotal, hplace⟩ := hbegin.more
    exact ⟨hidle, hlength, htotal, hplace⟩
  · exact hbegin.more

end Steps

theorem Window.run (calls : List SysCall) : Window (statRun calls) 1 := by
  induction calls using List.reverseRecOn with
  | nil => exact .start
  | append_singleton calls call ih =>
      have hrun : statRun (calls ++ [call]) = (statFunc call (statRun calls)).1 := by
        rw [statRun, statRun, List.foldl_append]
        rfl
      rw [hrun]
      exact ih.step call

/-- **Windows.** After any system calls: outside of an interesting window every count is zero; a window
is at most `milestone_cnt` calls long, with one count more than calls at most; an entry in use stands
at the hash of its pid and address; and the call that starts a window finds every count zero. -/
theorem windows_isolated (calls : List SysCall) :
    ((statRun calls).interested = false → ∀ pos, ((statRun calls).caller pos).cnt = 0) ∧
    (statRun calls).callCnt ≤ 30000 ∧
    ∑ pos, ((statRun calls).caller pos).cnt ≤ (statRun calls).callCnt + 1 ∧
    (∀ pos, 0 < ((statRun calls).caller pos).cnt →
      (zzHash ((statRun calls).caller pos).pid ((statRun calls).caller pos).rip).toNat % 16 = pos) ∧
    ∀ call : SysCall, (statRun calls).callCnt + 1 > milestoneCnt →
      ∀ pos, (((statRun calls).begin call).caller pos).cnt = 0 := by
  have hwindow := Window.run calls
  refine ⟨hwindow.idle, hwindow.length, hwindow.total, fun pos hpos => ?_, fun call hfull => ?_⟩
  · exact congrArg Fin.val (hwindow.place pos hpos)
  · exact begin_cleared hwindow.idle hfull call

end UserspaceBypass
