import UserspaceBypass.DaemonCompile
import UserspaceBypass.LibLog
import UserspaceBypass.LibStraightLine
import Mathlib.Data.Finset.Card
import Mathlib.Data.Finset.Dedup

/-! What the daemon remembers: `cmd_hist`, the commands it has executed, and `records`, the call
sites it has warned about. Both are arrays of fixed size to which `check` only ever appends, and it
does not look at their ends. `records` is searched up to its end, so that it contains 0 from the
start. -/

namespace UserspaceBypass

open StraightLine Log

/-- What `check` does with a record. -/
inductive Mark where
  | warned (rip : BitVec 64)
  | asked (cmd : List Char) (known : Bool)
  | act (a : Act)

/-- A crash is that of `write_sys` without a `jit.bin`; behind an overrun nothing is known. -/
inductive Life where
  | running | crashed | overrun
  deriving DecidableEq, Repr

/-- The globals of the daemon, up to `cmd_cnt` and `cnts`, and what it has done. -/
structure History where
  daemon : Daemon
  records : List (BitVec 64)
  life : Life
  log : List Mark

/-- A record of a snapshot, with the outcome that a compilation has if there is one. -/
structure Record where
  exe : ExeInfo
  outcome : Outcome

def cmdHistLen : Nat := 1000

def recordsLen : Nat := 1024

/-- The loop of `in_records`, which does not stop at `cnts`. -/
def inRecords (records : List (BitVec 64)) (ip : BitVec 64) : Bool :=
  (records ++ List.replicate (recordsLen - records.length) 0).contains ip

/-- `check` for a call site that is not in the white-list. -/
def History.warn (rip : BitVec 64) (h : History) : History :=
  if inRecords h.records rip then h
  else if h.records.length < recordsLen then
    { h with records := h.records ++ [rip], log := h.log ++ [.warned rip] }
  else { h with life := .overrun }

/-- `check` from the command on: `cmd_history`, what depends on it, and `write_sys`. -/
def History.answer (template : Dir) (outcome : Outcome) (exe : ExeInfo) (report : Report)
    (h : History) : History :=
  let cmd := report.cmd exe.rip
  let known := h.daemon.cmdHist.contains cmd
  if known = false ∧ cmdHistLen ≤ h.daemon.cmdHist.length then { h with life := .overrun }
  else
    let r := h.daemon.prepare template outcome exe report
    { h with
      daemon := r.2
      log := h.log ++ .asked cmd known :: r.1.map .act
      life := if ((r.2.dirs exe.rip).bind Dir.jitBin).isSome then .running else .crashed }

/-- One round of the loop of `check`. -/
def checkRecord (template : Dir) (r : Record) (h : History) : Option History :=
  if h.life ≠ .running then none
  else if !targets.contains r.exe.rip then some (h.warn r.exe.rip)
  else
    match r.exe.report with
    | none => some h
    | some report => some (h.answer template r.outcome r.exe report)

/-- `main` before its loop. -/
def History.start : History := ⟨⟨[], fun _ => none⟩, [], .running, []⟩

/-- The commands the records ask for. -/
def commandsOf (records : List Record) : List (List Char) :=
  records.filterMap fun r => r.exe.report.map (Report.cmd r.exe.rip)

/-- Their call sites outside the white-list. -/
def strangersOf (records : List Record) : List (BitVec 64) :=
  (records.map fun r => r.exe.rip).filter fun rip => !targets.contains rip

/-- The history does what it is for. -/
structure History.Sound (records : List Record) (h : History) : Prop where
  inside : h.life ≠ .overrun
  known : ∀ pre cmd known post, h.log = pre ++ .asked cmd known :: post →
    (known = true ↔ ∃ b, .asked cmd b ∈ pre)
  executed : ∀ r ∈ records, ∀ report, r.exe.report = some report →
    Once (.act (.system r.exe.rip report)) h.log
  compiled : ∀ pre rip report post, h.log = pre ++ .act (.system rip report) :: post →
    ∃ pid outcome post', post = .act (.compile pid rip outcome) :: post'
  reported : ∀ r ∈ records, r.exe.rip ∉ targets → Once (.warned r.exe.rip) h.log

/-- The part of the log that belongs to `cmd_hist`. -/
structure Commands (seen cmdHist : List (List Char)) (log : List Mark) : Prop where
  mem : ∀ cmd, cmd ∈ cmdHist ↔ cmd ∈ seen
  nodup : cmdHist.Nodup
  bound : cmdHist.length ≤ cmdHistLen
  asked : ∀ cmd, (∃ b, .asked cmd b ∈ log) ↔ cmd ∈ cmdHist
  known : ∀ pre cmd known post, log = pre ++ .asked cmd known :: post →
    (known = true ↔ ∃ b, .asked cmd b ∈ pre)
  executed : ∀ rip report, Report.cmd rip report ∈ cmdHist → Once (.act (.system rip report)) log
  fresh : ∀ rip report, .act (.system rip report) ∈ log → Report.cmd rip report ∈ cmdHist
  compiled : ∀ pre rip report post, log = pre ++ .act (.system rip report) :: post →
    ∃ pid outcome post', post = .act (.compile pid rip outcome) :: post'

/-- The part that belongs to `records`. -/
structure Warnings (seen records : List (BitVec 64)) (log : List Mark) : Prop where
  mem : ∀ rip, rip ∈ records ↔ rip ∈ seen ∧ rip ≠ 0
  nodup : records.Nodup
  bound : records.length ≤ recordsLen
  warned : ∀ rip, .warned rip ∈ log ↔ rip ∈ records
  once : ∀ rip ∈ records, Once (.warned rip) log

section Commands

variable {seen cmdHist : List (List Char)} {log : List Mark} {rip : BitVec 64} {report : Report}

theorem Commands.start : Commands [] [] [] where
  mem _ := Iff.rfl
  nodup := List.nodup_nil
  bound := Nat.zero_le _
  asked cmd := by simp
  known pre cmd known post h := by simp at h
  executed rip report h := by simp at h
  fresh rip report h := by simp at h
  compiled pre rip report post h := by simp at h

/-- Marks that execute nothing and ask for nothing new. -/
theorem Commands.quiet (h : Commands seen cmdHist log) {seen' : List (List Char)}
    {more : List Mark} (hseen : ∀ cmd, cmd ∈ seen' ↔ cmd ∈ seen)
    (hsystem : ∀ rip report, .act (.system rip report) ∉ more)
    (hasked : ∀ cmd known, .asked cmd known ∈ more → known = true ∧ cmd ∈ cmdHist) :
    Commands seen' cmdHist (log ++ more) where
  mem cmd := (h.mem cmd).trans (hseen cmd).symm
  nodup := h.nodup
  bound := h.bound
  asked cmd := by
    rw [← h.asked cmd]
    refine ⟨?_, fun ⟨b, hb⟩ => ⟨b, List.mem_append_left _ hb⟩⟩
    rintro ⟨b, hb⟩
    rcases List.mem_append.mp hb with hb | hb
    · exact ⟨b, hb⟩
    · exact (h.asked cmd).mpr (hasked cmd b hb).2
  known pre cmd known post heq := by
    rcases append_split heq with ⟨post', hlog, -⟩ | ⟨pre', rfl, hmore⟩
    · exact h.known pre cmd known post' hlog
    · obtain ⟨hknown, hmem⟩ := hasked cmd known (by simp [hmore])
      obtain ⟨b, hb⟩ := (h.asked cmd).mpr hmem
      exact iff_of_true hknown ⟨b, List.mem_append_left _ hb⟩
  executed rip report hmem := (h.executed rip report hmem).append (hsystem rip report)
  fresh rip report hmem := by
    rcases List.mem_append.mp hmem with hmem | hmem
    · exact h.fresh rip report hmem
    · exact absurd hmem (hsystem rip report)
  compiled pre rip report post heq := by
    rcases append_split heq with ⟨post', hlog, hpost⟩ | ⟨pre', -, hmore⟩
    · obtain ⟨pid, outcome, rest, rfl⟩ := h.compiled pre rip report post' hlog
      exact ⟨pid, outcome, _, hpost⟩
    · exact absurd (by simp [hmore]) (hsystem rip report)

/-- A new command is executed, and the compiler is run. -/
theorem Commands.new (h : Commands seen cmdHist log) (hnew : Report.cmd rip report ∉ cmdHist)
    (hroom : cmdHist.length < cmdHistLen) (pid : BitVec 32) (outcome : Outcome) :
    Commands (seen ++ [report.cmd rip]) (cmdHist ++ [report.cmd rip])
      (log ++ [.asked (report.cmd rip) false, .act (.system rip report),
        .act (.compile pid rip outcome)]) where
  mem cmd := by rw [List.mem_append, List.mem_append, h.mem]
  nodup := by
    rw [← List.concat_eq_append]
    exact List.Nodup.concat hnew h.nodup
  bound := by
    rw [List.length_append, List.length_singleton]
    omega
  asked cmd := by
    simp only [List.mem_append, exists_or, h.asked, List.mem_cons, Mark.asked.injEq, reduceCtorEq,
      List.not_mem_nil, or_false, exists_and_left, exists_eq, and_true]
  known pre cmd known post heq := by
    rcases append_split heq with ⟨post', hlog, -⟩ | ⟨pre', rfl, hmore⟩
    · exact h.known pre cmd known post' hlog
    · rcases pre' with _ | ⟨_, _ | ⟨_, _ | ⟨_, _⟩⟩⟩
      · obtain ⟨hmark, -⟩ := List.cons.inj hmore
        obtain ⟨rfl, rfl⟩ := Mark.asked.inj hmark
        rw [List.append_nil, h.asked]
        exact iff_of_false Bool.false_ne_true hnew
      · simp at hmore
      · simp at hmore
      · simp at hmore
  executed rip' report' hmem := by
    rcases List.mem_append.mp hmem with hold | hcmd
    · have hne : ¬(rip' = rip ∧ report' = report) := by
        rintro ⟨rfl, rfl⟩
        exact hnew hold
      exact (h.executed rip' report' hold).append (by simpa using hne)
    · obtain ⟨rfl, rfl⟩ := Report.cmd_injective (List.mem_singleton.mp hcmd)
      refine once_append (fun hlog => hnew (h.fresh _ _ hlog)) ?_
      exact ⟨[_], [_], rfl, by simp, by simp⟩
  fresh rip' report' hmem := by
    rcases List.mem_append.mp hmem with hmem | hmem
    · exact List.mem_append_left _ (h.fresh rip' report' hmem)
    · obtain ⟨rfl, rfl⟩ : rip' = rip ∧ report' = report := by simpa using hmem
      exact List.mem_append_right _ (List.mem_singleton_self _)
  compiled pre rip' report' post heq := by
    rcases append_split heq with ⟨post', hlog, hpost⟩ | ⟨pre', -, hmore⟩
    · obtain ⟨pid', outcome', rest, rfl⟩ := h.compiled pre rip' report' post' hlog
      exact ⟨pid', outcome', _, hpost⟩
    · rcases pre' with _ | ⟨_, _ | ⟨_, _ | ⟨_, _⟩⟩⟩
      · simp at hmore
      · obtain ⟨⟨rfl, rfl⟩, rfl⟩ : (rip = rip' ∧ report = report') ∧
            [.act (.compile pid rip outcome)] = post := by
          simpa using (List.cons.inj hmore).2
        exact ⟨pid, outcome, [], rfl⟩
      · simp at hmore
      · simp at hmore

end Commands

section Warnings

variable {seen records : List (BitVec 64)} {log more : List Mark} {rip : BitVec 64}

theorem mem_inRecords : inRecords records rip = true ↔
    rip ∈ records ∨ rip = 0 ∧ records.length < recordsLen := by
  rw [inRecords, List.contains_iff_mem, List.mem_append, List.mem_replicate, and_comm (a := rip = 0)]
  refine or_congr_right (and_congr_left fun _ => ?_)
  omega

theorem Warnings.start : Warnings [] [] [] where
  mem rip := by simp
  nodup := List.nodup_nil
  bound := Nat.zero_le _
  warned rip := by simp
  once rip h := by simp at h

/-- Marks without a warning. -/
theorem Warnings.quiet (h : Warnings seen records log) {seen' : List (BitVec 64)}
    (hseen : ∀ rip, rip ∈ seen' ∧ rip ≠ 0 ↔ rip ∈ seen ∧ rip ≠ 0)
    (hmore : ∀ rip, .warned rip ∉ more) : Warnings seen' records (log ++ more) where
  mem rip := (h.mem rip).trans (hseen rip).symm
  nodup := h.nodup
  bound := h.bound
  warned rip := by rw [List.mem_append, or_iff_left (hmore rip), h.warned]
  once rip hrip := (h.once rip hrip).append (hmore rip)

theorem Warnings.new (h : Warnings seen records log) (hnew : rip ∉ records) (hne : rip ≠ 0)
    (hroom : records.length < recordsLen) :
    Warnings (seen ++ [rip]) (records ++ [rip]) (log ++ [.warned rip]) where
  mem r := by
    rw [List.mem_append, List.mem_append, h.mem, List.mem_singleton, or_and_right]
    refine or_congr_right ⟨?_, And.left⟩
    rintro rfl
    exact ⟨rfl, hne⟩
  nodup := by
    rw [← List.concat_eq_append]
    exact List.Nodup.concat hnew h.nodup
  bound := by
    rw [List.length_append, List.length_singleton]
    omega
  warned r := by simp [h.warned]
  once r hr := by
    rcases List.mem_append.mp hr with hold | hr
    · refine (h.once r hold).append ?_
      rw [List.mem_singleton, Mark.warned.injEq]
      rintro rfl
      exact hnew hold
    · rw [List.mem_singleton] at hr
      subst hr
      exact once_append (fun hlog => hnew ((h.warned r).mp hlog)) (once_cons List.not_mem_nil)

end Warnings

/-- Everything that has to be remembered finds its place. -/
structure Remembers (records : List Record) : Prop where
  commands : (commandsOf records).toFinset.card ≤ cmdHistLen
  strangers : (strangersOf records).toFinset.card ≤ recordsLen
  zero : 0 ∉ strangersOf records

section Run

variable {template : Dir} {records : List Record} {r : Record} {h h' : History}

/-- What holds after the given records. -/
structure Agrees (records : List Record) (h : History) : Prop where
  commands : h.life ≠ .overrun → Commands (commandsOf records) h.daemon.cmdHist h.log
  warnings : h.life ≠ .overrun → Warnings (strangersOf records) h.records h.log
  overrun : h.life = .overrun → ¬Remembers records

theorem commandsOf_append (records : List Record) (r : Record) :
    commandsOf (records ++ [r]) =
      commandsOf records ++ (r.exe.report.map (Report.cmd r.exe.rip)).toList := by
  rw [commandsOf, List.filterMap_append, commandsOf]
  cases hcmd : r.exe.report.map (Report.cmd r.exe.rip) <;> simp [hcmd]

theorem strangersOf_append (records : List Record) (r : Record) :
    strangersOf (records ++ [r]) =
      strangersOf records ++ if r.exe.rip ∉ targets then [r.exe.rip] else [] := by
  rw [strangersOf, List.map_append, List.filter_append, strangersOf]
  congr 1
  by_cases hrip : r.exe.rip ∈ targets <;> simp [hrip]

theorem report_of_stranger (hrip : r.exe.rip ∉ targets) : r.exe.report = none := if_pos hrip

/-- A full array and one more. -/
theorem lt_card_of_full {α : Type*} [DecidableEq α] {l seen : List α} {x : α} (hl : l.Nodup)
    (hmem : ∀ y ∈ l, y ∈ seen) (hx : x ∉ l) : l.length < (seen ++ [x]).toFinset.card := by
  have hsub : insert x l.toFinset ⊆ (seen ++ [x]).toFinset := by
    intro y hy
    rw [Finset.mem_insert, List.mem_toFinset] at hy
    rw [List.mem_toFinset, List.mem_append, List.mem_singleton]
    exact hy.symm.imp (hmem y) id
  have hcard := Finset.card_le_card hsub
  rw [Finset.card_insert_of_notMem (by rwa [List.mem_toFinset]), List.toFinset_card_of_nodup hl]
    at hcard
  omega

theorem Agrees.start : Agrees [] .start where
  commands _ := .start
  warnings _ := .start
  overrun h := by cases h

theorem Agrees.warn (ha : Agrees records h) (hlife : h.life = .running)
    (hrip : r.exe.rip ∉ targets) : Agrees (records ++ [r]) (h.warn r.exe.rip) := by
  have hlive : h.life ≠ .overrun := by
    rw [hlife]
    decide
  have hcommands := ha.commands hlive
  have hwarnings := ha.warnings hlive
  have hseen : commandsOf (records ++ [r]) = commandsOf records := by
    rw [commandsOf_append, report_of_stranger hrip]
    exact List.append_nil _
  have hstrangers : strangersOf (records ++ [r]) = strangersOf records ++ [r.exe.rip] := by
    rw [strangersOf_append, if_pos hrip]
  unfold History.warn
  split_ifs with hin hroom
  · -- Either it was warned about before, or it is 0.
    refine ⟨fun _ => hseen ▸ hcommands, fun _ => ?_, fun hover => absurd hover hlive⟩
    rw [hstrangers, ← List.append_nil h.log]
    refine hwarnings.quiet (fun rip => ?_) (fun _ => List.not_mem_nil)
    rw [List.mem_append, List.mem_singleton, or_and_right, or_iff_left_iff_imp]
    rintro ⟨rfl, hne⟩
    rcases mem_inRecords.mp hin with hold | ⟨hzero, -⟩
    · exact (hwarnings.mem _).mp hold
    · exact absurd hzero hne
  · have hin' := mt mem_inRecords.mpr hin
    rw [not_or] at hin'
    refine ⟨fun _ => ?_, fun _ => ?_, fun hover => absurd hover hlive⟩
    · rw [hseen]
      exact hcommands.quiet (fun _ => Iff.rfl) (by simp) (by simp)
    · rw [hstrangers]
      exact hwarnings.new hin'.1 (fun hzero => hin'.2 ⟨hzero, hroom⟩) hroom
  · have hin' := mt mem_inRecords.mpr hin
    rw [not_or] at hin'
    refine ⟨fun hno => absurd rfl hno, fun hno => absurd rfl hno, fun _ hok => ?_⟩
    have hlt : h.records.length < (strangersOf records ++ [r.exe.rip]).toFinset.card :=
      lt_card_of_full hwarnings.nodup (fun y hy => ((hwarnings.mem y).mp hy).1) hin'.1
    have hle := hok.strangers
    rw [hstrangers] at hle
    omega

theorem Agrees.answer (ha : Agrees records h) (hlife : h.life = .running) {report : Report}
    (hreport : r.exe.report = some report) :
    Agrees (records ++ [r]) (h.answer template r.outcome r.exe report) := by
  have hlive : h.life ≠ .overrun := by
    rw [hlife]
    decide
  have hcommands := ha.commands hlive
  have hwarnings := ha.warnings hlive
  have hrip : r.exe.rip ∈ targets := by
    by_contra hrip
    rw [report_of_stranger hrip] at hreport
    cases hreport
  have hseen : commandsOf (records ++ [r]) = commandsOf records ++ [report.cmd r.exe.rip] := by
    rw [commandsOf_append, hreport]
    rfl
  have hstrangers : strangersOf (records ++ [r]) = strangersOf records := by
    rw [strangersOf_append, if_neg (not_not.mpr hrip), List.append_nil]
  have hended : ∀ b : Bool, (if b then Life.running else .crashed) ≠ .overrun := by decide
  unfold History.answer
  dsimp only
  by_cases hfull : h.daemon.cmdHist.contains (report.cmd r.exe.rip) = false ∧
      cmdHistLen ≤ h.daemon.cmdHist.length
  · rw [if_pos hfull]
    obtain ⟨hnew, hlen⟩ := hfull
    rw [Bool.eq_false_iff, ne_eq, List.contains_iff_mem] at hnew
    refine ⟨fun hno => absurd rfl hno, fun hno => absurd rfl hno, fun _ hok => ?_⟩
    have hlt : h.daemon.cmdHist.length < (commandsOf records ++ [report.cmd r.exe.rip]).toFinset.card :=
      lt_card_of_full hcommands.nodup (fun y hy => (hcommands.mem y).mp hy) hnew
    have hle := hok.commands
    rw [hseen] at hle
    omega
  · rw [if_neg hfull]
    unfold Daemon.prepare
    dsimp only
    by_cases hold : report.cmd r.exe.rip ∈ h.daemon.cmdHist
    · have hknown : h.daemon.cmdHist.contains (report.cmd r.exe.rip) = true :=
        List.contains_iff_mem.mpr hold
      rw [if_pos hold, hknown]
      refine ⟨fun _ => ?_, fun _ => ?_, fun hover => absurd hover (hended _)⟩
      · rw [hseen]
        refine hcommands.quiet (fun cmd => ?_) (by simp) (fun cmd known hmem => ?_)
        · rw [List.mem_append, List.mem_singleton, or_iff_left_iff_imp]
          rintro rfl
          exact (hcommands.mem _).mp hold
        · obtain ⟨rfl, rfl⟩ : cmd = report.cmd r.exe.rip ∧ known = true := by simpa using hmem
          exact ⟨rfl, hold⟩
      · rw [hstrangers]
        exact hwarnings.quiet (fun _ => Iff.rfl) (by simp)
    · have hunknown : h.daemon.cmdHist.contains (report.cmd r.exe.rip) = false := by
        rw [Bool.eq_false_iff, ne_eq, List.contains_iff_mem]
        exact hold
      rw [hunknown] at hfull ⊢
      rw [if_neg hold]
      refine ⟨fun _ => ?_, fun _ => ?_, fun hover => absurd hover (hended _)⟩
      · rw [hseen]
        exact hcommands.new hold (by simpa using hfull) _ _
      · rw [hstrangers]
        exact hwarnings.quiet (fun _ => Iff.rfl) (by simp)

theorem Agrees.step (ha : Agrees records h) (hstep : checkRecord template r h = some h') :
    Agrees (records ++ [r]) h' := by
  unfold checkRecord at hstep
  split_ifs at hstep with hlife hrip
  · cases hstep
    exact ha.warn (not_not.mp hlife) (by simpa using hrip)
  · have hlisted : r.exe.rip ∈ targets := by simpa using hrip
    split at hstep
    · rename_i hreport
      cases hstep
      have hseen : commandsOf (records ++ [r]) = commandsOf records := by
        rw [commandsOf_append, hreport]
        exact List.append_nil _
      have hstrangers : strangersOf (records ++ [r]) = strangersOf records := by
        rw [strangersOf_append, if_neg (not_not.mpr hlisted), List.append_nil]
      refine ⟨fun hl => hseen ▸ ha.commands hl, fun hl => hstrangers ▸ ha.warnings hl,
        fun hover => absurd hover ?_⟩
      rw [not_not.mp hlife]
      decide
    · rename_i report hreport
      cases hstep
      exact ha.answer (not_not.mp hlife) hreport

theorem Agrees.run (hrun : runAll (checkRecord template) records .start = some h) :
    Agrees records h :=
  runAll_history .start (fun _ _ _ _ _ ha hstep => ha.step hstep) records h hrun

theorem Agrees.sound_iff (ha : Agrees records h) : h.Sound records ↔ Remembers records := by
  constructor
  · intro hsound
    have hcommands := ha.commands hsound.inside
    have hwarnings := ha.warnings hsound.inside
    have hzero : 0 ∉ strangersOf records := by
      intro hmem
      obtain ⟨hrips, hrip⟩ := List.mem_filter.mp hmem
      obtain ⟨r, hr, hr0⟩ := List.mem_map.mp hrips
      obtain ⟨pre, post, hlog, -⟩ := hsound.reported r hr (by simpa [hr0] using hrip)
      have hwarned := (hwarnings.warned r.exe.rip).mp (by rw [hlog]; simp)
      exact ((hwarnings.mem _).mp hwarned).2 hr0
    refine ⟨?_, ?_, hzero⟩
    · have hset : (commandsOf records).toFinset = h.daemon.cmdHist.toFinset := by
        ext cmd
        rw [List.mem_toFinset, List.mem_toFinset, hcommands.mem]
      rw [hset, List.toFinset_card_of_nodup hcommands.nodup]
      exact hcommands.bound
    · have hset : (strangersOf records).toFinset = h.records.toFinset := by
        ext rip
        rw [List.mem_toFinset, List.mem_toFinset, hwarnings.mem, iff_self_and]
        rintro hmem rfl
        exact hzero hmem
      rw [hset, List.toFinset_card_of_nodup hwarnings.nodup]
      exact hwarnings.bound
  · intro hok
    have hlive : h.life ≠ .overrun := fun hover => ha.overrun hover hok
    have hcommands := ha.commands hlive
    have hwarnings := ha.warnings hlive
    refine ⟨hlive, hcommands.known, fun r hr report hreport => ?_, hcommands.compiled,
      fun r hr hrip => ?_⟩
    · refine hcommands.executed _ _ ((hcommands.mem _).mpr ?_)
      exact List.mem_filterMap.mpr ⟨r, hr, by rw [hreport, Option.map_some]⟩
    · have hmem : r.exe.rip ∈ strangersOf records :=
        List.mem_filter.mpr ⟨List.mem_map_of_mem hr, by simpa using hrip⟩
      refine hwarnings.once _ ((hwarnings.mem _).mpr ⟨hmem, fun h0 => hok.zero ?_⟩)
      rw [← h0]
      exact hmem

end Run

/-- **Daemon history.** After every sequence of snapshots: `cmd_history` returned 1 exactly for the
commands it had been given before, each command was executed and followed by a compilation once, each
call site outside the white-list was reported once and no array was written behind its end, exactly
if there were at most 1000 different commands and 1024 such call sites, and none of these was 0. -/
theorem daemon_history_iff {template : Dir} {snapshots : List (List Record)} {h : History}
    (hrun : runAll (checkRecord template) snapshots.flatten .start = some h) :
    h.Sound snapshots.flatten ↔ Remembers snapshots.flatten :=
  (Agrees.run hrun).sound_iff

/-- A call site of the white-list, in two snapshots; the second time the code is there. -/
def initTwice : List (List Record) :=
  let r : Record := ⟨⟨.unInit, 1, 0x7ffff7de6487, 0, fun _ => 0, 0, 0, 0, 0⟩, .built [0xC3]⟩
  [[r], [r]]

theorem daemon_history_initTwice :
    ∃ h, runAll (checkRecord ⟨[], [], none⟩) initTwice.flatten .start = some h ∧ h.log.length = 5 ∧
      h.Sound initTwice.flatten := by
  have hlog : ((runAll (checkRecord ⟨[], [], none⟩) initTwice.flatten .start).map
      fun h => h.log.length) = some 5 := by decide +kernel
  obtain ⟨h, hrun, hlen⟩ := Option.map_eq_some_iff.mp hlog
  exact ⟨h, hrun, hlen, (daemon_history_iff hrun).mpr
    ⟨by decide +kernel, by decide +kernel, by decide +kernel⟩⟩

/-- A call site at address 0. -/
def zeroSite : List (List Record) :=
  [[⟨⟨.unInit, 1, 0, 0, fun _ => 0, 0, 0, 0, 0⟩, .failed⟩]]

/-- It is taken for one that has been reported. -/
theorem zero_unreported :
    ∃ h, runAll (checkRecord ⟨[], [], none⟩) zeroSite.flatten .start = some h ∧
      ¬h.Sound zeroSite.flatten := by
  have hin : inRecords [] 0 = true := mem_inRecords.mpr (Or.inr ⟨rfl, by decide⟩)
  refine ⟨History.start.warn 0, rfl, fun hsound => ?_⟩
  obtain ⟨pre, post, hlog, -⟩ := hsound.reported _ List.mem_cons_self (by decide)
  rw [History.warn, History.start, if_pos hin] at hlog
  simp at hlog

end UserspaceBypass
