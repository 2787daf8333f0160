import UserspaceBypass.DaemonHistory
import UserspaceBypass.DisAssem
import UserspaceBypass.FileRun
import UserspaceBypass.Memread
import UserspaceBypass.Provenance

/-! Misses are repaired for good. A report becomes a line of a table, every compilation reads the
whole table again, and what it reads becomes a rung of a ladder or a block of the file. The history
keeps a report from being entered twice, and the directory keeps what was entered before. -/

namespace UserspaceBypass

open Layout

/-- The offsets in a mapping that are disassembled first. -/
def orderingBugList : List Nat := [0x2ce40, 0x2ce50, 0x4ffd0, 0x738d0]

/-- The order in which the targets of a chunk are handed to the disassembler. -/
def disOrder (chunk : MemChunk) : List Nat :=
  (chunk.targets.filter fun t => orderingBugList.contains (t - chunk.start)) ++
    chunk.targets.filter fun t => !orderingBugList.contains (t - chunk.start)

/-- What a run of `disassem.py` depends on besides the directory: the process, the orders of the
sets, and the disassembler, which gets bytes, their address and the targets. -/
structure Tools where
  world : World
  orders : SetOrders
  proc : Proc
  dis : List UInt8 → Nat → List Nat → List (Nat × Block)

namespace Tools

/-- `block_dict` -/
def blockDict (tools : Tools) (chunks : List MemChunk) : List (Nat × Block) :=
  (chunks.flatMap fun c => tools.dis c.bytes c.start (disOrder c)).foldl
    (fun dict b => Dict.set dict b.1 b.2) []

/-- `dis_assem` -/
def disAssem (tools : Tools) (entry : Nat) (dir : Dir) : Option (List (Item Label Asm)) := do
  let (jumpTable, chunks) ← read tools.orders tools.proc entry dir []
  emitFile tools.world entry (tools.blockDict chunks) jumpTable

/-- The script as `compile` starts it, with the call site for the entry, and the assembler. -/
def outcome (assemble : List (Item Label Asm) → List UInt8) (tools : Tools) (rip : BitVec 64)
    (dir : Dir) : Outcome :=
  match (Text.readHex (pointerText rip)).bind fun entry => tools.disAssem entry dir with
  | none => .failed
  | some file => .built (assemble file)

end Tools

/-- A slot of a snapshot, with what a compilation for it would find. -/
structure Job where
  exe : ExeInfo
  tools : Tools

/-- The outcome of a compilation is that of `disassem.py` on the directory as the command leaves
it. -/
def Job.record (assemble : List (Item Label Asm) → List UInt8) (template : Dir) (h : History)
    (job : Job) : Record where
  exe := job.exe
  outcome :=
    match job.exe.report.bind fun report =>
      report.system template job.exe.rip h.daemon.dirs job.exe.rip with
    | none => .failed
    | some dir => job.tools.outcome assemble job.exe.rip dir

/-- The addresses of a report. -/
def Report.addresses : Report → List (BitVec 64)
  | .init => []
  | .callMiss tgt => [tgt]
  | .ijMiss jumpFrom tgt => [jumpFrom, tgt]

/-- The disassembler makes a block of every target, inside the address space, and the translation of
the blocks comes to its end. -/
structure Tools.Finishes (tools : Tools) (entry : Nat) (seed : List (Nat × List Nat))
    (chunks : List MemChunk) : Prop where
  decodes : ∀ chunk ∈ chunks, ∀ t ∈ disOrder chunk,
    t ∈ Dict.keys (tools.dis chunk.bytes chunk.start (disOrder chunk))
  range : ∀ e ∈ allEnds (tools.blockDict chunks), e.1 < 2 ^ 64
  emits : ∃ file, emitFile tools.world entry (tools.blockDict chunks) seed = some file

/-- What is assumed of a report that is new: the command finds the directory, the addresses of all
reports so far and the call site lie in executable mappings of the process, and the script ends. -/
structure Job.Succeeds (template : Dir) (h : History) (job : Job) (report : Report) : Prop where
  echo : report = .init ∨ ∃ dir, h.daemon.dirs job.exe.rip = some dir
  nonzero : ∀ a ∈ report.addresses, a ≠ 0
  inside : ∃ maps, getmap job.tools.proc.maps = some maps ∧ InMaps maps job.exe.rip.toNat ∧
    ∀ other : Report, other = report ∨ other.cmd job.exe.rip ∈ h.daemon.cmdHist →
      ∀ a ∈ other.addresses, InMaps maps a.toNat
  finishes : ∀ dir seed chunks,
    report.system template job.exe.rip h.daemon.dirs job.exe.rip = some dir →
    read job.tools.orders job.tools.proc job.exe.rip.toNat dir [] = some (seed, chunks) →
      job.tools.Finishes job.exe.rip.toNat seed chunks

/-- The states the daemon comes to. -/
inductive Works (assemble : List (Item Label Asm) → List UInt8) (template : Dir) : History → Prop
  | start : Works assemble template .start
  | step {h h' : History} {job : Job} (before : Works assemble template h)
      (succeeds : ∀ report, job.exe.report = some report →
        report.cmd job.exe.rip ∉ h.daemon.cmdHist → job.Succeeds template h report)
      (step : checkRecord template (job.record assemble template h) h = some h') :
      Works assemble template h'

/-- The address has a translated block, and no stub. -/
def Translated (file : List (Item Label Asm)) (a : Nat) : Prop :=
  ∃ world blocks last entry emitted jumpTable missing own,
    translateBlocks world blocks .start = some (emitted, last) ∧
      file = jitFile entry emitted jumpTable missing ∧ (a, own) ∈ emitted ∧ a ∉ missing ∧
      codeAt file (.loc a) = emittedText own

/-- The file does not miss again what was reported: the ladder of a source sends the target to its
block, and a callee has a block. -/
def Repairs (file : List (Item Label Asm)) : Report → Prop
  | .init => True
  | .callMiss tgt => Translated file tgt.toNat
  | .ijMiss jumpFrom tgt => Translated file tgt.toNat ∧ .loc tgt.toNat ∈ labels file ∧
      ∀ isa c, Isa.Compares isa → c.regs (.gpr .r14) = tgt →
        ∃ c', leaves isa (codeAt file (.ij jumpFrom.toNat)) c = some (.loc tgt.toNat, c') ∧
          OnlyR15 c c'

section Emit

variable {world : World} {entry : Nat} {blocks : List (Nat × Block)} {seed : List (Nat × List Nat)}
  {file : List (Item Label Asm)}

/-- A block of the dictionary is translated. -/
theorem emitFile_translated (h : emitFile world entry blocks seed = some file)
    (hblocks : (Dict.keys blocks).Nodup) {a : Nat} (ha : a ∈ Dict.keys blocks) :
    Translated file a ∧ .loc a ∈ labels file := by
  obtain ⟨sites, emitted, last, hfind, hrun, rfl⟩ := emitFile_some h
  have hkeys := (keys_perm hrun).mem_iff.mpr ha
  obtain ⟨⟨a', own⟩, hown, rfl⟩ := List.mem_map.mp hkeys
  have hmissing : a' ∉ sites.missing := by
    intro hmem
    rcases ((find_grows hfind).missing a').mp hmem with hnil | ⟨-, hnot⟩
    · cases hnil
    · exact hnot ha
  refine ⟨⟨world, sortedBlocks blocks, last, entry, emitted, sites.jumpTable, sites.missing, own,
    hrun, rfl, hown, hmissing, ?_⟩, (loc_mem_labels hfind hrun entry).mpr (Or.inl ha)⟩
  have hnodup := (keys_perm hrun).nodup_iff.mpr hblocks
  obtain ⟨before, after, rfl⟩ := List.append_of_mem hown
  rw [Dict.keys, List.map_append, List.map_cons] at hnodup
  have hnot : a' ∉ before.map Prod.fst := fun hmem =>
    (List.nodup_append.mp hnodup).2.2 a' hmem a' List.mem_cons_self rfl
  rw [jitFile, List.map_append, List.map_cons, List.append_assoc, List.append_assoc,
    List.append_assoc]
  exact codeAt_sections (by simpa using hnot)

/-- A target of the seed is compared with, and the comparison sends it to its label. -/
theorem emitFile_ladder (h : emitFile world entry blocks seed = some file)
    (hseed : (Dict.keys seed).Nodup) (hrange : ∀ e ∈ allEnds blocks, e.1 < 2 ^ 64)
    (htargets : ∀ r x, x ∈ Dict.entries seed r → x < 2 ^ 64) {r x : Nat}
    (hx : x ∈ Dict.entries seed r) {isa : Isa} (hisa : isa.Compares) {c : Machine}
    (hc : c.regs (.gpr .r14) = BitVec.ofNat 64 x) :
    ∃ c', leaves isa (codeAt file (.ij r)) c = some (.loc x, c') ∧ OnlyR15 c c' := by
  obtain ⟨sites, emitted, last, hfind, hrun, rfl⟩ := emitFile_some h
  have hgrows := find_grows hfind
  have hkept := hgrows.kept r x hx
  rw [Dict.entries] at hkept
  cases hget : Dict.get sites.jumpTable r with
  | none =>
      rw [hget] at hkept
      cases hkept
  | some targets =>
      rw [hget] at hkept
      have hsmall : ∀ t ∈ targets, t < 2 ^ 64 := by
        intro t ht
        have hentry : t ∈ Dict.entries sites.jumpTable r := by
          rw [Dict.entries, hget]
          exact ht
        rcases hgrows.entries r t hentry with hold | ⟨line, hline, -⟩
        · exact htargets r t hold
        · exact hrange _ hline
      rw [codeAt_ij (hgrows.nodup hseed) (Dict.mem_of_get hget)]
      exact ladder_hit hisa hsmall hkept hc

end Emit

section Compile

variable {tools : Tools} {rip : BitVec 64} {dir : Dir}
  {pairs : List (BitVec 64 × BitVec 64)} {callees : List (BitVec 64)}

theorem mem_disOrder {chunk : MemChunk} {t : Nat} : t ∈ disOrder chunk ↔ t ∈ chunk.targets := by
  rw [disOrder, List.mem_append, List.mem_filter, List.mem_filter, ← and_or_left,
    and_iff_left_iff_imp]
  intro _
  cases orderingBugList.contains (t - chunk.start) <;> simp

theorem nodup_blockDict (chunks : List MemChunk) : (Dict.keys (tools.blockDict chunks)).Nodup :=
  Dict.nodup_foldl_set _ List.nodup_nil

/-- Every requested target is a key. -/
theorem Tools.Finishes.mem_keys {entry : Nat} {seed : List (Nat × List Nat)}
    {chunks : List MemChunk} (h : tools.Finishes entry seed chunks) {t : Nat}
    (ht : ∃ chunk ∈ chunks, t ∈ chunk.targets) : t ∈ Dict.keys (tools.blockDict chunks) := by
  obtain ⟨chunk, hchunk, ht⟩ := ht
  rw [Tools.blockDict, Dict.mem_keys_foldl_set]
  refine Or.inr ?_
  obtain ⟨b, hb, rfl⟩ := List.mem_map.mp (h.decodes chunk hchunk t (mem_disOrder.mpr ht))
  exact List.mem_map_of_mem (List.mem_flatMap.mpr ⟨chunk, hchunk, hb⟩)

/-- A compilation on these tables repairs all their pairs and callees. -/
theorem outcome_repairs (assemble : List (Item Label Asm) → List UInt8) (hrip : rip ≠ 0)
    (h : dir.Holds pairs callees)
    (hpairs : ∀ p ∈ pairs, p.1 ≠ 0 ∧ p.2 ≠ 0) (hcallees : ∀ a ∈ callees, a ≠ 0)
    {maps : List (Nat × Nat)} (hmaps : getmap tools.proc.maps = some maps)
    (hin : InMaps maps rip.toNat) (hinPairs : ∀ p ∈ pairs, InMaps maps p.2.toNat)
    (hinCallees : ∀ a ∈ callees, InMaps maps a.toNat)
    (hfinish : ∀ seed chunks, read tools.orders tools.proc rip.toNat dir [] = some (seed, chunks) →
      tools.Finishes rip.toNat seed chunks) :
    ∃ file, tools.outcome assemble rip dir = .built (assemble file) ∧
      (∀ p ∈ pairs, Repairs file (.ijMiss p.1 p.2)) ∧
      ∀ a ∈ callees, Repairs file (.callMiss a) := by
  have hall : ∀ t, t = rip.toNat ∨ (∃ p ∈ pairs, p.2.toNat = t) ∨ (∃ a ∈ callees, a.toNat = t) →
      InMaps maps t := by
    rintro t (rfl | ⟨p, hp, rfl⟩ | ⟨a, ha, rfl⟩)
    · exact hin
    · exact hinPairs p hp
    · exact hinCallees a ha
  obtain ⟨seed, chunks, hread, hseed, hnodup, htargets⟩ :=
    read_holds h hpairs hcallees tools.orders hmaps hall
  have hdone := hfinish seed chunks hread
  obtain ⟨file, hfile⟩ := hdone.emits
  refine ⟨file, ?_, fun p hp => ?_, fun a ha => ?_⟩
  · simp only [Tools.outcome, readHex_pointerText hrip, Option.bind_some, Tools.disAssem, hread,
      Option.bind_eq_bind, hfile]
  · have hkey := hdone.mem_keys ((htargets p.2.toNat).mpr (Or.inr (Or.inl ⟨p, hp, rfl⟩)))
    obtain ⟨htranslated, hlabel⟩ := emitFile_translated hfile (nodup_blockDict chunks) hkey
    refine ⟨htranslated, hlabel, fun isa c hisa hc => ?_⟩
    refine emitFile_ladder hfile hnodup hdone.range (fun r x hx => ?_)
      ((hseed _ _).mpr ⟨p, hp, rfl⟩) hisa ?_
    · obtain ⟨q, -, hq⟩ := (hseed r x).mp hx
      rw [← (Prod.mk.inj hq).2]
      exact q.2.isLt
    · rw [hc, BitVec.ofNat_toNat, BitVec.setWidth_eq]
  · exact (emitFile_translated hfile (nodup_blockDict chunks)
      (hdone.mem_keys ((htargets a.toNat).mpr (Or.inr (Or.inr ⟨a, ha, rfl⟩))))).1

end Compile

section Run

variable {assemble : List (Item Label Asm) → List UInt8} {template : Dir} {h h' : History}
  {job : Job} {r : Record} {report : Report} {rip : BitVec 64}

/-- What a report adds to `ij_table.txt`. -/
def Report.pairs : Report → List (BitVec 64 × BitVec 64)
  | .init => []
  | .callMiss _ => []
  | .ijMiss jumpFrom tgt => [(jumpFrom, tgt)]

/-- What it adds to `callee_table.txt`. -/
def Report.callees : Report → List (BitVec 64)
  | .init => []
  | .callMiss tgt => [tgt]
  | .ijMiss _ _ => []

theorem Report.mem_pairs {s t : BitVec 64} : (s, t) ∈ report.pairs ↔ .ijMiss s t = report := by
  cases report <;> simp [Report.pairs]

theorem Report.mem_callees {t : BitVec 64} : t ∈ report.callees ↔ .callMiss t = report := by
  cases report <;> simp [Report.callees]

/-- A command other than the first appends its lines. -/
theorem Report.system_holds {dirs : BitVec 64 → Option Dir} {dir : Dir}
    {pairs : List (BitVec 64 × BitVec 64)} {callees : List (BitVec 64)} (hreport : report ≠ .init)
    (hparses : (report.unquoted rip).any (· = 0) = false) (hdir : dirs rip = some dir)
    (hholds : dir.Holds pairs callees) :
    ∃ dir', report.system template rip dirs rip = some dir' ∧
      dir'.Holds (pairs ++ report.pairs) (callees ++ report.callees) := by
  cases report with
  | init => exact absurd rfl hreport
  | callMiss tgt =>
      refine ⟨{ dir with calleeTable := dir.calleeTable ++ echoLine (pointerText tgt) }, ?_, ?_, ?_⟩
      · simp only [Report.system, hparses, Bool.false_eq_true, if_false, Function.update_self, hdir,
          Option.map_some]
      · simp only [Report.pairs, List.append_nil, hholds.ijTable]
      · simp only [Report.callees, List.flatMap_append, List.flatMap_singleton, hholds.calleeTable]
  | ijMiss jumpFrom tgt =>
      refine ⟨{ dir with ijTable := dir.ijTable ++ echoLine (ijText (jumpFrom, tgt)) }, ?_, ?_, ?_⟩
      · simp only [Report.system, hparses, Bool.false_eq_true, if_false, Function.update_self, hdir,
          Option.map_some, ijText]
      · simp only [Report.pairs, List.flatMap_append, List.flatMap_singleton, hholds.ijTable]
      · simp only [Report.callees, List.append_nil, hholds.calleeTable]

/-- The tables hold what the history says. -/
structure Tabled (hist : List (List Char)) (rip : BitVec 64) (pairs : List (BitVec 64 × BitVec 64))
    (callees : List (BitVec 64)) : Prop where
  pairs : ∀ s t, (s, t) ∈ pairs ↔ (Report.ijMiss s t).cmd rip ∈ hist
  callees : ∀ t, t ∈ callees ↔ (Report.callMiss t).cmd rip ∈ hist

theorem Report.cmd_mem_push {hist : List (List Char)} {rip' : BitVec 64} {other : Report} :
    other.cmd rip' ∈ hist ++ [report.cmd rip] ↔
      other.cmd rip' ∈ hist ∨ rip' = rip ∧ other = report := by
  rw [List.mem_append, List.mem_singleton]
  refine or_congr_right ⟨Report.cmd_injective, ?_⟩
  rintro ⟨rfl, rfl⟩
  rfl

theorem Tabled.push {hist : List (List Char)} {pairs : List (BitVec 64 × BitVec 64)}
    {callees : List (BitVec 64)} (htabled : Tabled hist rip pairs callees) (report : Report) :
    Tabled (hist ++ [report.cmd rip]) rip (pairs ++ report.pairs) (callees ++ report.callees) where
  pairs s t := by
    rw [Report.cmd_mem_push, List.mem_append, htabled.pairs, Report.mem_pairs, and_iff_right rfl]
  callees t := by
    rw [Report.cmd_mem_push, List.mem_append, htabled.callees, Report.mem_callees,
      and_iff_right rfl]

/-- The history of another call site says nothing about these tables. -/
theorem Tabled.other {hist : List (List Char)} {pairs : List (BitVec 64 × BitVec 64)}
    {callees : List (BitVec 64)} {rip' : BitVec 64} (htabled : Tabled hist rip' pairs callees)
    (hne : rip' ≠ rip) (report : Report) :
    Tabled (hist ++ [report.cmd rip]) rip' pairs callees where
  pairs s t := by
    rw [Report.cmd_mem_push, htabled.pairs, or_iff_left fun heq => hne heq.1]
  callees t := by
    rw [Report.cmd_mem_push, htabled.callees, or_iff_left fun heq => hne heq.1]

/-- The daemon between two reports: what is in the history is in the tables, and what is in the
tables is in `jit.bin`. -/
structure Answered (assemble : List (Item Label Asm) → List UInt8) (d : Daemon) : Prop where
  nonzero : ∀ rip report, Report.cmd rip report ∈ d.cmdHist → ∀ a ∈ report.addresses, a ≠ 0
  absent : ∀ rip, d.dirs rip = none → ∀ report, Report.cmd rip report ∉ d.cmdHist
  init : ∀ rip dir, d.dirs rip = some dir → Report.init.cmd rip ∈ d.cmdHist
  tables : ∀ rip dir, d.dirs rip = some dir →
    ∃ pairs callees, dir.Holds pairs callees ∧ Tabled d.cmdHist rip pairs callees
  jit : ∀ rip dir, d.dirs rip = some dir → ∃ file, dir.jitBin = some (assemble file) ∧
    ∀ report, Report.cmd rip report ∈ d.cmdHist → Repairs file report

theorem Answered.start : Answered assemble ⟨[], fun _ => none⟩ where
  nonzero rip report h := by cases h
  absent rip _ report h := by cases h
  init rip dir h := by cases h
  tables rip dir h := by cases h
  jit rip dir h := by cases h

/-- A round of `check` that is not the answer to a report. -/
def History.Quiet (h h' : History) : Prop :=
  h'.daemon = h.daemon ∧ ∀ cmd known, .asked cmd known ∈ h'.log → .asked cmd known ∈ h.log

theorem History.warn_quiet (rip : BitVec 64) (h : History) : h.Quiet (h.warn rip) := by
  unfold History.warn
  split_ifs
  · exact ⟨rfl, fun _ _ => id⟩
  · exact ⟨rfl, fun cmd known hmem => by simpa using hmem⟩
  · exact ⟨rfl, fun _ _ => id⟩

theorem checkRecord_cases (hstep : checkRecord template r h = some h') :
    h.Quiet h' ∨ ∃ report acts, r.exe.report = some report ∧
      h'.daemon = (h.daemon.prepare template r.outcome r.exe report).2 ∧
      h'.log = h.log ++ .asked (report.cmd r.exe.rip)
        (h.daemon.cmdHist.contains (report.cmd r.exe.rip)) :: List.map Mark.act acts := by
  unfold checkRecord at hstep
  split_ifs at hstep with hlife hrip
  · cases hstep
    exact Or.inl (h.warn_quiet _)
  · cases hreport : r.exe.report with
    | none =>
        rw [hreport] at hstep
        cases hstep
        exact Or.inl ⟨rfl, fun _ _ => id⟩
    | some report =>
        rw [hreport] at hstep
        cases hstep
        rw [History.answer]
        by_cases hfull : h.daemon.cmdHist.contains (report.cmd r.exe.rip) = false ∧
            cmdHistLen ≤ h.daemon.cmdHist.length
        · rw [if_pos hfull]
          exact Or.inl ⟨rfl, fun _ _ => id⟩
        · rw [if_neg hfull]
          exact Or.inr ⟨report, _, rfl, rfl, rfl⟩

/-- A call site that reports is in the white-list, and so is not 0. -/
theorem ExeInfo.rip_ne_zero {exe : ExeInfo} (hreport : exe.report = some report) : exe.rip ≠ 0 := by
  intro hzero
  have hlisted : exe.rip ∈ targets := by
    by_contra hnot
    rw [ExeInfo.report, if_pos hnot] at hreport
    cases hreport
  rw [hzero] at hlisted
  exact absurd hlisted (by decide)

/-- The shell can read the command. -/
theorem Job.Succeeds.parses (hjob : job.Succeeds template h report)
    (hreport : job.exe.report = some report) :
    (report.unquoted job.exe.rip).any (· = 0) = false := by
  have hrip := ExeInfo.rip_ne_zero hreport
  have hnonzero := hjob.nonzero
  cases report with
  | init => simpa [Report.unquoted] using hrip
  | callMiss tgt =>
      have htgt := hnonzero tgt (by simp [Report.addresses])
      simpa [Report.unquoted] using ⟨htgt, hrip⟩
  | ijMiss jumpFrom tgt => simpa [Report.unquoted] using hrip

/-- The tables as a new command leaves them. -/
theorem Answered.system {d : Daemon} (hs : Answered assemble d) (htemplate : template.Holds [] [])
    (hnew : report.cmd rip ∉ d.cmdHist) (hparses : (report.unquoted rip).any (· = 0) = false)
    (hecho : report = .init ∨ ∃ dir, d.dirs rip = some dir) :
    ∃ dir pairs callees, report.system template rip d.dirs rip = some dir ∧
      dir.Holds pairs callees ∧ Tabled (d.cmdHist ++ [report.cmd rip]) rip pairs callees := by
  by_cases hinit : report = .init
  · subst hinit
    have hnone : d.dirs rip = none := by
      cases hdir : d.dirs rip with
      | none => rfl
      | some dir => exact absurd (hs.init rip dir hdir) hnew
    have hempty : Tabled d.cmdHist rip [] [] :=
      ⟨fun _ _ => iff_of_false List.not_mem_nil (hs.absent rip hnone _),
        fun _ => iff_of_false List.not_mem_nil (hs.absent rip hnone _)⟩
    refine ⟨template, [], [], ?_, htemplate, hempty.push .init⟩
    rw [Report.system, hparses, if_neg Bool.false_ne_true]
    exact Function.update_self ..
  · obtain ⟨dir, hdir⟩ := hecho.resolve_left hinit
    obtain ⟨pairs, callees, hholds, htabled⟩ := hs.tables rip dir hdir
    obtain ⟨dir', hsystem, hholds'⟩ := Report.system_holds hinit hparses hdir hholds
    exact ⟨dir', _, _, hsystem, hholds', htabled.push report⟩

/-- The outcome of the compilation for a new report. -/
theorem Job.Succeeds.outcome (hjob : job.Succeeds template h report)
    (hs : Answered assemble h.daemon) (hreport : job.exe.report = some report) {dir : Dir}
    {pairs : List (BitVec 64 × BitVec 64)} {callees : List (BitVec 64)}
    (hsystem : report.system template job.exe.rip h.daemon.dirs job.exe.rip = some dir)
    (hholds : dir.Holds pairs callees)
    (htabled : Tabled (h.daemon.cmdHist ++ [report.cmd job.exe.rip]) job.exe.rip pairs callees) :
    ∃ file, (job.record assemble template h).outcome = .built (assemble file) ∧
      ∀ other : Report, other.cmd job.exe.rip ∈ h.daemon.cmdHist ++ [report.cmd job.exe.rip] →
        Repairs file other := by
  obtain ⟨maps, hmaps, hrip, hinside⟩ := hjob.inside
  have hgood : ∀ other : Report,
      other.cmd job.exe.rip ∈ h.daemon.cmdHist ++ [report.cmd job.exe.rip] →
        ∀ a ∈ other.addresses, a ≠ 0 ∧ InMaps maps a.toNat := by
    intro other hother a ha
    rcases Report.cmd_mem_push.mp hother with hold | ⟨-, rfl⟩
    · exact ⟨hs.nonzero _ _ hold a ha, hinside _ (Or.inr hold) a ha⟩
    · exact ⟨hjob.nonzero a ha, hinside _ (Or.inl rfl) a ha⟩
  have hpairs : ∀ p ∈ pairs, ∀ a ∈ [p.1, p.2], a ≠ 0 ∧ InMaps maps a.toNat := fun p hp =>
    hgood (.ijMiss p.1 p.2) ((htabled.pairs _ _).mp hp)
  have hcallees : ∀ a ∈ callees, a ≠ 0 ∧ InMaps maps a.toNat := fun a ha =>
    hgood (.callMiss a) ((htabled.callees a).mp ha) a List.mem_cons_self
  obtain ⟨file, houtcome, hij, hcallee⟩ := outcome_repairs assemble
    (ExeInfo.rip_ne_zero hreport) hholds
    (fun p hp => ⟨(hpairs p hp _ (by simp)).1, (hpairs p hp _ (by simp)).1⟩)
    (fun a ha => (hcallees a ha).1) hmaps hrip (fun p hp => (hpairs p hp _ (by simp)).2)
    (fun a ha => (hcallees a ha).2) (hjob.finishes dir · · hsystem)
  refine ⟨file, ?_, fun other hother => ?_⟩
  · simp only [Job.record, hreport, Option.bind_some, hsystem, houtcome]
  · cases other with
    | init => trivial
    | callMiss tgt => exact hcallee tgt ((htabled.callees tgt).mpr hother)
    | ijMiss jumpFrom tgt => exact hij (jumpFrom, tgt) ((htabled.pairs jumpFrom tgt).mpr hother)

/-- From the other call sites, for which nothing changes, and the one that has a new report. -/
theorem Answered.new {d d' : Daemon} (hs : Answered assemble d) (rip : BitVec 64) (report : Report)
    {dir : Dir} {pairs : List (BitVec 64 × BitVec 64)} {callees : List (BitVec 64)}
    {file : List (Item Label Asm)} (hhist : d'.cmdHist = d.cmdHist ++ [report.cmd rip])
    (hother : ∀ rip', rip' ≠ rip → d'.dirs rip' = d.dirs rip') (hdir : d'.dirs rip = some dir)
    (hnonzero : ∀ a ∈ report.addresses, a ≠ 0)
    (hinit : report = .init ∨ Report.init.cmd rip ∈ d.cmdHist)
    (hholds : dir.Holds pairs callees) (htabled : Tabled d'.cmdHist rip pairs callees)
    (hjit : dir.jitBin = some (assemble file))
    (hrepairs : ∀ other, Report.cmd rip other ∈ d'.cmdHist → Repairs file other) :
    Answered assemble d' := by
  have hold : ∀ rip' other, rip' ≠ rip →
      (Report.cmd rip' other ∈ d'.cmdHist ↔ Report.cmd rip' other ∈ d.cmdHist) := by
    intro rip' other hne
    rw [hhist, Report.cmd_mem_push, or_iff_left fun heq => hne heq.1]
  have hsame : ∀ dir', d'.dirs rip = some dir' → dir' = dir := by
    intro dir' hdir'
    rw [hdir] at hdir'
    exact (Option.some.inj hdir').symm
  refine ⟨fun rip' other hmem => ?_, fun rip' hnone other => ?_, fun rip' dir' hdir' => ?_,
    fun rip' dir' hdir' => ?_, fun rip' dir' hdir' => ?_⟩
  · rw [hhist] at hmem
    rcases Report.cmd_mem_push.mp hmem with hmem | ⟨-, rfl⟩
    · exact hs.nonzero rip' other hmem
    · exact hnonzero
  · have hne : rip' ≠ rip := by
      rintro rfl
      rw [hdir] at hnone
      cases hnone
    rw [hold rip' other hne]
    rw [hother rip' hne] at hnone
    exact hs.absent rip' hnone other
  all_goals by_cases hne : rip' = rip
  · subst hne
    rw [hhist, Report.cmd_mem_push, and_iff_right rfl]
    exact hinit.symm.imp_right Eq.symm
  · rw [hold rip' _ hne]
    rw [hother rip' hne] at hdir'
    exact hs.init rip' dir' hdir'
  · subst hne
    rw [hsame dir' hdir']
    exact ⟨pairs, callees, hholds, htabled⟩
  · rw [hother rip' hne] at hdir'
    obtain ⟨pairs', callees', hholds', htabled'⟩ := hs.tables rip' dir' hdir'
    rw [hhist]
    exact ⟨pairs', callees', hholds', htabled'.other hne report⟩
  · subst hne
    rw [hsame dir' hdir']
    exact ⟨file, hjit, hrepairs⟩
  · rw [hother rip' hne] at hdir'
    obtain ⟨file', hjit', hrepairs'⟩ := hs.jit rip' dir' hdir'
    exact ⟨file', hjit', fun other hmem => hrepairs' other ((hold rip' other hne).mp hmem)⟩

/-- A step: the answer to a report. -/
theorem Answered.prepare (hs : Answered assemble h.daemon) (htemplate : template.Holds [] [])
    (hreport : job.exe.report = some report)
    (hjob : report.cmd job.exe.rip ∉ h.daemon.cmdHist → job.Succeeds template h report) :
    Answered assemble
      (h.daemon.prepare template (job.record assemble template h).outcome job.exe report).2 := by
  by_cases hknown : report.cmd job.exe.rip ∈ h.daemon.cmdHist
  · simpa only [Daemon.prepare, if_pos hknown] using hs
  · have hdone := hjob hknown
    obtain ⟨dir, pairs, callees, hsystem, hholds, htabled⟩ :=
      hs.system htemplate hknown (hdone.parses hreport) hdone.echo
    obtain ⟨file, houtcome, hrepairs⟩ := hdone.outcome hs hreport hsystem hholds htabled
    have hcompile : (compile job.exe.rip (.built (assemble file))
        (report.system template job.exe.rip h.daemon.dirs)).2 job.exe.rip =
          some { dir with jitBin := some (assemble file) } := by
      simp only [compile, hsystem, Function.update_self, Outcome.apply]
    rw [houtcome]
    simp only [Daemon.prepare, if_neg hknown]
    refine hs.new job.exe.rip report rfl
      (fun rip' hne => compile_system_other hne report h.daemon.dirs) hcompile hdone.nonzero ?_
      ⟨hholds.ijTable, hholds.calleeTable⟩ htabled rfl hrepairs
    refine hdone.echo.imp_right ?_
    rintro ⟨old, hold⟩
    exact hs.init _ old hold

theorem mem_cmdHist_prepare {d : Daemon} {outcome : Outcome} {exe : ExeInfo} {cmd : List Char} :
    cmd ∈ (d.prepare template outcome exe report).2.cmdHist ↔
      cmd ∈ d.cmdHist ∨ cmd = report.cmd exe.rip := by
  by_cases hknown : report.cmd exe.rip ∈ d.cmdHist
  · simp only [Daemon.prepare, if_pos hknown]
    refine ⟨Or.inl, ?_⟩
    rintro (hmem | rfl)
    · exact hmem
    · exact hknown
  · simp only [Daemon.prepare, if_neg hknown, List.mem_append, List.mem_singleton]

theorem Works.asked (hworks : Works assemble template h) {cmd : List Char} {known : Bool}
    (hasked : .asked cmd known ∈ h.log) : cmd ∈ h.daemon.cmdHist := by
  induction hworks with
  | start => cases hasked
  | step before succeeds step ih =>
      rcases checkRecord_cases step with ⟨hdaemon, hlog⟩ | ⟨report, acts, hreport, hdaemon, hlog⟩
      · rw [hdaemon]
        exact ih (hlog cmd known hasked)
      · rw [hdaemon, mem_cmdHist_prepare]
        rw [hlog, List.mem_append, List.mem_cons, Mark.asked.injEq] at hasked
        rcases hasked with hold | ⟨hcmd, -⟩ | hact
        · exact Or.inl (ih hold)
        · exact Or.inr hcmd
        · simp at hact

end Run

section Example

instance (tools : Tools) (entry : Nat) (seed : List (Nat × List Nat)) (chunks : List MemChunk) :
    Decidable (tools.Finishes entry seed chunks) :=
  decidable_of_iff
    ((∀ chunk ∈ chunks, ∀ t ∈ disOrder chunk,
      t ∈ Dict.keys (tools.dis chunk.bytes chunk.start (disOrder chunk))) ∧
      (∀ e ∈ allEnds (tools.blockDict chunks), e.1 < 2 ^ 64) ∧
      (emitFile tools.world entry (tools.blockDict chunks) seed).isSome)
    ⟨fun h => ⟨h.1, h.2.1, Option.isSome_iff_exists.mp h.2.2⟩,
      fun h => ⟨h.decodes, h.range, Option.isSome_iff_exists.mpr h.emits⟩⟩

/-- Every target is a block that returns. -/
def returning : Tools where
  world := .standard
  orders := ⟨.dedup, .dedup⟩
  proc := ⟨"7ffff7fa1000-7ffff7fa2000 r-xp 0 08:01 1 /usr/bin/server\n".toList, fun _ => 0xc3⟩
  dis _ _ targets := targets.map fun t => (t, ⟨[{ name := "RET", args := [], l := 1 }], []⟩)

/-- A slot of the call site, with the report. -/
def reporting (report : Report) : Job where
  exe :=
    match report with
    | .init => ⟨.unInit, 7, 0x7ffff7fa1abb, 0, fun _ => 0, 0, 0, 0, 0⟩
    | .callMiss tgt => ⟨.callMiss, 7, 0x7ffff7fa1abb, 0, fun _ => 0, 0, tgt, 0, 0⟩
    | .ijMiss jumpFrom tgt => ⟨.ijMiss, 7, 0x7ffff7fa1abb, 0, fun _ => 0, jumpFrom, tgt, 0, 0⟩
  tools := returning

theorem reporting_report (report : Report) :
    (reporting report).exe.rip = 0x7ffff7fa1abb ∧ (reporting report).exe.report = some report := by
  cases report <;> exact ⟨rfl, rfl⟩

def emptyTables : Dir := ⟨[], [], none⟩

/-- `Job.Succeeds` in a form that can be evaluated. -/
def SlotReady (before : List Report) (report : Report) (h : History) : Prop :=
  h.daemon.cmdHist = before.map (Report.cmd 0x7ffff7fa1abb) ∧
    (report = .init ∨ (h.daemon.dirs 0x7ffff7fa1abb).isSome) ∧
    (∀ other ∈ report :: before, other.addresses.all fun a =>
      0x7ffff7fa1000 ≤ a.toNat ∧ a.toNat < 0x7ffff7fa2000) ∧
    ∀ dir ∈ report.system emptyTables 0x7ffff7fa1abb h.daemon.dirs 0x7ffff7fa1abb,
      ∀ r ∈ read returning.orders returning.proc 0x7ffff7fa1abb dir [],
        returning.Finishes 0x7ffff7fa1abb r.1 r.2

instance (before : List Report) (report : Report) (h : History) :
    Decidable (SlotReady before report h) :=
  inferInstanceAs (Decidable (_ ∧ _ ∧ _ ∧ _))

theorem SlotReady.succeeds {before : List Report} {report : Report} {h : History}
    (hready : SlotReady before report h) : (reporting report).Succeeds emptyTables h report := by
  obtain ⟨hhist, hecho, hall, hfinish⟩ := hready
  have hrange : ∀ other ∈ report :: before, ∀ a ∈ other.addresses,
      0x7ffff7fa1000 ≤ a.toNat ∧ a.toNat < 0x7ffff7fa2000 := fun other hother a ha =>
    of_decide_eq_true (List.all_eq_true.mp (hall other hother) a ha)
  obtain ⟨hrip, -⟩ := reporting_report report
  have hmaps : getmap returning.proc.maps = some [(0x7ffff7fa1000, 0x7ffff7fa2000)] := by
    decide +kernel
  refine ⟨?_, fun a ha hzero => ?_, ⟨_, hmaps, ?_, fun other hother a ha => ?_⟩,
    fun dir seed chunks hdir hread => ?_⟩
  · rw [hrip]
    exact hecho.imp_right Option.isSome_iff_exists.mp
  · have hlow := (hrange report List.mem_cons_self a ha).1
    rw [hzero] at hlow
    exact absurd hlow (by decide)
  · rw [hrip]
    exact ⟨_, List.mem_cons_self, by decide⟩
  · have hmem : other ∈ report :: before := by
      refine List.mem_cons.mpr (hother.imp_right fun hold => ?_)
      rw [hrip, hhist] at hold
      obtain ⟨same, hsame, hcmd⟩ := List.mem_map.mp hold
      rw [← (Report.cmd_injective hcmd).2]
      exact hsame
    exact ⟨_, List.mem_cons_self, hrange other hmem a ha⟩
  · rw [hrip] at hdir hread ⊢
    exact hfinish dir hdir (seed, chunks) hread

end Example

end UserspaceBypass
