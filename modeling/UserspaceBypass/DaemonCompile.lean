import UserspaceBypass.DaemonSys
import UserspaceBypass.LibText

/-! The daemon between a snapshot and `write_sys` (`main.c`): the shell command for a report, the
history of commands, and the directory in which `disassem.py` and the assembler leave `jit.bin`.
There is one directory for each call site, whatever the process. Nothing looks at the exit status of
a command. -/

namespace UserspaceBypass

open Text

/-- `%p` -/
def pointerText (a : BitVec 64) : List Char := if a = 0 then "(nil)".toList else hexText a.toNat

theorem pointerText_injective : Function.Injective pointerText := by
  intro a b h
  have hnil : ∀ n, "(nil)".toList ≠ hexText n := by
    intro n hn
    exact absurd (List.cons.inj hn).1 (by decide)
  unfold pointerText at h
  split_ifs at h with ha hb
  · rw [ha, hb]
  · exact absurd h (hnil _)
  · exact absurd h.symm (hnil _)
  · exact BitVec.eq_of_toNat_eq (hexText_injective h)

/-- A character that is no part of a pointer. -/
def Separator (c : Char) : Prop := c.isAlphanum = false ∧ c ∉ "(nil)".toList

instance (c : Char) : Decidable (Separator c) := inferInstanceAs (Decidable (_ ∧ _))

theorem Separator.not_mem {c : Char} (hc : Separator c) (a : BitVec 64) : c ∉ pointerText a := by
  intro h
  unfold pointerText at h
  split_ifs at h
  · exact hc.2 h
  · have halpha := isAlphanum_of_mem_hexText h
    rw [hc.1] at halpha
    cases halpha

def initCmd (rip : BitVec 64) : List Char :=
  "mkdir -p ./".toList ++ pointerText rip ++ " && cp -rf ./asm/ ./".toList ++ pointerText rip ++
    "/".toList

def calleeCmd (rip tgt : BitVec 64) : List Char :=
  "echo ".toList ++ pointerText tgt ++ " >> ./".toList ++ pointerText rip ++
    "/asm/callee_table.txt".toList

def ijCmd (rip jumpFrom tgt : BitVec 64) : List Char :=
  "echo '".toList ++ pointerText jumpFrom ++ " ".toList ++ pointerText tgt ++ "' >> ./".toList ++
    pointerText rip ++ "/asm/ij_table.txt".toList

/-- The command for a report of the given call site. -/
def Report.cmd (rip : BitVec 64) : Report → List Char
  | .init => initCmd rip
  | .callMiss tgt => calleeCmd rip tgt
  | .ijMiss jumpFrom tgt => ijCmd rip jumpFrom tgt

/-- Pointers in front of the same text, which starts with a separator. -/
theorem pointerText_append_inj {text : List Char} (htext : text.head?.any (decide <| Separator ·))
    {a b : BitVec 64} {rest rest' : List Char}
    (h : pointerText a ++ (text ++ rest) = pointerText b ++ (text ++ rest')) :
    a = b ∧ rest = rest' := by
  cases text with
  | nil => cases htext
  | cons c text =>
      have hc : Separator c := of_decide_eq_true htext
      obtain ⟨hpointer, hrest⟩ := append_cons_inj (hc.not_mem a) (hc.not_mem b) h
      exact ⟨pointerText_injective hpointer, List.append_cancel_left hrest⟩

theorem pointerText_append_ne {text : List Char} (htext : text.head?.any (decide <| Separator ·))
    (a : BitVec 64) (rest rest' : List Char) : pointerText a ++ rest ≠ text ++ rest' := by
  intro h
  cases text with
  | nil => cases htext
  | cons c text =>
      have hc : Separator c := of_decide_eq_true htext
      cases hpointer : pointerText a with
      | nil =>
          unfold pointerText hexText at hpointer
          split_ifs at hpointer
          exact absurd hpointer (by decide)
      | cons d ds =>
          rw [hpointer] at h
          refine hc.not_mem a ?_
          rw [hpointer, ← (List.cons.inj h).1]
          exact List.mem_cons_self

theorem initCmd_head (rip : BitVec 64) : (initCmd rip).head? = some 'm' := by
  unfold initCmd
  simp

theorem calleeCmd_head (rip tgt : BitVec 64) : (calleeCmd rip tgt).head? = some 'e' := by
  unfold calleeCmd
  simp

theorem ijCmd_head (rip jumpFrom tgt : BitVec 64) : (ijCmd rip jumpFrom tgt).head? = some 'e' := by
  unfold ijCmd
  simp

theorem calleeCmd_ne_ijCmd (rip rip' tgt jumpFrom tgt' : BitVec 64) :
    calleeCmd rip tgt ≠ ijCmd rip' jumpFrom tgt' := by
  intro h
  have hquote : "echo '".toList = "echo ".toList ++ "'".toList := by decide
  unfold calleeCmd ijCmd at h
  simp only [hquote, List.append_assoc] at h
  exact pointerText_append_ne (by decide) _ _ _ (List.append_cancel_left h)

/-- The text of a command says what it is for. -/
theorem Report.cmd_injective {rip rip' : BitVec 64} {report report' : Report}
    (h : report.cmd rip = report'.cmd rip') : rip = rip' ∧ report = report' := by
  have hhead := congrArg List.head? h
  cases report with
  | init =>
      cases report' with
      | init =>
          unfold Report.cmd initCmd at h
          simp only [List.append_assoc] at h
          exact ⟨(pointerText_append_inj (by decide) (List.append_cancel_left h)).1, rfl⟩
      | callMiss tgt => simp [Report.cmd, initCmd_head, calleeCmd_head] at hhead
      | ijMiss jumpFrom tgt => simp [Report.cmd, initCmd_head, ijCmd_head] at hhead
  | callMiss tgt =>
      cases report' with
      | init => simp [Report.cmd, initCmd_head, calleeCmd_head] at hhead
      | callMiss tgt' =>
          unfold Report.cmd calleeCmd at h
          simp only [List.append_assoc] at h
          obtain ⟨htgt, hrest⟩ := pointerText_append_inj (by decide) (List.append_cancel_left h)
          exact ⟨pointerText_injective (List.append_cancel_right hrest), by rw [htgt]⟩
      | ijMiss jumpFrom tgt' => exact absurd h (calleeCmd_ne_ijCmd _ _ _ _ _)
  | ijMiss jumpFrom tgt =>
      cases report' with
      | init => simp [Report.cmd, initCmd_head, ijCmd_head] at hhead
      | callMiss tgt' => exact absurd h.symm (calleeCmd_ne_ijCmd _ _ _ _ _)
      | ijMiss jumpFrom' tgt' =>
          unfold Report.cmd ijCmd at h
          simp only [List.append_assoc] at h
          obtain ⟨hfrom, hrest⟩ := pointerText_append_inj (by decide) (List.append_cancel_left h)
          obtain ⟨htgt, hrest'⟩ := pointerText_append_inj (by decide) hrest
          exact ⟨pointerText_injective (List.append_cancel_right hrest'), by rw [hfrom, htgt]⟩

/-- What the daemon and the disassembler use of a directory `./<rip>/asm`. -/
structure Dir where
  calleeTable : List Char
  ijTable : List Char
  jitBin : Option (List UInt8)

/-- How a run of `disassem.py` ends. Up to the assembler nothing touches `jit.bin`; a failing
`objcopy` leaves what it likes. -/
inductive Outcome where
  | failed
  | objcopyFailed (left : Option (List UInt8))
  | built (jitBin : List UInt8)

/-- `cmd_hist` and the directories next to the daemon. -/
structure Daemon where
  cmdHist : List (List Char)
  dirs : BitVec 64 → Option Dir

/-- The line `echo` appends. -/
def echoLine (text : List Char) : List Char := text ++ "\n".toList

/-- The pointers of a command that stand outside quotes. -/
def Report.unquoted (rip : BitVec 64) : Report → List (BitVec 64)
  | .init => [rip]
  | .callMiss tgt => [tgt, rip]
  | .ijMiss _ _ => [rip]

/-- The shell command. To the shell an unquoted `(nil)` is a syntax error, and nothing of the command
is executed; `echo` needs the directory. -/
def Report.system (template : Dir) (rip : BitVec 64) (report : Report)
    (dirs : BitVec 64 → Option Dir) : BitVec 64 → Option Dir :=
  if (report.unquoted rip).any (· = 0) then dirs
  else
    match report with
    | .init => Function.update dirs rip (some template)
    | .callMiss tgt =>
        Function.update dirs rip ((dirs rip).map fun dir =>
          { dir with calleeTable := dir.calleeTable ++ echoLine (pointerText tgt) })
    | .ijMiss jumpFrom tgt =>
        Function.update dirs rip ((dirs rip).map fun dir =>
          { dir with
            ijTable := dir.ijTable ++
              echoLine (pointerText jumpFrom ++ " ".toList ++ pointerText tgt) })

/-- What a run of `disassem.py` does to the directory. -/
def Outcome.apply (outcome : Outcome) (dir : Dir) : Dir :=
  match outcome with
  | .failed => dir
  | .objcopyFailed left => { dir with jitBin := left }
  | .built jitBin => { dir with jitBin := some jitBin }

/-- `compile`: without the directory, `cd` fails and nothing is run. -/
def compile (rip : BitVec 64) (outcome : Outcome) (dirs : BitVec 64 → Option Dir) :
    Outcome × (BitVec 64 → Option Dir) :=
  match dirs rip with
  | none => (.failed, dirs)
  | some dir => (outcome, Function.update dirs rip (some (outcome.apply dir)))

/-- What the daemon does, in the order in which it does it. -/
inductive Act where
  | system (rip : BitVec 64) (report : Report)
  | compile (pid : BitVec 32) (rip : BitVec 64) (outcome : Outcome)
  | saved (rip : BitVec 64) (report : Report)
  | writeSys (pid : BitVec 32) (rip : BitVec 64) (jitBin : List UInt8)

/-- `check`, from the command to `write_sys`. -/
def Daemon.prepare (template : Dir) (outcome : Outcome) (exe : ExeInfo) (report : Report)
    (d : Daemon) : List Act × Daemon :=
  let cmd := report.cmd exe.rip
  if cmd ∈ d.cmdHist then ([.saved exe.rip report], d)
  else
    let r := compile exe.rip outcome (report.system template exe.rip d.dirs)
    ([.system exe.rip report, .compile exe.pid exe.rip r.1], ⟨d.cmdHist ++ [cmd], r.2⟩)

/-- `check` for one slot: the `jit.bin` that `write_sys` reads, without which it does not get any
further, what has been done, and the daemon afterwards. -/
def Daemon.check (template : Dir) (outcome : Outcome) (exe : ExeInfo) (d : Daemon) :
    Option (List UInt8 × List Act × Daemon) :=
  match exe.report with
  | none => some ([], [], d)
  | some report =>
      let r := d.prepare template outcome exe report
      ((r.2.dirs exe.rip).bind Dir.jitBin).map fun jitBin =>
        (jitBin, r.1 ++ [.writeSys exe.pid exe.rip jitBin], r.2)

end UserspaceBypass
