import UserspaceBypass.KernelExe

/-! The daemon's side of the sysfs file (`main.c`): which slots of a snapshot it acts on, and the
packets `write_sys` cuts a `jit.bin` into. -/

namespace UserspaceBypass

/-- The white-list of call sites. -/
def targets : List (BitVec 64) :=
  [0x7ffff7fa1abb, 0x7ffff7de6487, 0x7ffff7df274e, 0x7ffff7de4fae, 0x7ffff7fa1437, 0x007ffff7fa76ca,
    0x07ffff7ed116a, 0x007ffff7e5232f]

/-- What a slot of a snapshot asks for. -/
inductive Report where
  | init
  | callMiss (tgt : BitVec 64)
  | ijMiss (jumpFrom tgt : BitVec 64)
  deriving DecidableEq, Repr

/-- The tests of `check`, up to the command; `none` goes on with the next slot. -/
def ExeInfo.report (exe : ExeInfo) : Option Report :=
  if exe.rip ∉ targets then none
  else
    match exe.statusCode with
    | .normal => none
    | .unInit => some .init
    | .callMiss => some (.callMiss exe.tgtAddr)
    | .ijMiss => some (.ijMiss exe.jumpFrom exe.tgtAddr)
    | _ => none

/-- What one read of the sysfs file returns of a snapshot: 4096 bytes, with 56 bytes for a slot. -/
def readSys (k : Kernel) : List ExeInfo := (sysfsShow k).take (4096 / 56)

theorem mem_readSys {k : Kernel} {x : ExeInfo} (h : x ∈ readSys k) :
    ∃ i, k.exes i = x ∧ x.statusCode ≠ .unUsed := by
  rw [readSys] at h
  exact mem_sysfsShow.mp (List.mem_of_mem_take h)

def maxPay : Nat := 4000

/-- The size of `i_buf`. -/
def bufLen : Nat := 4096 * 256

/-- The loop of `write_sys` with something left to send: `rest_len` is what is behind `offset`. -/
structure Transfer where
  pid : BitVec 32
  rip : BitVec 64
  buf : List UInt8
  offset : Nat
  rest : offset < buf.length

namespace Transfer

def restLen (tr : Transfer) : Nat := tr.buf.length - tr.offset

/-- `write_sys` up to the loop; an empty file leaves nothing to send. -/
def start (pid : BitVec 32) (rip : BitVec 64) (jitBin : List UInt8) : Option Transfer :=
  let buf := jitBin.take bufLen
  if h : 0 < buf.length then some ⟨pid, rip, buf, 0, h⟩ else none

/-- The status is that of a finished transfer exactly in the last packet. -/
def head (tr : Transfer) : RecvPkt where
  statusCode := if tr.restLen ≤ maxPay then .normal else .unInit
  pid := tr.pid
  rip := tr.rip
  offset := tr.offset

def toCopyLen (tr : Transfer) : Nat := if tr.restLen ≤ maxPay then tr.restLen else maxPay

def payload (tr : Transfer) : List UInt8 := (tr.buf.drop tr.offset).take tr.toCopyLen

def next (tr : Transfer) : Option Transfer :=
  if h : tr.offset + tr.toCopyLen < tr.buf.length then
    some { tr with offset := tr.offset + tr.toCopyLen, rest := h }
  else none

/-- The slot the packets go to. -/
def slot (tr : Transfer) : Fin maxExe := getExe tr.pid tr.rip

theorem start_some {pid : BitVec 32} {rip : BitVec 64} {jitBin : List UInt8} {tr : Transfer}
    (h : start pid rip jitBin = some tr) :
    tr.pid = pid ∧ tr.rip = rip ∧ tr.buf = jitBin.take bufLen ∧ tr.offset = 0 := by
  unfold start at h
  dsimp only at h
  split_ifs at h
  cases h
  exact ⟨rfl, rfl, rfl, rfl⟩

/-- The last packet is the one that sets the status to normal. -/
theorem next_none_iff (tr : Transfer) : tr.next = none ↔ tr.head.statusCode = .normal := by
  have hrest := tr.rest
  unfold next head toCopyLen restLen maxPay
  split_ifs <;> simp <;> omega

theorem next_some {tr tr' : Transfer} (h : tr.next = some tr') :
    tr'.pid = tr.pid ∧ tr'.rip = tr.rip ∧ tr'.buf = tr.buf ∧
      tr'.offset = tr.offset + tr.toCopyLen ∧ tr.head.statusCode = .unInit := by
  have hlast : tr.head.statusCode ≠ .normal := by
    rw [ne_eq, ← next_none_iff, h]
    simp
  have hstatus : tr.head.statusCode = .unInit := by
    unfold head at hlast ⊢
    dsimp only at hlast ⊢
    split_ifs at hlast ⊢
    · exact absurd rfl hlast
    · rfl
  unfold next at h
  split_ifs at h
  cases h
  exact ⟨rfl, rfl, rfl, rfl, hstatus⟩

/-- The last packet fills the block up to the length of the file. -/
theorem length_le_of_next_none {tr : Transfer} (h : tr.next = none) :
    tr.buf.length ≤ tr.offset + tr.toCopyLen := by
  unfold next at h
  split_ifs at h with hlt
  exact Nat.not_lt.mp hlt

end Transfer

end UserspaceBypass
