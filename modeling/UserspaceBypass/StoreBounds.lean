import UserspaceBypass.DaemonSys
import UserspaceBypass.LibStraightLine
import Mathlib.Data.BitVec

/-! The copy of `sysfs_store`. Nothing of a packet is checked but that the slot it hashes to carries
its pid and RIP: its length is an `int` that a short write makes negative, its offset is any 64-bit
number, and a slot that `exe_add` never took carries whatever `vmalloc` found there, its
`code_block` included. -/

namespace UserspaceBypass

open StraightLine

/-- `struct recv_pkt`, as any writer of the file may fill it. -/
structure WireHead where
  statusCode : BitVec 32
  pid : BitVec 32
  rip : BitVec 64
  offset : BitVec 64

/-- A write to the file: at most a page. With less than a header, `head` is what was in the buffer
before. -/
structure Packet where
  head : WireHead
  count : Nat
  count_le : count ≤ 4096
  payload : List UInt8
  payload_length : payload.length = count - 24

/-- An unknown status is neither used up by the daemon nor entered by `exe_on_call`, as
`error_inst`. -/
def StatusCode.ofInt (code : BitVec 32) : StatusCode :=
  if code = -2 then .unUsed
  else if code = -1 then .unInit
  else if code = 0 then .normal
  else if code = 1 then .callMiss
  else if code = 2 then .ijMiss
  else .errorInst

/-- The bytes of a `code_block`. -/
def blockSize : Nat := 4096 * numPg

namespace Packet

def pkt (p : Packet) : RecvPkt :=
  ⟨.ofInt p.head.statusCode, p.head.pid, p.head.rip, p.head.offset.toNat⟩

def slot (p : Packet) : Fin maxExe := getExe p.head.pid p.head.rip

/-- `int len = count - sizeof(struct recv_pkt)` -/
def len (p : Packet) : BitVec 32 := (BitVec.ofNat 64 p.count - 24#64).setWidth 32

/-- The address is one of those `memcpy(code_block + offset, payload, len)` writes; its third
parameter is a `size_t`. -/
def Writes (p : Packet) (codeBlock addr : BitVec 64) : Prop :=
  (addr - (codeBlock + p.head.offset)).toNat < (p.len.signExtend 64).toNat

/-- The packet ends in a block. -/
def Fits (p : Packet) : Prop := p.head.offset.toNat + (p.count - 24) ≤ blockSize

instance (p : Packet) : Decidable p.Fits := inferInstanceAs (Decidable (_ ≤ _))

end Packet

/-- The table, and what `exe_add` has allocated: for which pid and RIP, and where. -/
structure Table where
  kernel : Kernel
  blocks : List (BitVec 32 × BitVec 64 × BitVec 64)

/-- `exe_add` takes the slot. -/
def Kernel.Takes (k : Kernel) (pid : BitVec 32) (rip : BitVec 64) : Prop :=
  (k.exes (getExe pid rip)).statusCode = .unUsed ∧ k.added ≤ 62

instance (k : Kernel) (pid : BitVec 32) (rip : BitVec 64) : Decidable (k.Takes pid rip) :=
  inferInstanceAs (Decidable (_ ∧ _))

inductive TableEvent where
  | add (pid : BitVec 32) (rip : BitVec 64) (mem : Vmalloc)
  | leave (i : Fin maxExe) (regs : PtRegs) (args0 : BitVec 64)
  | store (p : Packet)

/-- What the module does to the table. A copy that leaves its block may hit the table itself; here it
does not, so that no table is left out that can be reached without. -/
def tableStep : TableEvent → Table → Option Table
  | .add pid rip mem, t =>
      some ⟨exeAdd pid rip mem t.kernel,
        if t.kernel.Takes pid rip then (pid, rip, mem.start) :: t.blocks else t.blocks⟩
  | .leave i regs args0, t =>
      some { t with kernel := t.kernel.update i ((t.kernel.exes i).afterCall regs args0) }
  | .store p, t => some { t with kernel := sysfsStore p.pkt p.payload t.kernel }

namespace Table

/-- The table as `exe_init` leaves it: only the status codes are known. -/
structure Fresh (t : Table) : Prop where
  unused : ∀ i, (t.kernel.exes i).statusCode = .unUsed
  added : t.kernel.added = 0
  blocks : t.blocks = []

/-- The slot has been taken by `exe_add`. -/
def Taken (t : Table) (i : Fin maxExe) : Prop := ∃ b ∈ t.blocks, getExe b.1 b.2.1 = i

/-- The test of `sysfs_store`. -/
def Finds (t : Table) (p : Packet) : Prop :=
  (t.kernel.exes p.slot).rip = p.head.rip ∧ (t.kernel.exes p.slot).pid = p.head.pid

instance (t : Table) (p : Packet) : Decidable (t.Finds p) := inferInstanceAs (Decidable (_ ∧ _))

/-- The store copies a non-negative number of bytes, only to the block that was allocated for the
packet's pid and RIP, and keeps the other slots. -/
structure StoreSafe (t : Table) (p : Packet) : Prop where
  len : t.Finds p → 0 ≤ p.len.toInt
  inside : t.Finds p → ∀ addr, p.Writes (t.kernel.exes p.slot).codeBlock addr →
    (p.head.pid, p.head.rip, (t.kernel.exes p.slot).codeBlock) ∈ t.blocks ∧
      (addr - (t.kernel.exes p.slot).codeBlock).toNat < blockSize
  others : ∀ j, j ≠ p.slot → (sysfsStore p.pkt p.payload t.kernel).exes j = t.kernel.exes j

/-- A slot that was taken carries the pid, RIP and block of an allocation. -/
def Owned (t : Table) : Prop := ∀ i, t.Taken i →
  ((t.kernel.exes i).pid, (t.kernel.exes i).rip, (t.kernel.exes i).codeBlock) ∈ t.blocks

end Table

namespace Packet

variable (p : Packet)

theorem len_toInt : p.len.toInt = (p.count : Int) - 24 := by
  have hcount := p.count_le
  rw [len, BitVec.toInt_setWidth, BitVec.toNat_sub, BitVec.toNat_ofNat, BitVec.toNat_ofNat,
    Int.bmod]
  omega

/-- `memcpy` gets the length as it is once it is not negative. -/
theorem size_eq (h : 24 ≤ p.count) : (p.len.signExtend 64).toNat = p.count - 24 := by
  have hlen := p.len_toInt
  have hsize : (p.len.signExtend 64).toInt = p.len.toInt :=
    BitVec.toInt_signExtend_of_le (by decide)
  have hcount := p.count_le
  rw [BitVec.toInt_eq_toNat_cond, hlen] at hsize
  have hlt := (p.len.signExtend 64).isLt
  split_ifs at hsize <;> omega

/-- The addresses that are written lie behind the offset. -/
theorem writes_iff {codeBlock addr : BitVec 64} (h : 24 ≤ p.count) :
    p.Writes codeBlock addr ↔
      ∃ n < p.count - 24, addr = codeBlock + (p.head.offset + BitVec.ofNat 64 n) := by
  have hcount := p.count_le
  rw [Writes, p.size_eq h]
  constructor
  · intro hlt
    refine ⟨_, hlt, ?_⟩
    rw [BitVec.ofNat_toNat, BitVec.setWidth_eq, ← BitVec.add_assoc, BitVec.add_comm, BitVec.sub_add_cancel]
  · rintro ⟨n, hn, rfl⟩
    rw [← BitVec.add_assoc, BitVec.add_comm, BitVec.add_sub_cancel, BitVec.toNat_ofNat]
    omega

/-- All of them are in the block exactly if the packet ends there. -/
theorem inside_iff (codeBlock : BitVec 64) (h : 24 < p.count) :
    (∀ addr, p.Writes codeBlock addr → (addr - codeBlock).toNat < blockSize) ↔ p.Fits := by
  have hcount := p.count_le
  have hsize : blockSize = 655360 := rfl
  have hdist : ∀ n, (codeBlock + (p.head.offset + BitVec.ofNat 64 n) - codeBlock).toNat =
      (p.head.offset.toNat + n) % 2 ^ 64 := by
    intro n
    rw [BitVec.add_comm, BitVec.add_sub_cancel, BitVec.toNat_add, BitVec.toNat_ofNat]
    omega
  rw [Fits]
  constructor
  · intro hall
    -- The first byte bounds the offset, so that the last one does not wrap around.
    have hfirst := hall _ ((p.writes_iff h.le).mpr ⟨0, by omega, rfl⟩)
    have hlast := hall _ ((p.writes_iff h.le).mpr ⟨p.count - 25, by omega, rfl⟩)
    rw [hdist] at hfirst hlast
    have hoffset := p.head.offset.isLt
    omega
  · intro hfits addr hwrites
    obtain ⟨n, hn, rfl⟩ := (p.writes_iff h.le).mp hwrites
    rw [hdist]
    omega

end Packet

section Owned

variable {t t' : Table}

theorem exeAdd_of_not_takes {k : Kernel} {pid : BitVec 32} {rip : BitVec 64} (mem : Vmalloc)
    (h : ¬k.Takes pid rip) : exeAdd pid rip mem k = k := by
  unfold exeAdd
  dsimp only
  split_ifs with hused hfull
  · rfl
  · rfl
  · exact absurd ⟨Classical.not_not.mp hused, Nat.not_lt.mp hfull⟩ h

theorem exeAdd_of_takes {k : Kernel} {pid : BitVec 32} {rip : BitVec 64} (mem : Vmalloc)
    (h : k.Takes pid rip) :
    (exeAdd pid rip mem k).exes = (k.update (getExe pid rip) { k.exes (getExe pid rip) with
      pid := pid, rip := rip, codeBlock := mem.start, code := mem.bytes,
      statusCode := .unInit }).exes := by
  unfold exeAdd
  dsimp only
  rw [if_neg (Classical.not_not.mpr h.1), if_neg (Nat.not_lt.mpr h.2)]

theorem Table.Owned.fresh (h : t.Fresh) : t.Owned := by
  rintro i ⟨b, hb, -⟩
  rw [h.blocks] at hb
  cases hb

/-- A step that overwrites one slot and leaves its site alone. -/
theorem Table.Owned.update (h : t.Owned) {i : Fin maxExe} {q : ExeInfo}
    (hpid : q.pid = (t.kernel.exes i).pid) (hrip : q.rip = (t.kernel.exes i).rip)
    (hblock : q.codeBlock = (t.kernel.exes i).codeBlock) :
    Table.Owned { t with kernel := t.kernel.update i q } := by
  refine Kernel.forall_update (P := fun j p => t.Taken j → (p.pid, p.rip, p.codeBlock) ∈ t.blocks)
    (fun hi => ?_) fun j _ => h j
  rw [hpid, hrip, hblock]
  exact h i hi

theorem Table.Owned.add (h : t.Owned) {pid : BitVec 32} {rip : BitVec 64} (mem : Vmalloc)
    (htakes : t.kernel.Takes pid rip) :
    Table.Owned ⟨exeAdd pid rip mem t.kernel, (pid, rip, mem.start) :: t.blocks⟩ := by
  intro j hj
  dsimp only
  rw [exeAdd_of_takes mem htakes]
  by_cases hji : j = getExe pid rip
  · subst hji
    rw [Kernel.update_self]
    exact List.mem_cons_self
  · rw [Kernel.update_ne _ hji]
    refine List.mem_cons_of_mem _ (h j ?_)
    obtain ⟨b, hb, hslot⟩ := hj
    rcases List.mem_cons.mp hb with rfl | hb
    · exact absurd hslot.symm hji
    · exact ⟨b, hb, hslot⟩

theorem Table.Owned.step (h : t.Owned) {event : TableEvent}
    (hstep : tableStep event t = some t') : t'.Owned := by
  cases event with
  | add pid rip mem =>
      cases hstep
      by_cases htakes : t.kernel.Takes pid rip
      · rw [if_pos htakes]
        exact h.add mem htakes
      · rw [if_neg htakes, exeAdd_of_not_takes mem htakes]
        exact h
  | leave i regs args0 =>
      cases hstep
      obtain ⟨hpid, hrip, -⟩ := (t.kernel.exes i).afterCall_spec regs args0
      exact h.update hpid hrip (ExeInfo.afterCall_codeBlock ..)
  | store p =>
      cases hstep
      unfold sysfsStore
      dsimp only
      split_ifs
      · exact h.update rfl rfl rfl
      · exact h

theorem Table.Owned.run {start : Table} (hstart : start.Fresh) {events : List TableEvent}
    (hrun : runAll tableStep events start = some t) : t.Owned :=
  runAll_invariant (fun _ _ _ _ h hstep => Table.Owned.step h hstep) start t (.fresh hstart) hrun

end Owned

theorem sysfsStore_others (p : Packet) (k : Kernel) (j : Fin maxExe) (hj : j ≠ p.slot) :
    (sysfsStore p.pkt p.payload k).exes j = k.exes j := by
  unfold sysfsStore
  dsimp only
  split_ifs
  · exact Kernel.update_ne k hj _
  · rfl

theorem Table.Owned.storeSafe_iff {t : Table} (h : t.Owned) (p : Packet) :
    t.StoreSafe p ↔ ¬t.Finds p ∨ 24 ≤ p.count ∧ (p.count = 24 ∨ t.Taken p.slot ∧ p.Fits) := by
  have hlen := p.len_toInt
  constructor
  · intro hsafe
    by_cases hfinds : t.Finds p
    · refine Or.inr ⟨?_, ?_⟩
      · have hpos := hsafe.len hfinds
        omega
      · rcases Nat.lt_or_ge 24 p.count with hlt | hge
        · have hall := hsafe.inside hfinds
          refine Or.inr ⟨?_, (p.inside_iff _ hlt).mp fun addr hw => (hall addr hw).2⟩
          have hfirst := hall _ ((p.writes_iff hlt.le).mpr ⟨0, by omega, rfl⟩)
          exact ⟨_, hfirst.1, rfl⟩
        · have hpos := hsafe.len hfinds
          exact Or.inl (by omega)
    · exact Or.inl hfinds
  · intro hcond
    refine ⟨fun hfinds => ?_, fun hfinds addr hwrites => ?_, sysfsStore_others p t.kernel⟩
    · rcases hcond with hno | ⟨hcount, -⟩
      · exact absurd hfinds hno
      · omega
    · rcases hcond with hno | ⟨hcount, hempty | ⟨htaken, hfits⟩⟩
      · exact absurd hfinds hno
      · obtain ⟨n, hn, -⟩ := (p.writes_iff hcount).mp hwrites
        omega
      · have hpos : 24 < p.count := by
          obtain ⟨n, hn, -⟩ := (p.writes_iff hcount).mp hwrites
          omega
        have howned := h p.slot htaken
        rw [hfinds.1, hfinds.2] at howned
        exact ⟨howned, (p.inside_iff _ hpos).mpr hfits addr hwrites⟩

section Daemon

/-- The states of the loop of `write_sys`, with a packet each. -/
inductive Sent (pid : BitVec 32) (rip : BitVec 64) (jitBin : List UInt8) : Transfer → Prop
  | start {tr : Transfer} (h : Transfer.start pid rip jitBin = some tr) : Sent pid rip jitBin tr
  | next {tr tr' : Transfer} (hsent : Sent pid rip jitBin tr) (h : tr.next = some tr') :
      Sent pid rip jitBin tr'

variable {pid : BitVec 32} {rip : BitVec 64} {jitBin : List UInt8}

theorem Transfer.toCopyLen_le (tr : Transfer) :
    tr.toCopyLen ≤ maxPay ∧ tr.toCopyLen ≤ tr.restLen := by
  unfold toCopyLen
  split_ifs <;> omega

/-- What is written to the file. -/
def Transfer.packet (tr : Transfer) : Packet where
  head := ⟨if tr.restLen ≤ maxPay then 0 else -1, tr.pid, tr.rip, BitVec.ofNat 64 tr.offset⟩
  count := 24 + tr.toCopyLen
  count_le := by
    have hle := tr.toCopyLen_le.1
    rw [maxPay] at hle
    omega
  payload := tr.payload
  payload_length := by
    have hle := tr.toCopyLen_le.2
    rw [restLen] at hle
    rw [payload, List.length_take, List.length_drop]
    omega

theorem Sent.buf {tr : Transfer} (h : Sent pid rip jitBin tr) : tr.buf = jitBin.take bufLen := by
  induction h with
  | start h => exact (Transfer.start_some h).2.2.1
  | next _ h ih => rw [(Transfer.next_some h).2.2.1, ih]

theorem Sent.fits_iff {tr : Transfer} (h : Sent pid rip jitBin tr) :
    tr.packet.Fits ↔ tr.offset + tr.toCopyLen ≤ blockSize := by
  have hlen : tr.buf.length ≤ bufLen := by
    rw [h.buf, List.length_take]
    exact Nat.min_le_left _ _
  have hrest := tr.rest
  have hbuf : bufLen = 1048576 := rfl
  have hoffset : (BitVec.ofNat 64 tr.offset).toNat = tr.offset := by
    rw [BitVec.toNat_ofNat]
    omega
  rw [Packet.Fits, Transfer.packet, hoffset, Nat.add_sub_cancel_left]

/-- The loop ends, with the packet that reaches the end of the file. -/
theorem Sent.exists_last {tr : Transfer} (h : Sent pid rip jitBin tr) :
    ∃ last, Sent pid rip jitBin last ∧ last.next = none := by
  generalize hn : tr.restLen = n
  induction n using Nat.strong_induction_on generalizing tr with
  | _ n ih =>
      cases hnext : tr.next with
      | none => exact ⟨tr, h, hnext⟩
      | some tr' =>
          obtain ⟨-, -, hbuf, hoffset, -⟩ := Transfer.next_some hnext
          refine ih tr'.restLen ?_ (h.next hnext) rfl
          have hrest := tr.rest
          have hrest' := tr'.rest
          have hpos : 0 < tr.toCopyLen := by
            unfold Transfer.toCopyLen Transfer.restLen maxPay
            split_ifs <;> omega
          rw [hbuf] at hrest'
          rw [Transfer.restLen] at hn
          rw [Transfer.restLen, hbuf]
          omega

/-- The buffer of `write_sys` is larger than a block. -/
theorem sent_fits_iff (pid : BitVec 32) (rip : BitVec 64) (jitBin : List UInt8) :
    (∀ tr, Sent pid rip jitBin tr → tr.packet.Fits) ↔ jitBin.length ≤ blockSize := by
  have hbuf : bufLen = 1048576 := rfl
  have hblock : blockSize = 655360 := rfl
  constructor
  · intro hall
    by_contra hlong
    have hpos : 0 < (jitBin.take bufLen).length := by
      rw [List.length_take]
      omega
    have hstart : Transfer.start pid rip jitBin = some ⟨pid, rip, _, 0, hpos⟩ := dif_pos hpos
    obtain ⟨last, hsent, hnone⟩ := (Sent.start hstart).exists_last
    have hfits := hsent.fits_iff.mp (hall last hsent)
    have hend := Transfer.length_le_of_next_none hnone
    rw [hsent.buf, List.length_take] at hend
    omega
  · intro hshort tr hsent
    have hle := tr.toCopyLen_le.2
    have hlen : tr.buf.length ≤ jitBin.length := by
      rw [hsent.buf, List.length_take]
      exact Nat.min_le_right _ _
    have hrest := tr.rest
    rw [Transfer.restLen] at hle
    exact hsent.fits_iff.mpr (by omega)

end Daemon

/-- **Bounds of the store.** In every table that is reached from `exe_init`, a packet is copied only
into the block of its pid and RIP exactly if no slot is found for it, or it has a header and either
no payload or a slot that `exe_add` took and an end within the block. The packets of `write_sys` end
there exactly if `jit.bin` is no longer than a block. -/
theorem store_bounds_iff {start t : Table} (hstart : start.Fresh) {events : List TableEvent}
    (hrun : runAll tableStep events start = some t) :
    (∀ p : Packet, t.StoreSafe p ↔
      ¬t.Finds p ∨ 24 ≤ p.count ∧ (p.count = 24 ∨ t.Taken p.slot ∧ p.Fits)) ∧
    ∀ pid rip jitBin, (∀ tr, Sent pid rip jitBin tr → tr.packet.Fits) ↔ jitBin.length ≤ blockSize :=
  ⟨(Table.Owned.run hstart hrun).storeSafe_iff, sent_fits_iff⟩

def freshTable : Table := ⟨emptyKernel, []⟩

def addSite : List TableEvent := [.add 1 0x7ffff7de6487 zeroed]

/-- One byte to the start of the block. -/
def onePacket : Packet := ⟨⟨0, 1, 0x7ffff7de6487, 0⟩, 25, by decide, [0xC3], rfl⟩

/-- Eight bytes are written to the file. -/
def shortPacket : Packet := ⟨⟨0, 1, 0x7ffff7de6487, 0⟩, 8, by decide, [], rfl⟩

theorem store_bounds_onePacket :
    ∃ t, runAll tableStep addSite freshTable = some t ∧ t.Finds onePacket ∧ t.StoreSafe onePacket := by
  have hfits : onePacket.Fits := by decide
  refine ⟨_, rfl, by decide +kernel, ?_⟩
  obtain ⟨hsafe, -⟩ := @store_bounds_iff freshTable _ ⟨fun _ => rfl, rfl, rfl⟩ addSite rfl
  exact (hsafe onePacket).mpr
    (Or.inr ⟨by decide, Or.inr ⟨⟨_, List.mem_cons_self, rfl⟩, hfits⟩⟩)

/-- A write of eight bytes has the length -16, and a file of one byte more than a block does not
fit. -/
theorem short_write_unsafe :
    (∃ t, runAll tableStep addSite freshTable = some t ∧ ¬t.StoreSafe shortPacket) ∧
      ¬∀ tr, Sent 1 0x7ffff7de6487 (List.replicate (blockSize + 1) 0) tr → tr.packet.Fits := by
  refine ⟨⟨_, rfl, fun hsafe => ?_⟩, fun hall => ?_⟩
  · have hlen : 0 ≤ shortPacket.len.toInt := hsafe.len (by decide +kernel)
    exact absurd hlen (by decide)
  · have hle := (sent_fits_iff _ _ _).mp hall
    rw [List.length_replicate] at hle
    omega

end UserspaceBypass
