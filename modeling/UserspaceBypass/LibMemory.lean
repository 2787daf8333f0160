import Mathlib.Data.BitVec
import Mathlib.Tactic.IntervalCases

/-! Bytes and words in memory, little-endian, at addresses of any width. A store changes the bytes of
its word and no others, and a load puts them together again; whether two loads or two stores agree is
seen at the first byte. -/

namespace Memory

variable {w : Nat}

def byte (value : BitVec 64) (i : Nat) : BitVec 8 := value.extractLsb' (8 * i) 8

/-- `n` bytes of the value, from address `a` on. -/
def store (n : Nat) (mem : BitVec w → BitVec 8) (a : BitVec w) (value : BitVec 64) :
    BitVec w → BitVec 8 := fun x =>
  if (x - a).toNat < n then byte value (x - a).toNat else mem x

/-- The number in the `n` bytes from address `a` on. -/
def loadNat (mem : BitVec w → BitVec 8) : Nat → BitVec w → Nat
  | 0, _ => 0
  | n + 1, a => (mem a).toNat + 256 * loadNat mem n (a + 1)

def load64 (mem : BitVec w → BitVec 8) (a : BitVec w) : BitVec 64 :=
  BitVec.ofNat 64 (loadNat mem 8 a)

/-- The memory with one byte set. -/
def point (a : BitVec w) : BitVec w → BitVec 8 := fun x => if x = a then 1 else 0

theorem store_self {n : Nat} (hn : 0 < n) (mem : BitVec w → BitVec 8) (a : BitVec w)
    (value : BitVec 64) : store n mem a value a = byte value 0 := by
  rw [store, BitVec.sub_self, BitVec.toNat_zero, if_pos hn]

/-- Byte `i` of the word that is stored. -/
theorem store_add {n i : Nat} (hi : i < n) (hw : i < 2 ^ w) (mem : BitVec w → BitVec 8) (a : BitVec w)
    (value : BitVec 64) : store n mem a value (a + BitVec.ofNat w i) = byte value i := by
  rw [store, add_sub_cancel_left, BitVec.toNat_ofNat, Nat.mod_eq_of_lt hw, if_pos hi]

/-- What lies behind the word stays. -/
theorem store_add_of_le {n i : Nat} (hi : n ≤ i) (hw : i < 2 ^ w) (mem : BitVec w → BitVec 8)
    (a : BitVec w) (value : BitVec 64) :
    store n mem a value (a + BitVec.ofNat w i) = mem (a + BitVec.ofNat w i) := by
  rw [store, add_sub_cancel_left, BitVec.toNat_ofNat, Nat.mod_eq_of_lt hw,
    if_neg (Nat.not_lt.mpr hi)]

/-- A store of fewer bytes leaves the next one as it was. -/
theorem store_narrow_ne {n m : Nat} (hn : n < m) (hw : n < 2 ^ w) (a : BitVec w)
    (value value' : BitVec 64) :
    store n (fun _ => byte value n + 1) a value' ≠ store m (fun _ => byte value n + 1) a value := by
  intro h
  have hbyte := congrFun h (a + BitVec.ofNat w n)
  rw [store_add_of_le (le_refl n) hw, store_add hn hw] at hbyte
  exact absurd (BitVec.add_right_eq_self.mp hbyte) (by decide)

theorem byte_zero_load64 (mem : BitVec w → BitVec 8) (a : BitVec w) :
    byte (load64 mem a) 0 = mem a := by
  apply BitVec.eq_of_toNat_eq
  rw [byte, load64, loadNat, BitVec.extractLsb'_toNat, BitVec.toNat_ofNat]
  have hlt := (mem a).isLt
  omega

/-- Two loads agree on every memory only at one address. -/
theorem eq_of_byte_point {a b : BitVec w}
    (h : byte (load64 (point a) a) 0 = byte (load64 (point a) b) 0) : a = b := by
  rw [byte_zero_load64, byte_zero_load64, point, point, if_pos rfl] at h
  by_contra hne
  rw [if_neg (Ne.symm hne)] at h
  exact absurd h (by decide)

/-- Two stores of different first bytes differ. -/
theorem byte_zero_of_store_eq {n : Nat} (hn : 0 < n) {mem : BitVec w → BitVec 8} {a : BitVec w}
    {value value' : BitVec 64} (h : store n mem a value = store n mem a value') :
    byte value 0 = byte value' 0 := by
  rw [← store_self hn mem a value, h, store_self hn]

theorem loadNat_congr {mem mem' : BitVec w → BitVec 8} {n : Nat} {a : BitVec w}
    (h : ∀ i < n, mem (a + BitVec.ofNat w i) = mem' (a + BitVec.ofNat w i)) :
    loadNat mem n a = loadNat mem' n a := by
  induction n generalizing a with
  | zero => rfl
  | succ n ih =>
      have hfirst : mem a = mem' a := by simpa using h 0 (Nat.succ_pos n)
      have hrest : loadNat mem n (a + 1) = loadNat mem' n (a + 1) := by
        refine ih fun i hi => ?_
        have hnext := h (i + 1) (Nat.succ_lt_succ hi)
        rwa [Nat.add_comm, BitVec.ofNat_add, ← add_assoc] at hnext
      rw [loadNat, loadNat, hfirst, hrest]

/-- The eight bytes at `a` are none of the eight bytes at `b`. -/
def Apart (a b : BitVec w) : Prop := ∀ i < 8, 8 ≤ (a + BitVec.ofNat w i - b).toNat

/-- A store to another word leaves a word alone. -/
theorem load64_store {mem : BitVec w → BitVec 8} {a b : BitVec w} (h : Apart a b) (value : BitVec 64) :
    load64 (store 8 mem b value) a = load64 mem a := by
  refine congrArg (BitVec.ofNat 64) (loadNat_congr fun i hi => ?_)
  rw [store, if_neg (Nat.not_lt.mpr (h i hi))]

theorem apart_of_ne {a b : BitVec w}
    (h : ∀ i < 8, ∀ j < 8, a + BitVec.ofNat w i ≠ b + BitVec.ofNat w j) : Apart a b := by
  intro i hi
  by_contra hlt
  refine h i hi _ (Nat.not_le.mp hlt) ?_
  rw [BitVec.ofNat_toNat, BitVec.setWidth_eq, add_sub_cancel]

theorem Apart.symm (hw : 16 ≤ 2 ^ w) {a b : BitVec w} (h : Apart a b) : Apart b a := by
  refine apart_of_ne fun i hi j hj heq => ?_
  have hle := h j hj
  rw [← heq, add_sub_cancel_left, BitVec.toNat_ofNat, Nat.mod_eq_of_lt (by omega)] at hle
  omega

/-- A word is read back as it was stored. -/
theorem load64_store_self (hw : 8 ≤ 2 ^ w) (mem : BitVec w → BitVec 8) (a : BitVec w)
    (value : BitVec 64) : load64 (store 8 mem a value) a = value := by
  have hbyte : ∀ i < 8, (store 8 mem a value (a + BitVec.ofNat w i)).toNat =
      value.toNat / 2 ^ (8 * i) % 256 := by
    intro i hi
    rw [store_add hi (by omega), byte, BitVec.extractLsb'_toNat, Nat.shiftRight_eq_div_pow]
  have hload : ∀ n ≤ 8, loadNat (store 8 mem a value) n (a + BitVec.ofNat w (8 - n)) =
      value.toNat / 2 ^ (8 * (8 - n)) := by
    intro n
    induction n with
    | zero =>
        intro _
        rw [loadNat, Nat.div_eq_of_lt value.isLt]
    | succ n ih =>
        intro hn
        have hnext : a + BitVec.ofNat w (8 - (n + 1)) + 1 = a + BitVec.ofNat w (8 - n) := by
          rw [show 8 - n = 8 - (n + 1) + 1 by omega, BitVec.ofNat_add, ← add_assoc]
          rfl
        rw [loadNat, hbyte _ (by omega), hnext, ih (by omega),
          show 8 * (8 - n) = 8 * (8 - (n + 1)) + 8 by omega, pow_add, ← Nat.div_div_eq_div_mul]
        omega
  have hall := hload 8 le_rfl
  rw [Nat.sub_self, BitVec.add_zero, Nat.mul_zero, pow_zero, Nat.div_one] at hall
  rw [load64, hall, BitVec.ofNat_toNat, BitVec.setWidth_eq]

theorem loadNat_point {a b : BitVec w} {n : Nat} (h : ∀ i < n, b + BitVec.ofNat w i ≠ a) :
    loadNat (point a) n b = 0 := by
  induction n generalizing b with
  | zero => rfl
  | succ n ih =>
      have hfirst : b ≠ a := by
        have hzero := h 0 (Nat.succ_pos n)
        rwa [show BitVec.ofNat w 0 = 0 from rfl, add_zero] at hzero
      have hrest : ∀ i < n, b + 1 + BitVec.ofNat w i ≠ a := by
        intro i hi
        have hnext := h (i + 1) (Nat.succ_lt_succ hi)
        rwa [show BitVec.ofNat w (i + 1) = 1 + BitVec.ofNat w i by
          rw [Nat.add_comm, BitVec.ofNat_add]; rfl, ← BitVec.add_assoc] at hnext
      rw [loadNat, ih hrest, point, if_neg hfirst]
      rfl

/-- The word at the byte that is set. -/
theorem load64_point (hw : 8 ≤ 2 ^ w) (a : BitVec w) : load64 (point a) a = 1 := by
  have hrest : loadNat (point a) 7 (a + 1) = 0 := by
    refine loadNat_point fun i hi heq => ?_
    have hzero : (1 : BitVec w) + BitVec.ofNat w i = 0 := by
      rw [BitVec.add_assoc] at heq
      exact BitVec.add_right_eq_self.mp heq
    have hnat := congrArg BitVec.toNat hzero
    rw [show (1 : BitVec w) = BitVec.ofNat w 1 from rfl, ← BitVec.ofNat_add, BitVec.toNat_ofNat,
      Nat.mod_eq_of_lt (by omega)] at hnat
    simp at hnat
  rw [load64, loadNat, hrest, point, if_pos rfl]
  rfl

/-- A store of 1 elsewhere does not set the byte. -/
theorem store_one_of_ne {mem : BitVec w → BitVec 8} {a b : BitVec w} (h : a ≠ b) (hmem : mem a = 0) :
    store 8 mem b 1 a = 0 := by
  unfold store
  split_ifs with hlt
  · have hpos : 0 < (a - b).toNat := by
      refine Nat.pos_of_ne_zero fun hzero => h ?_
      exact sub_eq_zero.mp (BitVec.eq_of_toNat_eq hzero)
    generalize (a - b).toNat = i at hlt hpos
    interval_cases i <;> rfl
  · exact hmem

/-- Where 1 is stored can be read off, in a memory with at most one byte set. -/
theorem store_one_injective {p a b : BitVec w} (h : store 8 (point p) a 1 = store 8 (point p) b 1) :
    a = b := by
  by_contra hne
  have hself : ∀ x : BitVec w, store 8 (point p) x 1 x = 1 := fun x => store_self (by decide) _ _ _
  by_cases hp : a = p
  · have hb := congrFun h b
    rw [hself, store_one_of_ne (Ne.symm hne) (if_neg fun hbp => hne (hp.trans hbp.symm))] at hb
    cases hb
  · have ha := congrFun h a
    rw [hself, store_one_of_ne hne (if_neg hp)] at ha
    cases ha

end Memory
