import Mathlib.Data.List.Basic

/-! Copying a sequence into memory chunk by chunk: each chunk goes to the offset that the ones before
it have filled, and once the offset has reached the length the memory begins with the sequence. -/

namespace Chunk

variable {β : Type*}

/-- `memcpy(mem + offset, bytes, len)` -/
def blit (mem : Nat → β) (offset : Nat) (bytes : List β) : Nat → β := fun i =>
  if offset ≤ i then (bytes[i - offset]?).getD (mem i) else mem i

/-- The memory begins with the sequence. -/
def Begins (mem : Nat → β) (bytes : List β) : Prop := ∀ (i : Nat) b, bytes[i]? = some b → mem i = b

theorem begins_nil (mem : Nat → β) : Begins mem [] := by
  intro i b h
  simp at h

theorem blit_of_lt {mem : Nat → β} {offset i : Nat} (h : i < offset) (bytes : List β) :
    blit mem offset bytes i = mem i := if_neg (Nat.not_le.mpr h)

/-- One more chunk. -/
theorem begins_blit {mem : Nat → β} {bytes : List β} {offset : Nat} (n : Nat)
    (h : Begins mem (bytes.take offset)) :
    Begins (blit mem offset ((bytes.drop offset).take n)) (bytes.take (offset + n)) := by
  intro i b hb
  rw [List.getElem?_take] at hb
  split_ifs at hb with hi
  by_cases hlt : i < offset
  · rw [blit_of_lt hlt]
    refine h i b ?_
    rw [List.getElem?_take, if_pos hlt, hb]
  · have hle : offset ≤ i := Nat.not_lt.mp hlt
    have hchunk : ((bytes.drop offset).take n)[i - offset]? = some b := by
      rw [List.getElem?_take, if_pos (by omega), List.getElem?_drop, Nat.add_sub_cancel' hle, hb]
    rw [blit, if_pos hle, hchunk, Option.getD_some]

/-- The last chunk. -/
theorem Begins.whole {mem : Nat → β} {bytes : List β} {offset : Nat}
    (h : Begins mem (bytes.take offset)) (hlen : bytes.length ≤ offset) : Begins mem bytes := by
  rw [List.take_of_length_le hlen] at h
  exact h

end Chunk
