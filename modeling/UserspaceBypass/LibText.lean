import Mathlib.Data.List.Basic

/-! Numbers and lines as text: hexadecimal numbers written and read, and text cut into lines and
words. Texts are lists of characters. -/

namespace Text

def hexDigit (c : Char) : Option Nat :=
  if '0' ≤ c ∧ c ≤ '9' then some (c.toNat - '0'.toNat)
  else if 'a' ≤ c ∧ c ≤ 'f' then some (c.toNat - 'a'.toNat + 10)
  else if 'A' ≤ c ∧ c ≤ 'F' then some (c.toNat - 'A'.toNat + 10)
  else none

/-- The digits behind a number that has been read so far. -/
def readDigits (n : Nat) : List Char → Option Nat
  | [] => some n
  | c :: cs => (hexDigit c).bind fun d => readDigits (16 * n + d) cs

/-- Write with the sign of the base in front. -/
def hexText (n : Nat) : List Char := '0' :: 'x' :: Nat.toDigits 16 n

/-- Read at least one digit, with or without the sign of the base. -/
def readHex : List Char → Option Nat
  | '0' :: x :: c :: cs =>
      if x = 'x' ∨ x = 'X' then readDigits 0 (c :: cs) else readDigits 0 ('0' :: x :: c :: cs)
  | c :: cs => readDigits 0 (c :: cs)
  | [] => none

theorem readDigits_append (n : Nat) (cs ds : List Char) :
    readDigits n (cs ++ ds) = (readDigits n cs).bind fun m => readDigits m ds := by
  induction cs generalizing n with
  | nil => rfl
  | cons c cs ih =>
      rw [List.cons_append, readDigits, readDigits]
      cases hexDigit c with
      | none => rfl
      | some d => exact ih _

theorem hexDigit_digitChar {n : Nat} (h : n < 16) : hexDigit n.digitChar = some n := by
  revert n
  decide

theorem readDigits_toDigits (n : Nat) : readDigits 0 (Nat.toDigits 16 n) = some n := by
  induction n using Nat.strongRecOn with
  | ind n ih =>
      rw [Nat.toDigits_eq_if (by decide)]
      split_ifs with h
      · rw [readDigits, hexDigit_digitChar h, Option.bind_some, readDigits, Nat.mul_zero, Nat.zero_add]
      · have hlt : n / 16 < n := Nat.div_lt_self (by omega) (by decide)
        rw [readDigits_append, ih _ hlt, Option.bind_some, readDigits,
          hexDigit_digitChar (Nat.mod_lt n (by decide)), Option.bind_some, readDigits,
          Nat.div_add_mod]

theorem toDigits_injective : Function.Injective (Nat.toDigits 16) := by
  intro n m h
  have hread := readDigits_toDigits n
  rw [h, readDigits_toDigits m] at hread
  exact (Option.some.inj hread).symm

theorem readHex_hexText (n : Nat) : readHex (hexText n) = some n := by
  have hread := readDigits_toDigits n
  rw [hexText]
  cases hdigits : Nat.toDigits 16 n with
  | nil => exact absurd hdigits Nat.toDigits_ne_nil
  | cons c cs =>
      rw [hdigits] at hread
      rw [readHex, if_pos (Or.inl rfl), hread]

theorem hexText_injective : Function.Injective hexText := by
  intro n m h
  exact toDigits_injective (List.cons.inj (List.cons.inj h).2).2

theorem digitChar_of_mem_toDigits {n : Nat} {c : Char} (h : c ∈ Nat.toDigits 16 n) :
    ∃ d < 16, c = d.digitChar := by
  induction n using Nat.strongRecOn with
  | ind n ih =>
      rw [Nat.toDigits_eq_if (by decide)] at h
      split_ifs at h with hlt
      · exact ⟨n, hlt, List.mem_singleton.mp h⟩
      · have hdiv : n / 16 < n := Nat.div_lt_self (by omega) (by decide)
        rcases List.mem_append.mp h with h | h
        · exact ih _ hdiv h
        · exact ⟨n % 16, Nat.mod_lt n (by decide), List.mem_singleton.mp h⟩

theorem isAlphanum_digitChar {d : Nat} (h : d < 16) : d.digitChar.isAlphanum = true := by
  revert d
  decide

/-- A written number has letters and digits only. -/
theorem isAlphanum_of_mem_hexText {n : Nat} {c : Char} (h : c ∈ hexText n) :
    c.isAlphanum = true := by
  rcases List.mem_cons.mp h with rfl | h
  · rfl
  · rcases List.mem_cons.mp h with rfl | h
    · rfl
    · obtain ⟨d, hd, rfl⟩ := digitChar_of_mem_toDigits h
      exact isAlphanum_digitChar hd

/-- Two texts up to the first of a separator. -/
theorem append_cons_inj {a : Char} {l l' r r' : List Char} (hl : a ∉ l) (hl' : a ∉ l')
    (h : l ++ a :: r = l' ++ a :: r') : l = l' ∧ r = r' := by
  induction l generalizing l' with
  | nil =>
      cases l' with
      | nil => exact ⟨rfl, (List.cons.inj h).2⟩
      | cons b l' => exact absurd ((List.cons.inj h).1 ▸ List.mem_cons_self) hl'
  | cons b l ih =>
      cases l' with
      | nil => exact absurd ((List.cons.inj h).1 ▸ List.mem_cons_self) hl
      | cons b' l' =>
          obtain ⟨rfl, htail⟩ := List.cons.inj h
          have hrest := ih (fun hmem => hl (List.mem_cons_of_mem _ hmem))
            (fun hmem => hl' (List.mem_cons_of_mem _ hmem)) htail
          exact ⟨congrArg _ hrest.1, hrest.2⟩

/-- Cut at the newlines; the piece behind the last one is a line only if there is something in it. -/
def splitLines (cs : List Char) : List (List Char) :=
  let pieces := cs.splitOn '\n'
  if pieces.getLast? = some [] then pieces.dropLast else pieces

def isBlank (c : Char) : Bool := c == ' ' || c == '\t' || c == '\n' || c == '\r'

/-- The pieces between blanks. -/
def words (cs : List Char) : List (List Char) := (cs.splitOnP isBlank).filter fun w => !w.isEmpty

/-- Lines that were written one after another are read back. -/
theorem splitLines_flatMap {lines : List (List Char)} (h : ∀ line ∈ lines, '\n' ∉ line) :
    splitLines (lines.flatMap fun line => line ++ ['\n']) = lines := by
  have hpieces : (lines.flatMap fun line => line ++ ['\n']).splitOn '\n' = lines ++ [[]] := by
    induction lines with
    | nil => rfl
    | cons line lines ih =>
        obtain ⟨hline, hlines⟩ := List.forall_mem_cons.mp h
        have hplain : ∀ c ∈ line, (c == '\n') = false := by
          intro c hc
          rw [beq_eq_false_iff_ne]
          rintro rfl
          exact hline hc
        rw [List.flatMap_cons, List.append_assoc, List.singleton_append, List.splitOn,
          List.splitOnP_append_cons_of_forall_mem hplain _ (beq_self_eq_true _), List.cons_append]
        exact congrArg _ (ih hlines)
  rw [splitLines, hpieces]
  simp

theorem words_of_forall {w : List Char} (hw : w ≠ []) (h : ∀ c ∈ w, isBlank c = false) :
    words w = [w] := by
  rw [words, List.splitOnP_eq_singleton h]
  simp [hw]

/-- Two words with a blank between them. -/
theorem words_pair {w w' : List Char} (hw : w ≠ []) (h : ∀ c ∈ w, isBlank c = false) (hw' : w' ≠ [])
    (h' : ∀ c ∈ w', isBlank c = false) : words (w ++ ' ' :: w') = [w, w'] := by
  have hrest := words_of_forall hw' h'
  rw [words] at hrest
  rw [words, List.splitOnP_append_cons_of_forall_mem h _ rfl, List.filter_cons_of_pos (by simpa using hw),
    hrest]

/-- Letters and digits are no blanks. -/
theorem not_isBlank_of_isAlphanum {c : Char} (h : c.isAlphanum = true) : isBlank c = false := by
  rw [Bool.eq_false_iff]
  intro hblank
  simp only [isBlank, Bool.or_eq_true, beq_iff_eq] at hblank
  rcases hblank with ((rfl | rfl) | rfl) | rfl <;> exact absurd h (by decide)

end Text
