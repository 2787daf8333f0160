import Mathlib.Data.List.Basic

/-! Logs, as lists to which entries are appended: an entry that occurs once, the latest entry of a
kind, and what every entry of a log has behind it. -/

namespace Log

variable {α : Type*} {x : α} {l more pre post : List α}

/-- A position in a concatenation is one in the first list or one in the second. -/
theorem append_split (h : l ++ more = pre ++ x :: post) :
    (∃ post', l = pre ++ x :: post' ∧ post = post' ++ more) ∨
      ∃ pre', pre = l ++ pre' ∧ more = pre' ++ x :: post := by
  rcases List.append_eq_append_iff.mp h with ⟨pre', hpre, hmore⟩ | ⟨rest, hl, hrest⟩
  · exact Or.inr ⟨pre', hpre, hmore⟩
  · cases rest with
    | nil => exact Or.inr ⟨[], by simpa using hl.symm, by simpa using hrest.symm⟩
    | cons y post' =>
        obtain ⟨rfl, hpost⟩ := List.cons.inj hrest
        exact Or.inl ⟨post', hl, hpost⟩

/-- Exactly one occurrence. -/
def Once (x : α) (l : List α) : Prop := ∃ pre post, l = pre ++ x :: post ∧ x ∉ pre ∧ x ∉ post

theorem Once.append (h : Once x l) (hmore : x ∉ more) : Once x (l ++ more) := by
  obtain ⟨pre, post, rfl, hpre, hpost⟩ := h
  refine ⟨pre, post ++ more, by simp, hpre, ?_⟩
  rw [List.mem_append]
  rintro (h | h)
  · exact hpost h
  · exact hmore h

theorem once_append (hl : x ∉ l) (h : Once x more) : Once x (l ++ more) := by
  obtain ⟨pre, post, rfl, hpre, hpost⟩ := h
  refine ⟨l ++ pre, post, by simp, ?_, hpost⟩
  rw [List.mem_append]
  rintro (h | h)
  · exact hl h
  · exact hpre h

theorem once_cons (h : x ∉ post) : Once x (x :: post) := ⟨[], post, rfl, List.not_mem_nil, h⟩

/-- The entries stand in the log, next to each other, and none of the kind stands behind them. -/
def Latest (p : α → Prop) (entries l : List α) : Prop :=
  ∃ pre post, l = pre ++ entries ++ post ∧ ∀ a ∈ post, ¬p a

theorem Latest.append {p : α → Prop} {entries : List α} (h : Latest p entries l)
    (hmore : ∀ a ∈ more, ¬p a) : Latest p entries (l ++ more) := by
  obtain ⟨pre, post, rfl, hpost⟩ := h
  exact ⟨pre, post ++ more, by simp, List.forall_mem_append.mpr ⟨hpost, hmore⟩⟩

theorem latest_append (p : α → Prop) (l entries : List α) : Latest p entries (l ++ entries) :=
  ⟨l, [], by simp, nofun⟩

/-- Every entry was appended to a log that was right for it. -/
def Each (right : List α → α → Prop) (l : List α) : Prop :=
  ∀ pre x post, l = pre ++ x :: post → right pre x

theorem each_nil (right : List α → α → Prop) : Each right [] := by
  intro pre x post h
  simp at h

theorem Each.append {right : List α → α → Prop} (h : Each right l)
    (hmore : ∀ pre' x post, more = pre' ++ x :: post → right (l ++ pre') x) :
    Each right (l ++ more) := by
  intro pre x post heq
  rcases append_split heq with ⟨post', hl, -⟩ | ⟨pre', rfl, hsplit⟩
  · exact h pre x post' hl
  · exact hmore pre' x post hsplit

theorem Each.concat {right : List α → α → Prop} (h : Each right l) (hx : right l x) :
    Each right (l ++ [x]) := by
  refine h.append fun pre' y post heq => ?_
  cases pre' with
  | nil =>
      obtain ⟨rfl, -⟩ := List.cons.inj heq
      rwa [List.append_nil]
  | cons z pre' => simp at heq

end Log
