import Mathlib.Order.Lattice
import Mathlib.Data.List.Basic
import Mathlib.Data.List.Pairwise

/-! Labelled text: a file is a list of labels and instructions, and control that runs past the last
instruction of a section goes on at the next label of the file. The lemmas find the code under a
label and the label after it in a file made of sections, and say which key comes next in an ordered
list of keys. -/

namespace Layout

variable {L I : Type*}

inductive Item (L I : Type*) where
  | label (l : L)
  | code (i : I)
  deriving DecidableEq, Repr

/-- The code up to the next label. -/
def body : List (Item L I) → List I
  | .code i :: rest => i :: body rest
  | _ => []

def firstLabel : List (Item L I) → Option L
  | [] => none
  | .label l :: _ => some l
  | .code _ :: rest => firstLabel rest

/-- The file behind a label. -/
def behind [DecidableEq L] (l : L) : List (Item L I) → List (Item L I)
  | [] => []
  | .label l' :: rest => if l' = l then rest else behind l rest
  | .code _ :: rest => behind l rest

def codeAt [DecidableEq L] (file : List (Item L I)) (l : L) : List I := body (behind l file)

/-- Where control goes when the code under a label has run to its end. -/
def nextLabel [DecidableEq L] (file : List (Item L I)) (l : L) : Option L :=
  firstLabel (behind l file)

/-- A label with the code under it. -/
def labelled (l : L) (code : List I) : List (Item L I) := .label l :: code.map .code

def sections (parts : List (L × List I)) : List (Item L I) :=
  parts.flatMap fun part => labelled part.1 part.2

/-- The labels a file defines. -/
def labels : List (Item L I) → List L
  | [] => []
  | .label l :: rest => l :: labels rest
  | .code _ :: rest => labels rest

/-- The instructions of a file. -/
def text : List (Item L I) → List I
  | [] => []
  | .label _ :: rest => text rest
  | .code i :: rest => i :: text rest

theorem labels_code (code : List I) (rest : List (Item L I)) :
    labels (code.map .code ++ rest) = labels rest := by
  induction code with
  | nil => rfl
  | cons i code ih => rw [List.map_cons, List.cons_append, labels, ih]

theorem text_code (code : List I) (rest : List (Item L I)) :
    text (code.map .code ++ rest) = code ++ text rest := by
  induction code with
  | nil => rfl
  | cons i code ih => rw [List.map_cons, List.cons_append, text, ih, List.cons_append]

theorem labels_sections (parts : List (L × List I)) :
    labels (sections parts) = parts.map Prod.fst := by
  induction parts with
  | nil => rfl
  | cons part parts ih =>
      rw [sections, List.flatMap_cons, labelled, List.cons_append, labels, labels_code, List.map_cons]
      exact congrArg _ ih

theorem text_sections (parts : List (L × List I)) :
    text (sections parts) = parts.flatMap Prod.snd := by
  induction parts with
  | nil => rfl
  | cons part parts ih =>
      rw [sections, List.flatMap_cons, labelled, List.cons_append, text, text_code, List.flatMap_cons]
      exact congrArg _ ih

theorem body_code (code : List I) (rest : List (Item L I)) :
    body (code.map .code ++ rest) = code ++ body rest := by
  induction code with
  | nil => rfl
  | cons i code ih => rw [List.map_cons, List.cons_append, body, ih, List.cons_append]

theorem firstLabel_code (code : List I) (rest : List (Item L I)) :
    firstLabel (code.map .code ++ rest) = firstLabel rest := by
  induction code with
  | nil => rfl
  | cons i code ih => rw [List.map_cons, List.cons_append, firstLabel, ih]

theorem body_sections (parts : List (L × List I)) : body (sections parts) = [] := by
  cases parts <;> rfl

theorem firstLabel_sections (parts : List (L × List I)) :
    firstLabel (sections parts) = (parts.map Prod.fst).head? := by
  cases parts <;> rfl

variable [DecidableEq L]

theorem behind_code (l : L) (code : List I) (rest : List (Item L I)) :
    behind l (code.map .code ++ rest) = behind l rest := by
  induction code with
  | nil => rfl
  | cons i code ih => rw [List.map_cons, List.cons_append, behind, ih]

theorem behind_labelled (l l' : L) (code : List I) (rest : List (Item L I)) :
    behind l (labelled l' code ++ rest) =
      if l' = l then code.map .code ++ rest else behind l rest := by
  rw [labelled, List.cons_append, behind, behind_code]

/-- The first section with a label is found under it. -/
theorem behind_sections {l : L} {before after : List (L × List I)} (code : List I)
    (h : l ∉ before.map Prod.fst) :
    behind l (sections (before ++ (l, code) :: after)) = code.map .code ++ sections after := by
  induction before with
  | nil => rw [List.nil_append, sections, List.flatMap_cons, behind_labelled, if_pos rfl, sections]
  | cons part before ih =>
      obtain ⟨hne, hbefore⟩ := not_or.mp (mt List.mem_cons.mpr h)
      rw [List.cons_append, sections, List.flatMap_cons, behind_labelled, if_neg (Ne.symm hne)]
      exact ih hbefore

theorem codeAt_sections {l : L} {head code : List I} {before after : List (L × List I)}
    (h : l ∉ before.map Prod.fst) :
    codeAt (head.map .code ++ sections (before ++ (l, code) :: after)) l = code := by
  rw [codeAt, behind_code, behind_sections code h, body_code, body_sections, List.append_nil]

theorem nextLabel_sections {l : L} {head code : List I} {before after : List (L × List I)}
    (h : l ∉ before.map Prod.fst) :
    nextLabel (head.map .code ++ sections (before ++ (l, code) :: after)) l =
      (after.map Prod.fst).head? := by
  rw [nextLabel, behind_code, behind_sections code h, firstLabel_code, firstLabel_sections]

/-- The code under a label is code of the file. -/
theorem mem_text_of_mem_codeAt {file : List (Item L I)} {l : L} {i : I} (h : i ∈ codeAt file l) :
    i ∈ text file := by
  have hbody : ∀ file : List (Item L I), i ∈ body file → i ∈ text file := by
    intro file hi
    induction file with
    | nil => cases hi
    | cons item file ih =>
        cases item with
        | label l' => cases hi
        | code j =>
            rcases List.mem_cons.mp hi with rfl | hi
            · exact List.mem_cons_self
            · exact List.mem_cons_of_mem _ (ih hi)
  induction file with
  | nil => cases h
  | cons item file ih =>
      cases item with
      | label l' =>
          rw [codeAt, behind] at h
          split_ifs at h
          · exact hbody file h
          · exact ih h
      | code j => exact List.mem_cons_of_mem _ (ih h)

/-- The code under a label is code of a section with that label. -/
theorem mem_of_mem_codeAt {l : L} {head : List I} {parts : List (L × List I)} {i : I}
    (h : i ∈ codeAt (head.map .code ++ sections parts) l) : ∃ code, (l, code) ∈ parts ∧ i ∈ code := by
  rw [codeAt, behind_code] at h
  induction parts with
  | nil => cases h
  | cons part parts ih =>
      rw [sections, List.flatMap_cons, behind_labelled] at h
      split_ifs at h with heq
      · have hbody : body (part.2.map .code ++ sections parts) = part.2 := by
          rw [body_code, body_sections, List.append_nil]
        exact ⟨part.2, heq ▸ List.mem_cons_self, hbody ▸ h⟩
      · obtain ⟨code, hmem, hi⟩ := ih h
        exact ⟨code, List.mem_cons_of_mem _ hmem, hi⟩

/-- The section behind which a label follows. -/
theorem nextLabel_split {l l' : L} {head : List I} {parts : List (L × List I)}
    (h : nextLabel (head.map .code ++ sections parts) l = some l') :
    ∃ before code after, parts = before ++ (l, code) :: after ∧
      (after.map Prod.fst).head? = some l' := by
  rw [nextLabel, behind_code] at h
  induction parts with
  | nil => cases h
  | cons part parts ih =>
      rw [sections, List.flatMap_cons, behind_labelled] at h
      split_ifs at h with heq
      · rw [firstLabel_code] at h
        exact ⟨[], part.2, parts, by rw [← heq]; rfl, (firstLabel_sections parts).symm.trans h⟩
      · obtain ⟨before, code, after, rfl, hhead⟩ := ih h
        exact ⟨part :: before, code, after, rfl, hhead⟩

/-- Control runs into a label that is there once only from the label in front of it. -/
theorem eq_of_nextLabel {l l₁ l₂ : L} {head : List I} {parts : List (L × List I)}
    {before after : List L} (hparts : parts.map Prod.fst = before ++ [l₁] ++ l₂ :: after)
    (hbefore : l₂ ∉ before ++ [l₁]) (hafter : l₂ ∉ after)
    (h : nextLabel (head.map .code ++ sections parts) l = some l₂) : l = l₁ := by
  obtain ⟨front, code, back, rfl, hhead⟩ := nextLabel_split h
  obtain ⟨rest, hrest⟩ := List.head?_eq_some_iff.mp hhead
  rw [List.map_append, List.map_cons, hrest, List.append_cons] at hparts
  obtain ⟨hfront, -, -⟩ := (List.append_cons_inj_of_notMem hbefore hafter).mp hparts.symm
  exact (List.append_singleton_inj.mp hfront).2.symm

/-- In an ordered list `b` comes right after `a` if it is there, greater, and nothing is between. -/
theorem head_after_iff {α : Type*} [LinearOrder α] {before after : List α} {a b : α}
    (hsorted : (before ++ a :: after).Pairwise (· < ·)) :
    after.head? = some b ↔ b ∈ before ++ a :: after ∧ a < b ∧
      ∀ k ∈ before ++ a :: after, ¬(a < k ∧ k < b) := by
  obtain ⟨-, hcons, hbefore⟩ := List.pairwise_append.mp hsorted
  obtain ⟨ha, hafter⟩ := List.pairwise_cons.mp hcons
  -- a key greater than `a` stands behind it
  have hbehind : ∀ k ∈ before ++ a :: after, a < k → k ∈ after := by
    intro k hk hlt
    rcases List.mem_append.mp hk with hk | hk
    · exact absurd (hbefore k hk a List.mem_cons_self) (lt_asymm hlt)
    · exact (List.mem_cons.mp hk).resolve_left (ne_of_gt hlt)
  cases after with
  | nil =>
      constructor
      · intro h
        cases h
      · rintro ⟨hb, hlt, -⟩
        cases hbehind b hb hlt
  | cons k after =>
      have hleast := (List.pairwise_cons.mp hafter).1
      have hk : k ∈ before ++ a :: k :: after := by simp
      have hak : a < k := ha k List.mem_cons_self
      constructor
      · intro h
        cases h
        refine ⟨hk, hak, fun k' hk' hbetween => ?_⟩
        rcases List.mem_cons.mp (hbehind k' hk' hbetween.1) with rfl | hmem
        · exact lt_irrefl _ hbetween.2
        · exact lt_asymm hbetween.2 (hleast k' hmem)
      · rintro ⟨hb, hlt, hnone⟩
        rcases List.mem_cons.mp (hbehind b hb hlt) with rfl | hmem
        · rfl
        · exact absurd ⟨hak, hleast b hmem⟩ (hnone k hk)

end Layout
