import Mathlib.Data.List.Forall2

/-! A partial function on every element of a list. `List.mapM` in `Option` succeeds exactly if the
function is defined on each element, and then the result belongs to the list element by element. -/

namespace MapM

variable {α β γ : Type*} {f : α → Option β} {l : List α} {l' : List β}

theorem eq_some_iff : l.mapM f = some l' ↔ List.Forall₂ (fun x y => f x = some y) l l' := by
  induction l generalizing l' with
  | nil =>
      rw [List.forall₂_nil_left_iff, List.mapM_nil]
      exact ⟨fun h => (Option.some.inj h).symm, fun h => congrArg some h.symm⟩
  | cons x l ih =>
      simp only [List.mapM_cons, Option.bind_eq_bind, Option.pure_def, Option.bind_eq_some_iff,
        Option.some.injEq, List.forall₂_cons_left_iff, ih]
      constructor
      · rintro ⟨y, hy, ys, hys, rfl⟩
        exact ⟨y, ys, hy, hys, rfl⟩
      · rintro ⟨y, ys, hy, hys, rfl⟩
        exact ⟨y, hy, ys, hys, rfl⟩

theorem exists_of_forall (h : ∀ x ∈ l, ∃ y, f x = some y) : ∃ l', l.mapM f = some l' := by
  induction l with
  | nil => exact ⟨[], rfl⟩
  | cons x l ih =>
      obtain ⟨⟨y, hy⟩, hrest⟩ := List.forall_mem_cons.mp h
      obtain ⟨ys, hys⟩ := ih hrest
      exact ⟨y :: ys, eq_some_iff.mpr (.cons hy (eq_some_iff.mp hys))⟩

/-- The function may leave every element as it is. -/
theorem eq_self {f : α → Option α} (h : ∀ x ∈ l, f x = some x) : l.mapM f = some l :=
  eq_some_iff.mpr (List.forall₂_same.mpr h)

theorem map_congr (hf : l.mapM f = some l') {g : β → γ} {h : α → γ}
    (hstep : ∀ x y, f x = some y → g y = h x) : l'.map g = l.map h := by
  induction eq_some_iff.mp hf with
  | nil => rfl
  | cons hxy hrest ih =>
      rw [List.map_cons, List.map_cons, hstep _ _ hxy, ih (eq_some_iff.mpr hrest)]

theorem length_eq (h : l.mapM f = some l') : l'.length = l.length :=
  (eq_some_iff.mp h).length_eq.symm

theorem mem_iff (h : l.mapM f = some l') {y : β} : y ∈ l' ↔ ∃ x ∈ l, f x = some y := by
  induction eq_some_iff.mp h with
  | nil => simp
  | cons hxy hrest ih =>
      rw [List.mem_cons, ih (eq_some_iff.mpr hrest), List.exists_mem_cons_iff, hxy,
        Option.some.injEq, eq_comm]

theorem forall_mem (h : l.mapM f = some l') {P : β → Prop} (hstep : ∀ x y, f x = some y → P y) :
    ∀ y ∈ l', P y := by
  intro y hy
  obtain ⟨x, -, hxy⟩ := (mem_iff h).mp hy
  exact hstep x y hxy

theorem forall_mem_iff (h : l.mapM f = some l') {P : β → Prop} {Q : α → Prop}
    (hstep : ∀ x y, f x = some y → (P y ↔ Q x)) : (∀ y ∈ l', P y) ↔ ∀ x ∈ l, Q x := by
  have hmap := map_congr h fun x y hxy => propext (hstep x y hxy)
  have hall : (∀ p ∈ l'.map P, p) ↔ ∀ p ∈ l.map Q, p := by rw [hmap]
  rwa [List.forall_mem_map, List.forall_mem_map] at hall

/-- A list that belongs to the arguments belongs to the results. -/
theorem forall₂_iff_zip {P : γ → β → Prop} {S Q : γ → α → Prop} {k : List γ}
    (h : l.mapM f = some l') (hS : List.Forall₂ S k l)
    (hstep : ∀ z x y, S z x → f x = some y → (P z y ↔ Q z x)) :
    List.Forall₂ P k l' ↔ ∀ p ∈ k.zip l, Q p.1 p.2 := by
  induction hS generalizing l' with
  | nil =>
      cases eq_some_iff.mp h
      simp
  | cons hzx hrest ih =>
      cases eq_some_iff.mp h with
      | cons hxy hys =>
          rw [List.forall₂_cons, List.zip_cons_cons, List.forall_mem_cons, hstep _ _ _ hzx hxy,
            ih (eq_some_iff.mpr hys)]

end MapM
