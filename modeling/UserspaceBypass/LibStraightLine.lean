import Mathlib.Data.List.Induction
import Mathlib.Logic.Function.Basic
import Mathlib.Logic.Relation

/-! Straight-line runs of a partial step: a list of instructions is executed left to right and the
run is undefined as soon as one step is. The lemmas split a run at a concatenation, relate what is
seen of the state before a run to what is seen after, and carry an invariant along a run. -/

namespace StraightLine

variable {ι κ σ τ : Type*}

/-- Execute the instructions in order. -/
def runAll (step : ι → σ → Option σ) : List ι → σ → Option σ
  | [], s => some s
  | i :: is, s => (step i s).bind (runAll step is)

@[simp] theorem runAll_nil (step : ι → σ → Option σ) (s : σ) : runAll step [] s = some s := rfl

theorem runAll_cons (step : ι → σ → Option σ) (i : ι) (is : List ι) (s : σ) :
    runAll step (i :: is) s = (step i s).bind (runAll step is) := rfl

@[simp] theorem runAll_singleton (step : ι → σ → Option σ) (i : ι) (s : σ) :
    runAll step [i] s = step i s := by
  cases h : step i s <;> simp [runAll, h]

theorem runAll_append (step : ι → σ → Option σ) (is js : List ι) (s : σ) :
    runAll step (is ++ js) s = (runAll step is s).bind (runAll step js) := by
  induction is generalizing s with
  | nil => rfl
  | cons i is ih =>
      rw [List.cons_append, runAll_cons, runAll_cons]
      cases step i s with
      | none => rfl
      | some s' => exact ih s'

/-- A run that ends splits at every concatenation. -/
theorem runAll_append_some {step : ι → σ → Option σ} {is js : List ι} {s s' : σ} :
    runAll step (is ++ js) s = some s' ↔
      ∃ mid, runAll step is s = some mid ∧ runAll step js mid = some s' := by
  rw [runAll_append, Option.bind_eq_some_iff]

/-- Every run that ends relates what is seen of the state before to what is seen of it after. -/
def Relates (step : ι → σ → Option σ) (is : List ι) (view view' : σ → τ) (R : τ → τ → Prop) : Prop :=
  ∀ s s', runAll step is s = some s' → R (view s) (view' s')

/-- Every run ends. -/
def Total (step : ι → σ → Option σ) (is : List ι) : Prop := ∀ s, ∃ s', runAll step is s = some s'

theorem Relates.append {step : ι → σ → Option σ} {is js : List ι} {view view' view'' : σ → τ}
    {R R' : τ → τ → Prop} (h : Relates step is view view' R) (h' : Relates step js view' view'' R') :
    Relates step (is ++ js) view view'' (Relation.Comp R R') := by
  intro s s' hrun
  obtain ⟨mid, hmid, hrest⟩ := runAll_append_some.mp hrun
  exact ⟨view' mid, h s mid hmid, h' mid s' hrest⟩

theorem Relates.mono {step : ι → σ → Option σ} {is : List ι} {view view' : σ → τ}
    {R R' : τ → τ → Prop} (h : Relates step is view view' R) (hR : ∀ x y, R x y → R' x y) :
    Relates step is view view' R' := fun s s' hrun => hR _ _ (h s s' hrun)

theorem total_append {step : ι → σ → Option σ} {is js : List ι} (h : Total step is)
    (h' : Total step js) : Total step (is ++ js) := by
  intro s
  obtain ⟨mid, hmid⟩ := h s
  obtain ⟨s', hs'⟩ := h' mid
  exact ⟨s', runAll_append_some.mpr ⟨mid, hmid, hs'⟩⟩

/-- An invariant of every step is an invariant of every run. -/
theorem runAll_invariant {step : ι → σ → Option σ} {inv : σ → Prop} {is : List ι}
    (hstep : ∀ i ∈ is, ∀ s s', inv s → step i s = some s' → inv s') :
    ∀ s s', inv s → runAll step is s = some s' → inv s' := by
  induction is with
  | nil =>
      intro s s' hs hrun
      cases hrun
      exact hs
  | cons i is ih =>
      intro s s' hs hrun
      obtain ⟨mid, hmid, hrest⟩ := Option.bind_eq_some_iff.mp hrun
      have hinv := hstep i List.mem_cons_self s mid hs hmid
      exact ih (fun j hj => hstep j (List.mem_cons_of_mem _ hj)) mid s' hinv hrest

/-- An invariant that may speak of the instructions executed so far. -/
theorem runAll_history {step : ι → σ → Option σ} {inv : List ι → σ → Prop} {start : σ}
    (hstart : inv [] start)
    (hstep : ∀ is i s s', runAll step is start = some s → inv is s → step i s = some s' →
      inv (is ++ [i]) s') :
    ∀ is s, runAll step is start = some s → inv is s := by
  intro is
  induction is using List.reverseRecOn with
  | nil =>
      intro s hrun
      cases hrun
      exact hstart
  | append_singleton is i ih =>
      intro s hrun
      obtain ⟨mid, hmid, hlast⟩ := runAll_append_some.mp hrun
      rw [runAll_singleton] at hlast
      exact hstep is i mid s hmid (ih mid hmid) hlast

end StraightLine
