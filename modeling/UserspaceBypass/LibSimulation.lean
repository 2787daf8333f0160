import Mathlib.Computability.StateTransition

/-! Simulation between two deterministic machines. `f` imitates `g`: each step of `f` is matched by
steps of `g`, or by none if a rank goes down, until `f` halts. Then every point of a run of `f`
belongs to a point of the run of `g`, and `f` halts on the way of a run of `g` that ends. A run that
ends is a list of points, so that what holds along it can be computed. -/

namespace Simulation

open StateTransition Relation

variable {σ τ : Type*}

/-- The next step of `f` from `x`, next to `y`: there is none because `f` has halted, or because `g`
comes to a point where it fails; or it is taken and matched. -/
inductive Matched (f : σ → Option σ) (g : τ → Option τ) (R : σ → τ → Prop) (halted : σ → Prop)
    (fails : τ → Prop) (rank : σ → Nat) (x : σ) (y : τ) : Prop
  | halted (h : halted x)
  | fails {y' : τ} (stuck : f x = none) (run : Reaches g y y') (h : fails y')
  | step {x' : σ} {y' : τ} (step : f x = some x') (run : Reaches₁ g y y') (related : R x' y')
  | stutter {x' : σ} (step : f x = some x') (related : R x' y) (lower : rank x' < rank x)

section

variable {f : σ → Option σ} {g : τ → Option τ} {R : σ → τ → Prop} {halted : σ → Prop}
  {fails : τ → Prop} {rank : σ → Nat}

/-- Every point of a run of `f` belongs to a point of the run of `g`. -/
theorem reaches_related (hmatch : ∀ x y, R x y → Matched f g R halted fails rank x y)
    (hhalt : ∀ x, halted x → f x = none) {x x' : σ} {y : τ} (hR : R x y) (h : Reaches f x x') :
    ∃ y', Reaches g y y' ∧ R x' y' := by
  induction h with
  | refl => exact ⟨y, .refl, hR⟩
  | tail _ hstep ih =>
      obtain ⟨y₁, hrun, hR₁⟩ := ih
      cases hmatch _ _ hR₁ with
      | halted h => cases (hhalt _ h).symm.trans hstep
      | fails stuck => cases stuck.symm.trans hstep
      | step step run related =>
          cases step.symm.trans hstep
          exact ⟨_, hrun.trans run.to_reflTransGen, related⟩
      | stutter step related =>
          cases step.symm.trans hstep
          exact ⟨y₁, hrun, related⟩

/-- A run of `g` that has ended at `z` is behind every point it has come through. -/
theorem reaches_end {y y' z : τ} (hz : g z = none) (hend : Reaches g y z) (h : Reaches g y y') :
    Reaches g y' z := by
  rcases reaches_total h hend with h | h
  · exact h
  · rcases h.cases_head with rfl | ⟨w, hw, -⟩
    · exact .refl
    · cases hz.symm.trans hw

/-- At `y` the machine `f` halts, or comes to a later point of the run of `g`. -/
theorem halts_or_later (hmatch : ∀ x y, R x y → Matched f g R halted fails rank x y)
    (hfails : ∀ y, fails y → g y = none) {y z : τ} (hz : g z = none) (hgood : ¬fails z)
    (hend : Reaches g y z) {x : σ} (hR : R x y) :
    ∃ x' y', Reaches f x x' ∧ R x' y' ∧ (halted x' ∧ y' = y ∨ Reaches₁ g y y') := by
  induction hn : rank x using Nat.strong_induction_on generalizing x with
  | _ n ih =>
      subst hn
      cases hmatch x y hR with
      | halted h => exact ⟨x, y, .refl, hR, Or.inl ⟨h, rfl⟩⟩
      | fails stuck run h =>
          -- the run ends at `z` only
          have hyz := reaches_end hz hend run
          rcases hyz.cases_head with rfl | ⟨w, hw, -⟩
          · exact absurd h hgood
          · cases (hfails _ h).symm.trans hw
      | step step run related => exact ⟨_, _, .single step, related, Or.inr run⟩
      | stutter step related lower =>
          obtain ⟨x', y', hrun, hrest⟩ := ih _ lower related rfl
          exact ⟨x', y', hrun.head step, hrest⟩

/-- If the run of `g` ends without failing, `f` halts at one of its points. -/
theorem halts_of_reaches (hmatch : ∀ x y, R x y → Matched f g R halted fails rank x y)
    (hfails : ∀ y, fails y → g y = none) {z : τ} (hz : g z = none) (hgood : ¬fails z) {x : σ} {y : τ}
    (hR : R x y) (h : Reaches g y z) :
    ∃ x' y', Reaches f x x' ∧ halted x' ∧ R x' y' ∧ Reaches g y y' := by
  -- for all later points, since `f` may skip some of them
  have hall : ∀ y', Reaches g y y' → ∀ x, R x y' →
      ∃ x' y'', Reaches f x x' ∧ halted x' ∧ R x' y'' ∧ Reaches g y' y'' := by
    clear hR x
    induction h using ReflTransGen.head_induction_on with
    | refl =>
        intro y' hy' x hR
        obtain rfl : y' = z := by
          rcases hy'.cases_head with rfl | ⟨w, hw, -⟩
          · rfl
          · cases hz.symm.trans hw
        obtain ⟨x', y'', hrun, hR', ⟨hhalted, rfl⟩ | hlater⟩ :=
          halts_or_later hmatch hfails hz hgood .refl hR
        · exact ⟨x', _, hrun, hhalted, hR', .refl⟩
        · obtain ⟨w, hw, -⟩ := TransGen.head'_iff.mp hlater
          cases hz.symm.trans hw
    | head hstep hrest ih =>
        intro y' hy' x hR
        rcases hy'.cases_head with rfl | ⟨w, hw, hy'⟩
        · obtain ⟨x', y'', hrun, hR', ⟨hhalted, rfl⟩ | hlater⟩ :=
            halts_or_later hmatch hfails hz hgood (hrest.head hstep) hR
          · exact ⟨x', _, hrun, hhalted, hR', .refl⟩
          · obtain ⟨x₂, y₂, hrun₂, hhalted, hR₂, hreach⟩ := ih _ (reaches₁_fwd hlater hstep) x' hR'
            exact ⟨x₂, y₂, hrun.trans hrun₂, hhalted, hR₂, hlater.to_reflTransGen.trans hreach⟩
        · cases Option.mem_unique hstep hw
          exact ih y' hy' x hR
  exact hall y .refl x hR

/-- The points of the first `n` steps, or of all if there are no more. -/
def trace (f : σ → Option σ) : Nat → σ → List σ
  | 0, x => [x]
  | n + 1, x => x :: (f x).elim [] (trace f n)

theorem trace_ne_nil (f : σ → Option σ) (n : Nat) (x : σ) : trace f n x ≠ [] := by
  cases n <;> simp [trace]

theorem reaches_of_mem_trace {n : Nat} {x y : σ} (h : y ∈ trace f n x) : Reaches f x y := by
  induction n generalizing x with
  | zero =>
      obtain rfl := List.mem_singleton.mp h
      exact .refl
  | succ n ih =>
      rcases List.mem_cons.mp h with rfl | h
      · exact .refl
      · cases hx : f x with
        | none =>
            rw [hx] at h
            cases h
        | some x' =>
            rw [hx] at h
            exact (ih h).head hx

/-- If the last of them has no step, they are all there are. -/
theorem mem_trace_of_reaches {n : Nat} {x y z : σ} (hlast : (trace f n x).getLast? = some z)
    (hz : f z = none) (h : Reaches f x y) : y ∈ trace f n x := by
  induction n generalizing x with
  | zero =>
      cases hlast
      rcases h.cases_head with rfl | ⟨w, hw, -⟩
      · exact List.mem_singleton_self _
      · cases hz.symm.trans hw
  | succ n ih =>
      rcases h.cases_head with rfl | ⟨w, hw, hrest⟩
      · exact List.mem_cons_self
      · have hstep : f x = some w := hw
        rw [trace, hstep] at hlast ⊢
        change (x :: trace f n w).getLast? = some z at hlast
        rw [List.getLast?_cons_of_ne_nil (trace_ne_nil f n w)] at hlast
        exact List.mem_cons_of_mem _ (ih hlast hrest)

end

end Simulation
