import Mathlib.Tactic

/-! Dead variables of a straight-line program. An instruction reads its variables before it writes
them; a variable is dead at a position if it is overwritten from there on before anything reads it.
What a program observes does not depend on dead variables. -/

namespace Liveness

/-- The variables an instruction reads and those it overwrites. -/
structure Access (ι ν : Type*) where
  reads : ι → ν → Bool
  writes : ι → ν → Bool

namespace Access

variable {ι ν β σ : Type*}

/-- From position `i` on, `v` is overwritten before anything reads it. -/
def Overwritten (a : Access ι ν) (l : List ι) (i : Nat) (v : ν) : Prop :=
  ∃ j x, i ≤ j ∧ l[j]? = some x ∧ a.writes x v = true ∧
    ∀ k y, i ≤ k → k ≤ j → l[k]? = some y → a.reads y v = false

def dead (a : Access ι ν) (v : ν) : List ι → Bool
  | [] => false
  | x :: l => !a.reads x v && (a.writes x v || a.dead v l)

theorem dead_cons {a : Access ι ν} {v : ν} {x : ι} {l : List ι} :
    a.dead v (x :: l) = true ↔
      a.reads x v = false ∧ (a.writes x v = true ∨ a.dead v l = true) := by
  simp [dead]

theorem overwritten_zero_iff (a : Access ι ν) (l : List ι) (v : ν) :
    a.Overwritten l 0 v ↔ a.dead v l = true := by
  induction l with
  | nil => simp [Overwritten, dead]
  | cons x l ih =>
      rw [dead_cons, ← ih]
      constructor
      · rintro ⟨j, y, -, hj, hwrite, hreads⟩
        refine ⟨hreads 0 x le_rfl (Nat.zero_le j) rfl, ?_⟩
        cases j with
        | zero =>
            cases hj
            exact Or.inl hwrite
        | succ j =>
            exact Or.inr ⟨j, y, Nat.zero_le j, hj, hwrite, fun k z _ hk hz =>
              hreads (k + 1) z (Nat.zero_le _) (Nat.succ_le_succ hk) hz⟩
      · rintro ⟨hx, hwrite | ⟨j, y, -, hj, hwrite, hreads⟩⟩
        · refine ⟨0, x, le_rfl, rfl, hwrite, fun k z _ hk hz => ?_⟩
          obtain rfl := Nat.le_zero.mp hk
          cases hz
          exact hx
        · refine ⟨j + 1, y, Nat.zero_le _, hj, hwrite, fun k z _ hk hz => ?_⟩
          cases k with
          | zero =>
              cases hz
              exact hx
          | succ k => exact hreads k z (Nat.zero_le k) (Nat.succ_le_succ_iff.mp hk) hz

theorem overwritten_iff (a : Access ι ν) (l : List ι) (i : Nat) (v : ν) :
    a.Overwritten l i v ↔ a.dead v (l.drop i) = true := by
  rw [← overwritten_zero_iff]
  constructor
  · rintro ⟨j, x, hij, hj, hwrite, hreads⟩
    refine ⟨j - i, x, Nat.zero_le _, ?_, hwrite, fun k y _ hk hy => ?_⟩
    · rw [List.getElem?_drop, Nat.add_sub_cancel' hij]
      exact hj
    · rw [List.getElem?_drop] at hy
      exact hreads (i + k) y (Nat.le_add_right i k) (by omega) hy
  · rintro ⟨j, x, -, hj, hwrite, hreads⟩
    rw [List.getElem?_drop] at hj
    refine ⟨i + j, x, Nat.le_add_right i j, hj, hwrite, fun k y hik hk hy => ?_⟩
    refine hreads (k - i) y (Nat.zero_le _) (by omega) ?_
    rw [List.getElem?_drop, Nat.add_sub_cancel' hik]
    exact hy

/-- The instructions behave as `a` says: all they do depends on the variables they read, and the
variables they do not write keep their values. -/
structure Obeys (a : Access ι ν) (step : ι → σ × (ν → β) → σ × (ν → β)) : Prop where
  rest : ∀ x s g g', (∀ v, a.reads x v = true → g v = g' v) →
    (step x (s, g)).1 = (step x (s, g')).1
  written : ∀ x s g g' v, (∀ w, a.reads x w = true → g w = g' w) → a.writes x v = true →
    (step x (s, g)).2 v = (step x (s, g')).2 v
  kept : ∀ x s g v, a.writes x v = false → (step x (s, g)).2 v = g v

/-- What the program sees: before each instruction the rest of the state, and the variables that
the instruction reads. -/
def observations (a : Access ι ν) (step : ι → σ × (ν → β) → σ × (ν → β)) :
    List ι → σ × (ν → β) → List (σ × (ν → Option β))
  | [], _ => []
  | x :: l, c =>
      (c.1, fun v => if a.reads x v then some (c.2 v) else none) ::
        a.observations step l (step x c)

/-- Two runs that differ in dead variables only see the same, and end in the same state. -/
theorem Obeys.observations_eq {a : Access ι ν} {step : ι → σ × (ν → β) → σ × (ν → β)}
    (hobey : a.Obeys step) (l : List ι) (s : σ) {g g' : ν → β}
    (h : ∀ v, a.dead v l = true ∨ g v = g' v) :
    a.observations step l (s, g) = a.observations step l (s, g') ∧
      l.foldl (fun c x => step x c) (s, g) = l.foldl (fun c x => step x c) (s, g') := by
  induction l generalizing s g g' with
  | nil =>
      have heq : g = g' := funext fun v => (h v).resolve_left (by simp [dead])
      rw [heq]
      exact ⟨rfl, rfl⟩
  | cons x l ih =>
      have hread : ∀ v, a.reads x v = true → g v = g' v := by
        intro v hv
        refine (h v).resolve_left fun hdead => ?_
        rw [(dead_cons.mp hdead).1] at hv
        cases hv
      have hrest := hobey.rest x s g g' hread
      have hnext : ∀ v, a.dead v l = true ∨ (step x (s, g)).2 v = (step x (s, g')).2 v := by
        intro v
        by_cases hw : a.writes x v = true
        · exact Or.inr (hobey.written x s g g' v hread hw)
        · rw [Bool.not_eq_true] at hw
          rw [hobey.kept x s g v hw, hobey.kept x s g' v hw]
          refine (h v).imp (fun hdead => ?_) id
          exact (dead_cons.mp hdead).2.resolve_left (by simp [hw])
      have hstep := ih (step x (s, g)).1 hnext
      have hpair : step x (s, g') = ((step x (s, g)).1, (step x (s, g')).2) := by
        rw [hrest]
      simp only [observations, List.foldl_cons]
      rw [hpair]
      refine ⟨List.cons_eq_cons.mpr ⟨?_, hstep.1⟩, hstep.2⟩
      refine Prod.ext rfl (funext fun v => ?_)
      dsimp only
      split
      · rename_i hv
        rw [hread v hv]
      · rfl

end Access

end Liveness
