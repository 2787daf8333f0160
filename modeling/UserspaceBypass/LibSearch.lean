import Mathlib.Data.Finset.Card
import Mathlib.Data.List.Basic
import Mathlib.Logic.Relation

/-! Depth-first search with a set of nodes seen so far and a state that every visit changes. The node
the search starts from is visited without being marked. On a finite graph without edges out of it the
search ends, and it visits the nodes that can be reached. -/

namespace Search

variable {α σ : Type*}

/-- One edge. -/
def Edge (next : α → Option (List α)) (a b : α) : Prop := ∃ bs, next a = some bs ∧ b ∈ bs

/-- `b` can be reached from `a`. -/
abbrev Reach (next : α → Option (List α)) : α → α → Prop := Relation.ReflTransGen (Edge next)

/-- No edge leaves the nodes. -/
def Closed (next : α → Option (List α)) (nodes : Finset α) : Prop :=
  ∀ a ∈ nodes, ∃ bs, next a = some bs ∧ ∀ b ∈ bs, b ∈ nodes

/-- What a list of visits has covered: they are new, in the graph and reachable from one of the
starts, and everything behind them has been seen. -/
structure Covers (next : α → Option (List α)) (nodes : Finset α) (starts seen visited : List α) :
    Prop where
  fresh : ∀ b ∈ visited, b ∉ seen
  inside : ∀ b ∈ visited, b ∈ nodes
  reach : ∀ b ∈ visited, ∃ a ∈ starts, Reach next a b
  behind : ∀ a ∈ visited, ∀ b, Edge next a b → b ∈ visited ∨ b ∈ seen

theorem Covers.nil (next : α → Option (List α)) (nodes : Finset α) (starts seen : List α) :
    Covers next nodes starts seen [] where
  fresh := by simp
  inside := by simp
  reach := by simp
  behind := by simp

/-- From the visits below a new node and those of the rest of a loop. -/
theorem Covers.append {next : α → Option (List α)} {nodes : Finset α} {b : α}
    {seen cs first second : List α} (hnew : b ∉ seen) (hb : b ∈ nodes)
    (hfirst : Covers next nodes [b] (b :: seen) first)
    (hedge : ∀ x, Edge next b x → x ∈ first ∨ x ∈ b :: seen)
    (hsecond : Covers next nodes cs (first.reverse ++ b :: seen) second) :
    Covers next nodes (b :: cs) seen (b :: first ++ second) := by
  refine ⟨fun x hx hseen => ?_, fun x hx => ?_, fun x hx => ?_, fun x hx y hxy => ?_⟩ <;>
    simp only [List.cons_append, List.mem_cons, List.mem_append] at hx ⊢
  · rcases hx with rfl | hx | hx
    · exact hnew hseen
    · exact hfirst.fresh x hx (List.mem_cons_of_mem _ hseen)
    · exact hsecond.fresh x hx (List.mem_append_right _ (List.mem_cons_of_mem _ hseen))
  · rcases hx with rfl | hx | hx
    · exact hb
    · exact hfirst.inside x hx
    · exact hsecond.inside x hx
  · rcases hx with rfl | hx | hx
    · exact ⟨x, Or.inl rfl, .refl⟩
    · obtain ⟨a, ha, hreach⟩ := hfirst.reach x hx
      exact ⟨a, Or.inl (List.mem_singleton.mp ha), hreach⟩
    · obtain ⟨a, ha, hreach⟩ := hsecond.reach x hx
      exact ⟨a, Or.inr ha, hreach⟩
  · have hsplit : ∀ {z}, z ∈ first ∨ z ∈ b :: seen → (z = b ∨ z ∈ first ∨ z ∈ second) ∨ z ∈ seen := by
      rintro z (hz | hz)
      · exact Or.inl (Or.inr (Or.inl hz))
      · exact (List.mem_cons.mp hz).imp_left Or.inl
    rcases hx with rfl | hx | hx
    · exact hsplit (hedge y hxy)
    · exact hsplit (hfirst.behind x hx y hxy)
    · rcases hsecond.behind x hx y hxy with hy | hy
      · exact Or.inl (Or.inr (Or.inr hy))
      · exact hsplit ((List.mem_append.mp hy).imp_left List.mem_reverse.mp)

variable [DecidableEq α]

/-- The loop over the successors of a node. -/
def each (go : α → List α × σ → Option (List α × σ)) (bs : List α) (st : List α × σ) :
    Option (List α × σ) :=
  bs.foldlM (fun st b => if b ∈ st.1 then some st else go b (b :: st.1, st.2)) st

/-- The search below one node; `none` is a node without a list of successors, or no fuel left. -/
def search (next : α → Option (List α)) (visit : σ → α → σ) :
    Nat → α → List α × σ → Option (List α × σ)
  | 0, _, _ => none
  | fuel + 1, a, st =>
      (next a).bind fun bs => each (search next visit fuel) bs (st.1, visit st.2 a)

variable {next : α → Option (List α)} {visit : σ → α → σ} {nodes : Finset α}

theorem each_visits {go : α → List α × σ → Option (List α × σ)}
    (hgo : ∀ a st st', go a st = some st' → ∃ order : List α, st'.2 = order.foldl visit st.2)
    {bs : List α} {st st' : List α × σ} (h : each go bs st = some st') :
    ∃ order : List α, st'.2 = order.foldl visit st.2 := by
  induction bs generalizing st with
  | nil =>
      cases h
      exact ⟨[], rfl⟩
  | cons b bs ih =>
      rw [each, List.foldlM_cons] at h
      obtain ⟨mid, hmid, hrest⟩ := Option.bind_eq_some_iff.mp h
      obtain ⟨rest, hrest⟩ := ih hrest
      split_ifs at hmid with hseen
      · cases hmid
        exact ⟨rest, hrest⟩
      · obtain ⟨first, hfirst⟩ := hgo b _ mid hmid
        exact ⟨first ++ rest, by rw [hrest, hfirst, List.foldl_append]⟩

/-- A search that ends has changed the state by visits, on any graph. -/
theorem search_visits {fuel : Nat} {a : α} {st st' : List α × σ}
    (h : search next visit fuel a st = some st') :
    ∃ order : List α, st'.2 = order.foldl visit st.2 := by
  induction fuel generalizing a st st' with
  | zero => cases h
  | succ fuel ih =>
      obtain ⟨bs, -, hrun⟩ := Option.bind_eq_some_iff.mp h
      obtain ⟨order, horder⟩ := each_visits (fun _ _ _ hgo => ih hgo) hrun
      exact ⟨a :: order, horder⟩

theorem card_lt_of_new {seen : List α} {b : α} (hb : b ∈ nodes) (hnew : b ∉ seen) :
    (nodes.filter (· ∉ b :: seen)).card < (nodes.filter (· ∉ seen)).card := by
  refine Finset.card_lt_card (Finset.ssubset_iff_subset_ne.mpr ⟨fun x hx => ?_, fun heq => ?_⟩)
  · obtain ⟨hx, hnot⟩ := Finset.mem_filter.mp hx
    exact Finset.mem_filter.mpr ⟨hx, fun h => hnot (List.mem_cons_of_mem _ h)⟩
  · have hmem : b ∈ nodes.filter (· ∉ seen) := Finset.mem_filter.mpr ⟨hb, hnew⟩
    rw [← heq] at hmem
    exact (Finset.mem_filter.mp hmem).2 List.mem_cons_self

theorem card_le_of_append (nodes : Finset α) (seen visited : List α) :
    (nodes.filter (· ∉ visited ++ seen)).card ≤ (nodes.filter (· ∉ seen)).card := by
  refine Finset.card_le_card fun x hx => ?_
  obtain ⟨hx, hnot⟩ := Finset.mem_filter.mp hx
  exact Finset.mem_filter.mpr ⟨hx, fun h => hnot (List.mem_append_right _ h)⟩

/-- The search from a node that is in the graph ends, with a list of what it has visited behind the
node itself. -/
def Ends (next : α → Option (List α)) (visit : σ → α → σ) (nodes : Finset α) (fuel : Nat) : Prop :=
  ∀ (a : α) (seen : List α) (s : σ), a ∈ nodes → (nodes.filter (· ∉ seen)).card < fuel →
    ∃ visited, search next visit fuel a (seen, s) =
        some (visited.reverse ++ seen, (a :: visited).foldl visit s) ∧
      Covers next nodes [a] seen visited ∧ ∀ b, Edge next a b → b ∈ visited ∨ b ∈ seen

theorem each_spec {fuel : Nat} (hends : Ends next visit nodes fuel) {bs : List α}
    (hbs : ∀ b ∈ bs, b ∈ nodes) (seen : List α) (s : σ)
    (hcard : (nodes.filter (· ∉ seen)).card ≤ fuel) :
    ∃ visited, each (search next visit fuel) bs (seen, s) =
        some (visited.reverse ++ seen, visited.foldl visit s) ∧
      Covers next nodes bs seen visited ∧ ∀ b ∈ bs, b ∈ visited ∨ b ∈ seen := by
  induction bs generalizing seen s with
  | nil => exact ⟨[], rfl, Covers.nil .., by simp⟩
  | cons b bs ih =>
      obtain ⟨hb, hrest⟩ := List.forall_mem_cons.mp hbs
      rw [each, List.foldlM_cons]
      by_cases hseen : b ∈ seen
      · obtain ⟨visited, hrun, hcovers, hall⟩ := ih hrest seen s hcard
        refine ⟨visited, ?_, ⟨hcovers.fresh, hcovers.inside, fun x hx => ?_, hcovers.behind⟩,
          List.forall_mem_cons.mpr ⟨Or.inr hseen, hall⟩⟩
        · rw [if_pos hseen]
          exact hrun
        · obtain ⟨a, ha, hreach⟩ := hcovers.reach x hx
          exact ⟨a, List.mem_cons_of_mem _ ha, hreach⟩
      · have hlt := (card_lt_of_new hb hseen).trans_le hcard
        obtain ⟨first, hfirst, hcov₁, hedge⟩ := hends b (b :: seen) s hb hlt
        have hcard' : (nodes.filter (· ∉ first.reverse ++ b :: seen)).card ≤ fuel :=
          (card_le_of_append nodes (b :: seen) first.reverse).trans hlt.le
        obtain ⟨second, hsecond, hcov₂, hall⟩ := ih hrest _ ((b :: first).foldl visit s) hcard'
        refine ⟨b :: first ++ second, ?_, hcov₁.append hseen hb hedge hcov₂, ?_⟩
        · rw [if_neg hseen, hfirst]
          simpa [each, List.foldl_append] using hsecond
        · refine List.forall_mem_cons.mpr ⟨Or.inl (by simp), fun x hx => ?_⟩
          have hx := hall x hx
          simp only [List.mem_append, List.mem_reverse, List.mem_cons, List.cons_append] at hx ⊢
          tauto

theorem search_ends (hclosed : Closed next nodes) (fuel : Nat) : Ends next visit nodes fuel := by
  induction fuel with
  | zero => exact fun a seen s _ hfuel => absurd hfuel (Nat.not_lt_zero _)
  | succ fuel ih =>
      intro a seen s ha hfuel
      obtain ⟨bs, hbs, hin⟩ := hclosed a ha
      obtain ⟨visited, hrun, hcovers, hall⟩ :=
        each_spec ih hin seen (visit s a) (Nat.lt_succ_iff.mp hfuel)
      refine ⟨visited, ?_, ⟨hcovers.fresh, hcovers.inside, fun x hx => ?_, hcovers.behind⟩, ?_⟩
      · rw [search, hbs, Option.bind_some, hrun]
        rfl
      · obtain ⟨b, hb, hreach⟩ := hcovers.reach x hx
        exact ⟨a, by simp, .head ⟨bs, hbs, hb⟩ hreach⟩
      · rintro b ⟨bs', hbs', hb⟩
        cases hbs.symm.trans hbs'
        exact hall b hb

/-- From nothing seen, the search visits exactly what can be reached. -/
theorem search_exact (hclosed : Closed next nodes) {fuel : Nat} (hfuel : nodes.card < fuel) {a : α}
    (ha : a ∈ nodes) (s : σ) :
    ∃ seen order : List α, search next visit fuel a ([], s) = some (seen, order.foldl visit s) ∧
      ∀ b, b ∈ order ↔ Reach next a b := by
  have hcard : (nodes.filter (· ∉ ([] : List α))).card < fuel := by simpa using hfuel
  obtain ⟨visited, hrun, hcovers, hedge⟩ := search_ends hclosed fuel a [] s ha hcard
  refine ⟨_, a :: visited, hrun, fun b => ⟨fun hb => ?_, fun hreach => ?_⟩⟩
  · rcases List.mem_cons.mp hb with rfl | hb
    · exact .refl
    · obtain ⟨a', ha', hreach⟩ := hcovers.reach b hb
      exact List.mem_singleton.mp ha' ▸ hreach
  · induction hreach with
    | refl => exact List.mem_cons_self
    | tail _ hxy ih =>
        refine List.mem_cons_of_mem _ ?_
        rcases List.mem_cons.mp ih with rfl | hx
        · exact (hedge _ hxy).resolve_right List.not_mem_nil
        · exact (hcovers.behind _ hx _ hxy).resolve_right List.not_mem_nil

end Search
