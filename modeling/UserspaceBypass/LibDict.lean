import Mathlib.Data.List.Basic
import Mathlib.Data.List.Dedup
import Mathlib.Data.List.Nodup

/-! Dictionaries that keep the order of insertion, as lists of pairs with distinct keys. A dictionary
of lists is grown by adding an empty entry for a key that has none, and by appending to an entry. A
set becomes a list in an order that is its own. -/

namespace Dict

variable {α β : Type*}

def keys (d : List (α × β)) : List α := d.map Prod.fst

theorem mem_keys {d : List (α × β)} {k : α} {v : β} (h : (k, v) ∈ d) : k ∈ keys d :=
  List.mem_map_of_mem h

/-- Changing the values but not the keys. -/
theorem keys_map {d : List (α × β)} {f : α × β → α × β} (hf : ∀ e, (f e).1 = e.1) :
    keys (d.map f) = keys d := by
  rw [keys, keys, List.map_map]
  exact List.map_congr_left fun e _ => hf e

/-- A new key at the end. -/
theorem nodup_concat {d : List (α × β)} (hd : (keys d).Nodup) {k : α} (hk : k ∉ keys d) :
    (keys d ++ [k]).Nodup := by
  refine List.nodup_append.mpr ⟨hd, List.nodup_singleton k, fun a ha b hb heq => hk ?_⟩
  rw [← List.mem_singleton.mp hb, ← heq]
  exact ha

variable [DecidableEq α]

def get (d : List (α × β)) (k : α) : Option β := (d.find? fun e => e.1 = k).map Prod.snd

/-- `d[k] = v` -/
def set (d : List (α × β)) (k : α) (v : β) : List (α × β) :=
  if k ∈ keys d then d.map fun e => if e.1 = k then (k, v) else e else d ++ [(k, v)]

/-- `if k not in d: d[k] = []` -/
def ensure (d : List (α × List β)) (k : α) : List (α × List β) :=
  if k ∈ keys d then d else d ++ [(k, [])]

/-- The list under a key. -/
def entries (d : List (α × List β)) (k : α) : List β := (get d k).getD []

/-- `d[k].append(x)`, with an empty entry made first if there is none. -/
def push (d : List (α × List β)) (k : α) (x : β) : List (α × List β) :=
  (ensure d k).map fun e => if e.1 = k then (k, e.2 ++ [x]) else e

theorem mem_of_get {d : List (α × β)} {k : α} {v : β} (h : get d k = some v) : (k, v) ∈ d := by
  obtain ⟨e, he, rfl⟩ := Option.map_eq_some_iff.mp h
  have hkey : e.1 = k := by simpa using List.find?_some he
  rw [← hkey]
  exact List.mem_of_find?_eq_some he

theorem get_of_mem {d : List (α × β)} (hd : (keys d).Nodup) {k : α} {v : β} (h : (k, v) ∈ d) :
    get d k = some v := by
  induction d with
  | nil => cases h
  | cons e d ih =>
      rw [keys, List.map_cons, List.nodup_cons] at hd
      rw [get, List.find?_cons]
      rcases List.mem_cons.mp h with rfl | h
      · simp
      · have hne : e.1 ≠ k := by
          rintro rfl
          exact hd.1 (mem_keys h)
        rw [decide_eq_false hne]
        exact ih hd.2 h

theorem get_eq_none_iff {d : List (α × β)} {k : α} : get d k = none ↔ k ∉ keys d := by
  rw [get, Option.map_eq_none_iff, List.find?_eq_none, keys, List.mem_map, not_exists]
  simp only [decide_eq_true_eq, not_and]

theorem exists_get {d : List (α × β)} {k : α} (h : k ∈ keys d) : ∃ v, get d k = some v :=
  Option.ne_none_iff_exists'.mp fun hnone => get_eq_none_iff.mp hnone h

theorem get_append (d d' : List (α × β)) (k : α) :
    get (d ++ d') k = (get d k).or (get d' k) := by
  simp only [get, List.find?_append]
  cases d.find? fun e => e.1 = k <;> rfl

theorem get_map {d : List (α × β)} {f : α × β → α × β} (hf : ∀ e, (f e).1 = e.1) (k : α) :
    get (d.map f) k = (get d k).map fun v => (f (k, v)).2 := by
  induction d with
  | nil => rfl
  | cons e d ih =>
      simp only [get, List.map_cons, List.find?_cons, hf e] at ih ⊢
      by_cases hk : e.1 = k
      · subst hk
        simp
      · simpa [hk] using ih

theorem keys_set (d : List (α × β)) (k : α) (v : β) :
    keys (set d k v) = if k ∈ keys d then keys d else keys d ++ [k] := by
  unfold set
  split_ifs
  · refine keys_map fun e => ?_
    split_ifs with he
    · exact he.symm
    · rfl
  · rw [keys, List.map_append]
    rfl

theorem nodup_set {d : List (α × β)} (hd : (keys d).Nodup) (k : α) (v : β) :
    (keys (set d k v)).Nodup := by
  rw [keys_set]
  split_ifs with hk
  · exact hd
  · exact nodup_concat hd hk

theorem mem_keys_set {d : List (α × β)} {k k' : α} {v : β} :
    k' ∈ keys (set d k v) ↔ k' ∈ keys d ∨ k' = k := by
  rw [keys_set]
  split_ifs with hk
  · refine ⟨Or.inl, fun h => h.elim id ?_⟩
    rintro rfl
    exact hk
  · rw [List.mem_append, List.mem_singleton]

section Lists

variable (d : List (α × List β)) (k : α)

theorem mem_keys_ensure {k' : α} : k' ∈ keys (ensure d k) ↔ k' ∈ keys d ∨ k' = k := by
  unfold ensure
  split_ifs with hk
  · refine ⟨Or.inl, fun h => h.elim id ?_⟩
    rintro rfl
    exact hk
  · simp [keys]

theorem nodup_ensure (hd : (keys d).Nodup) : (keys (ensure d k)).Nodup := by
  unfold ensure
  split_ifs with hk
  · exact hd
  · rw [keys, List.map_append]
    exact nodup_concat hd hk

theorem entries_ensure (k' : α) : entries (ensure d k) k' = entries d k' := by
  unfold ensure entries
  split_ifs with hk
  · rfl
  · rw [get_append]
    cases hget : get d k' with
    | some v => rfl
    | none => by_cases hkk : k = k' <;> simp [get, hkk]

theorem keys_push (x : β) : keys (push d k x) = keys (ensure d k) := by
  refine keys_map fun e => ?_
  split_ifs with he
  · exact he.symm
  · rfl

theorem entries_push (x : β) (k' : α) :
    entries (push d k x) k' = if k' = k then entries d k ++ [x] else entries d k' := by
  have hpush : get (push d k x) k' =
      (get (ensure d k) k').map fun v => if k' = k then v ++ [x] else v := by
    rw [push, get_map]
    · refine congrArg (fun f => Option.map f _) (funext fun v => ?_)
      split_ifs <;> rfl
    · intro e
      split_ifs with he
      · exact he.symm
      · rfl
  rw [← entries_ensure d k k', entries, hpush]
  split_ifs with hk
  · subst hk
    obtain ⟨v, hv⟩ := exists_get ((mem_keys_ensure d k').mpr (Or.inr rfl))
    rw [← entries_ensure d k' k', entries, hv]
    rfl
  · rw [entries]
    cases get (ensure d k) k' <;> rfl

/-- A list of pairs entered one after another. -/
theorem entries_foldl_push (pairs : List (α × β)) :
    entries (pairs.foldl (fun d p => push d p.1 p.2) d) k =
      entries d k ++ (pairs.filter fun p => p.1 = k).map Prod.snd := by
  induction pairs generalizing d with
  | nil => simp
  | cons p pairs ih =>
      rw [List.foldl_cons, ih, entries_push, List.filter_cons]
      by_cases hp : p.1 = k
      · simp [hp]
      · have hne : k ≠ p.1 := fun h => hp h.symm
        simp [hp, hne]

theorem mem_keys_foldl_push (pairs : List (α × β)) :
    k ∈ keys (pairs.foldl (fun d p => push d p.1 p.2) d) ↔ k ∈ keys d ∨ k ∈ pairs.map Prod.fst := by
  induction pairs generalizing d with
  | nil => simp
  | cons p pairs ih =>
      rw [List.foldl_cons, ih, keys_push, mem_keys_ensure, List.map_cons, List.mem_cons, or_assoc]

theorem nodup_foldl_push (pairs : List (α × β)) (hd : (keys d).Nodup) :
    (keys (pairs.foldl (fun d p => push d p.1 p.2) d)).Nodup := by
  induction pairs generalizing d with
  | nil => exact hd
  | cons p pairs ih =>
      refine ih _ ?_
      rw [keys_push]
      exact nodup_ensure d p.1 hd

end Lists

/-- Entries set one after another. -/
theorem mem_keys_foldl_set (d es : List (α × β)) (k : α) :
    k ∈ keys (es.foldl (fun d e => set d e.1 e.2) d) ↔ k ∈ keys d ∨ k ∈ keys es := by
  induction es generalizing d with
  | nil => simp [keys]
  | cons e es ih =>
      rw [List.foldl_cons, ih, mem_keys_set, keys, keys, keys, List.map_cons, List.mem_cons, or_assoc]

theorem nodup_foldl_set (es : List (α × β)) {d : List (α × β)} (hd : (keys d).Nodup) :
    (keys (es.foldl (fun d e => set d e.1 e.2) d)).Nodup := by
  induction es generalizing d with
  | nil => exact hd
  | cons e es ih => exact ih (nodup_set hd e.1 e.2)

end Dict

/-- The list a set is turned into. -/
structure SetOrder (α : Type*) where
  list : List α → List α
  mem_list : ∀ l x, x ∈ list l ↔ x ∈ l
  nodup_list : ∀ l, (list l).Nodup

/-- The order of the last occurrences. -/
def SetOrder.dedup {α : Type*} [DecidableEq α] : SetOrder α where
  list := List.dedup
  mem_list _ _ := List.mem_dedup
  nodup_list := List.nodup_dedup
