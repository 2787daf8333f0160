import Mathlib.Data.BitVec
import UserspaceBypass.TranslateNormal

/-! What a decoded operand means, and what `mem_addr` makes of it. The meaning is taken from the
constants as they were decoded; what is printed depends on the heap. The two agree for all register
values exactly if the constants of the operand are not stale, and stale are the odd scales that
`mem_addr` has made even. -/

namespace UserspaceBypass

mutual
/-- The summands of an address. -/
def Addr.terms : Addr → List Addr
  | .add args => addrTerms args
  | arg => [arg]

def addrTerms : List Addr → List Addr
  | [] => []
  | arg :: args => arg.terms ++ addrTerms args
end

namespace Addr

def base : Addr → Option ExprId
  | .id r => some r
  | _ => none

def disp : Addr → Option ExprInt
  | .int n => some n
  | _ => none

def scaled : Addr → Option (ExprInt × ExprId)
  | .times (.id r) (.int n) => some (n, r)
  | _ => none

/-- The address as the processor computes it: registers, displacement, scale times index. -/
def value (read : ExprId → BitVec 64) (a : Addr) : BitVec 64 :=
  ((a.terms.filterMap base).map read).sum +
    ((a.terms.filterMap disp).map fun n => BitVec.ofNat 64 n.arg).sum +
    ((a.terms.filterMap scaled).map fun t => BitVec.ofNat 64 t.1.arg * read t.2).sum

/-- The addresses x86-64 can encode: registers, one displacement and one scaled index at most. -/
structure Decoded (a : Addr) : Prop where
  shape : ∀ x ∈ a.terms, x.base.isSome ∨ x.disp.isSome ∨ x.scaled.isSome
  oneDisp : (a.terms.filterMap disp).length ≤ 1
  oneScaled : (a.terms.filterMap scaled).length ≤ 1

end Addr

def segBase (read : ExprId → BitVec 64) (segm : Option Seg) : BitVec 64 :=
  segm.elim 0 fun s => read (.seg s)

/-- A printed argument that means what its operand means: a memory operand with the address of the
decoded one for all register values, an immediate with the decoded number. -/
def Expr.Denotes : Expr → Arg → Prop
  | .mem size segm ptr, arg => ∃ d, arg = .mem d ∧ d.sz = size ∧
      ∀ read, d.address read = segBase read segm + ptr.value read
  | .int n, arg => ∃ m, arg = .int m ∧ m.arg = n.arg
  | _, _ => True

def Expr.Decoded : Expr → Prop
  | .mem _ _ ptr => ptr.Decoded
  | _ => True

/-- The scale of a memory operand. -/
def Expr.scale : Expr → Option ExprInt
  | .mem _ _ ptr => (ptr.terms.filterMap Addr.scaled).head?.map Prod.fst
  | _ => none

/-- The constants that are printed as they are: displacement and immediate. -/
def Expr.constants : Expr → List ExprInt
  | .mem _ _ ptr => ptr.terms.filterMap Addr.disp
  | .int n => [n]
  | _ => []

/-- The in-place change `mem_addr` makes to a scale. -/
def Heap.bump (heap : Heap) (n : ExprInt) : Heap :=
  if heap n % 2 = 1 then Function.update heap n (heap n - 1) else heap

/-- `mem_addr` on the next summand. -/
def memTerm (r : AddrParts × Heap) (a : Addr) : AddrParts × Heap := memAddr a r.1 r.2

mutual
theorem memAddr_eq_foldl (a : Addr) (res : AddrParts) (heap : Heap) :
    memAddr a res heap = a.terms.foldl memTerm (res, heap) := by
  cases a with
  | add args => simpa only [memAddr, Addr.terms] using memAddrs_eq_foldl args res heap
  | id r => rfl
  | int n => rfl
  | times left right => rfl
  | op => rfl

theorem memAddrs_eq_foldl (args : List Addr) (res : AddrParts) (heap : Heap) :
    memAddrs args res heap = (addrTerms args).foldl memTerm (res, heap) := by
  cases args with
  | nil => rfl
  | cons arg args =>
      simp only [memAddrs, addrTerms, List.foldl_append, memAddrs_eq_foldl args,
        memAddr_eq_foldl arg]
end

/-- The base added for a scale found odd. -/
def oddBase (read : ExprId → BitVec 64) (heap : Heap) : Option (ExprInt × ExprId) → BitVec 64
  | some (n, r) => if heap n % 2 = 1 then read r else 0
  | none => 0

/-- The same as a list. -/
def oddRegs (heap : Heap) : Option (ExprInt × ExprId) → List ExprId
  | some (n, r) => if heap n % 2 = 1 then [r] else []
  | none => []

theorem sum_oddRegs (read : ExprId → BitVec 64) (heap : Heap) (t : Option (ExprInt × ExprId)) :
    ((oddRegs heap t).map read).sum = oddBase read heap t := by
  rcases t with _ | ⟨n, r⟩
  · rfl
  · simp only [oddRegs, oddBase]
    split <;> simp

theorem Addr.cases_of_shape {x : Addr} (h : x.base.isSome ∨ x.disp.isSome ∨ x.scaled.isSome) :
    (∃ r, x = .id r) ∨ (∃ n, x = .int n) ∨ ∃ r n, x = .times (.id r) (.int n) := by
  rcases h with h | h | h
  · obtain ⟨r, hr⟩ := Option.isSome_iff_exists.mp h
    unfold base at hr
    split at hr <;> cases hr
    exact Or.inl ⟨_, rfl⟩
  · obtain ⟨n, hn⟩ := Option.isSome_iff_exists.mp h
    unfold disp at hn
    split at hn <;> cases hn
    exact Or.inr (Or.inl ⟨_, rfl⟩)
  · obtain ⟨t, ht⟩ := Option.isSome_iff_exists.mp h
    unfold scaled at ht
    split at ht <;> cases ht
    exact Or.inr (Or.inr ⟨_, _, rfl⟩)

/-- The scaled index `mem_addr` takes over, unless it has one already. -/
def firstScaled (res : AddrParts) (terms : List Addr) : Option (ExprInt × ExprId) :=
  if res.mul.isSome then none else (terms.filterMap Addr.scaled).head?

/-- A second scaled index is left out. -/
theorem memTerm_filled {res : AddrParts} {t : ExprInt × ExprId} (hmul : res.mul = some t)
    (heap : Heap) (r : ExprId) (n : ExprInt) :
    memTerm (res, heap) (.times (.id r) (.int n)) = (res, heap) := by
  simp only [memTerm, memAddr, hmul, Option.isSome_some, if_true]

/-- The first scaled index is taken over. -/
theorem memTerm_first {res : AddrParts} (hmul : res.mul = none) (heap : Heap) (r : ExprId)
    (n : ExprInt) :
    memTerm (res, heap) (.times (.id r) (.int n)) =
      (⟨if heap n % 2 = 1 then res.regs ++ [r] else res.regs, res.im, some (n, r)⟩, heap.bump n) := by
  simp only [memTerm, memAddr, hmul, Option.isSome_none, Bool.false_eq_true, if_false, Heap.bump]
  split <;> rfl

/-- What `mem_addr` collects from summands it can resolve: the last displacement, the first scaled
index, all registers, and once more the index of an odd scale. -/
theorem foldl_memTerm {terms : List Addr}
    (hshape : ∀ x ∈ terms, x.base.isSome ∨ x.disp.isSome ∨ x.scaled.isSome) (res : AddrParts)
    (heap : Heap) :
    let r := terms.foldl memTerm (res, heap)
    r.1.im = (terms.filterMap Addr.disp).getLast?.or res.im ∧
      r.1.mul = res.mul.or (firstScaled res terms) ∧
      r.2 = (firstScaled res terms).elim heap (fun t => heap.bump t.1) ∧
      r.1.regs.Perm (res.regs ++ terms.filterMap Addr.base ++
        oddRegs heap (firstScaled res terms)) := by
  induction terms generalizing res heap with
  | nil => simp [firstScaled, oddRegs]
  | cons x terms ih =>
      have hrest := fun y hy => hshape y (List.mem_cons_of_mem _ hy)
      rcases Addr.cases_of_shape (hshape x List.mem_cons_self) with ⟨r, rfl⟩ | ⟨n, rfl⟩ | ⟨r, n, rfl⟩
      · obtain ⟨him, hmul, hheap, hregs⟩ := ih hrest { res with regs := res.regs ++ [r] } heap
        refine ⟨him, hmul, hheap, hregs.trans ?_⟩
        rw [List.append_assoc res.regs]
        rfl
      · obtain ⟨him, hmul, hheap, hregs⟩ := ih hrest { res with im := some n } heap
        refine ⟨him.trans ?_, hmul, hheap, hregs⟩
        simp [Addr.disp, List.getLast?_cons]
      · rw [List.foldl_cons]
        cases hmul₀ : res.mul with
        | some t =>
            rw [memTerm_filled hmul₀]
            obtain ⟨him, hmul, hheap, hregs⟩ := ih hrest res heap
            have hfirst : ∀ l, firstScaled res l = none := fun l => by simp [firstScaled, hmul₀]
            rw [hfirst] at hmul hheap hregs
            rw [hfirst]
            exact ⟨him, by rw [hmul, hmul₀], hheap, hregs⟩
        | none =>
            -- the index is taken over here; whatever follows finds `mul` filled
            let odd := oddRegs heap (some (n, r))
            have hodd : (if heap n % 2 = 1 then res.regs ++ [r] else res.regs) = res.regs ++ odd := by
              simp only [odd, oddRegs]
              split <;> simp
            have hfirst : firstScaled res (.times (.id r) (.int n) :: terms) = some (n, r) := by
              simp [firstScaled, hmul₀, Addr.scaled]
            rw [memTerm_first hmul₀, hfirst, hodd]
            obtain ⟨him, hmul, hheap, hregs⟩ :=
              ih hrest ⟨res.regs ++ odd, res.im, some (n, r)⟩ (heap.bump n)
            refine ⟨him, hmul, hheap, hregs.trans ?_⟩
            simp only [firstScaled, Option.isSome_some, if_true, oddRegs, List.append_nil,
              List.append_assoc]
            exact List.perm_append_comm.append_left res.regs

/-- The registers `mem_addr` collects, as a set. -/
theorem mem_foldl_memTerm {terms : List Addr}
    (hshape : ∀ x ∈ terms, x.base.isSome ∨ x.disp.isSome ∨ x.scaled.isSome) (res : AddrParts)
    (heap : Heap) (r : ExprId) :
    let parts := (terms.foldl memTerm (res, heap)).1
    (r ∈ parts.regs ∨ r ∈ parts.mul.map Prod.snd) ↔
      (r ∈ res.regs ∨ r ∈ res.mul.map Prod.snd) ∨
        (r ∈ terms.filterMap Addr.base ∨ r ∈ (firstScaled res terms).map Prod.snd) := by
  obtain ⟨-, hmul, -, hregs⟩ := foldl_memTerm hshape res heap
  have hodd : r ∈ oddRegs heap (firstScaled res terms) →
      r ∈ (firstScaled res terms).map Prod.snd := by
    rcases firstScaled res terms with _ | ⟨n, q⟩
    · exact fun h => absurd h List.not_mem_nil
    · simp only [oddRegs]
      split
      · simp [eq_comm]
      · simp
  have hor : r ∈ (res.mul.or (firstScaled res terms)).map Prod.snd ↔
      r ∈ res.mul.map Prod.snd ∨ r ∈ (firstScaled res terms).map Prod.snd := by
    cases hres : res.mul <;> simp [firstScaled, hres]
  simp only [hmul, hor, hregs.mem_iff, List.mem_append]
  tauto

theorem eq_toList_head? {α : Type*} {l : List α} (h : l.length ≤ 1) : l = l.head?.toList := by
  match l with
  | [] => rfl
  | [x] => rfl
  | _ :: _ :: _ => simp at h

namespace Addr

/-- The displacement with the numbers `f`. -/
def dispPart (f : ExprInt → BitVec 64) (a : Addr) : BitVec 64 :=
  (a.terms.filterMap disp).head?.elim 0 f

/-- Scale times index with the numbers `f`. -/
def scalePart (f : ExprInt → BitVec 64) (read : ExprId → BitVec 64) (a : Addr) : BitVec 64 :=
  (a.terms.filterMap scaled).head?.elim 0 fun t => f t.1 * read t.2

/-- Two affine functions of the index are equal if they agree at 0 and at 1. -/
theorem parts_eq_of (a : Addr) {f f' g g' : ExprInt → BitVec 64} {read₀ read₁ : ExprId → BitVec 64}
    (hread₀ : ∀ t ∈ (a.terms.filterMap scaled).head?, read₀ t.2 = 0)
    (hread₁ : ∀ t ∈ (a.terms.filterMap scaled).head?, read₁ t.2 = 1)
    (h₀ : a.dispPart f' + a.scalePart g' read₀ = a.dispPart f + a.scalePart g read₀)
    (h₁ : a.dispPart f' + a.scalePart g' read₁ = a.dispPart f + a.scalePart g read₁) :
    a.dispPart f' = a.dispPart f ∧ ∀ t ∈ (a.terms.filterMap scaled).head?, g' t.1 = g t.1 := by
  unfold scalePart at h₀ h₁
  cases hscaled : (a.terms.filterMap scaled).head? with
  | none =>
      rw [hscaled] at h₀
      exact ⟨by simpa using h₀, by simp⟩
  | some t =>
      rw [hscaled, Option.elim_some, Option.elim_some, hread₀ t hscaled] at h₀
      rw [hscaled, Option.elim_some, Option.elim_some, hread₁ t hscaled] at h₁
      have hzero : a.dispPart f' = a.dispPart f := by simpa using h₀
      rw [hzero, mul_one, mul_one] at h₁
      refine ⟨hzero, fun t' ht' => ?_⟩
      cases ht'
      exact add_left_cancel h₁

/-- Two affine functions of the registers agree for all register values only if they are equal. -/
theorem parts_eq_iff (a : Addr) (f f' g g' : ExprInt → BitVec 64) :
    (∀ read, a.dispPart f' + a.scalePart g' read = a.dispPart f + a.scalePart g read) ↔
      a.dispPart f' = a.dispPart f ∧
        ∀ t ∈ (a.terms.filterMap scaled).head?, g' t.1 = g t.1 := by
  constructor
  · intro h
    exact a.parts_eq_of (fun _ _ => rfl) (fun _ _ => rfl) (h fun _ => 0) (h fun _ => 1)
  · rintro ⟨hdisp, hscale⟩ read
    rw [hdisp]
    unfold scalePart
    cases hscaled : (a.terms.filterMap scaled).head? with
    | none => rfl
    | some t => rw [Option.elim_some, Option.elim_some, hscale t hscaled]

/-- The scale that is in effect: the number printed, and one more for the base that was added. -/
def printedScale (heap heap' : Heap) (n : ExprInt) : BitVec 64 :=
  BitVec.ofNat 64 (heap' n) + if heap n % 2 = 1 then 1 else 0

/-- What is printed for a memory operand, for all register values; `heap` is the heap before the
operand is purified and `heap'` the one it is printed under. -/
theorem Decoded.address_eq {ptr : Addr} (h : ptr.Decoded) (size : Nat) (segm : Option Seg)
    (heap heap' : Heap) (read : ExprId → BitVec 64) :
    ∃ d, Arg.printed heap' (argPurify (.mem size segm ptr) heap).1 = .mem d ∧ d.sz = size ∧
      d.address read = segBase read segm + ((ptr.terms.filterMap base).map read).sum +
        (ptr.dispPart (fun n => BitVec.ofNat 64 (heap' n)) +
          ptr.scalePart (printedScale heap heap') read) := by
  obtain ⟨him, hmul, -, hregs⟩ :=
    foldl_memTerm h.shape ⟨(segm.map ExprId.seg).toList, none, none⟩ heap
  refine ⟨_, rfl, rfl, ?_⟩
  simp only [memAddr_eq_foldl, MemDict.address, him, hmul, (hregs.map read).sum_eq, List.map_append,
    List.sum_append, sum_oddRegs, firstScaled, Option.isSome_none, Bool.false_eq_true, if_false,
    Option.or_none, Option.none_or]
  have hlast : (ptr.terms.filterMap disp).getLast? = (ptr.terms.filterMap disp).head? := by
    rw [eq_toList_head? h.oneDisp]
    cases (ptr.terms.filterMap disp).head? <;> rfl
  have hseg : ((segm.map ExprId.seg).toList.map read).sum = segBase read segm := by
    cases segm <;> simp [segBase]
  have hscale : oddBase read heap (ptr.terms.filterMap scaled).head? +
      ((ptr.terms.filterMap scaled).head?.elim 0 fun t => BitVec.ofNat 64 (heap' t.1) * read t.2) =
      ptr.scalePart (printedScale heap heap') read := by
    unfold scalePart
    rcases (ptr.terms.filterMap scaled).head? with _ | ⟨n, r⟩
    · simp [oddBase]
    · simp only [oddBase, printedScale, Option.elim_some]
      split <;> ring
  rw [hlast, hseg, ← hscale]
  simp only [Option.elim_map, Function.comp_def, ExprInt.printed, dispPart]
  ring

theorem Decoded.value_eq {ptr : Addr} (h : ptr.Decoded) (read : ExprId → BitVec 64) :
    ptr.value read = ((ptr.terms.filterMap base).map read).sum +
      (ptr.dispPart (fun n => BitVec.ofNat 64 n.arg) +
        ptr.scalePart (fun n => BitVec.ofNat 64 n.arg) read) := by
  have hdisp := eq_toList_head? h.oneDisp
  have hscaled := eq_toList_head? h.oneScaled
  unfold value dispPart scalePart
  generalize (ptr.terms.filterMap disp).head? = d at hdisp ⊢
  generalize (ptr.terms.filterMap scaled).head? = t at hscaled ⊢
  rw [hdisp, hscaled]
  cases d <;> cases t <;> simp [add_assoc]

theorem Decoded.denotes_iff {ptr : Addr} (h : ptr.Decoded) (size : Nat) (segm : Option Seg)
    (heap heap' : Heap) :
    (Expr.mem size segm ptr).Denotes (Arg.printed heap' (argPurify (.mem size segm ptr) heap).1) ↔
      ptr.dispPart (fun n => BitVec.ofNat 64 (heap' n)) =
          ptr.dispPart (fun n => BitVec.ofNat 64 n.arg) ∧
        ∀ t ∈ (ptr.terms.filterMap scaled).head?,
          printedScale heap heap' t.1 = BitVec.ofNat 64 t.1.arg := by
  rw [← parts_eq_iff ptr (fun n => BitVec.ofNat 64 n.arg) _ (fun n => BitVec.ofNat 64 n.arg)]
  constructor
  · rintro ⟨d, hd, -, hall⟩ read
    obtain ⟨d', hd', -, haddr⟩ := h.address_eq size segm heap heap' read
    obtain rfl := Arg.mem.inj (hd.symm.trans hd')
    have heq := hall read
    rw [haddr, h.value_eq, add_assoc] at heq
    exact add_left_cancel (add_left_cancel heq)
  · intro hall
    obtain ⟨d, hd, hsz, -⟩ := h.address_eq size segm heap heap' fun _ => 0
    refine ⟨d, hd, hsz, fun read => ?_⟩
    obtain ⟨d', hd', -, haddr⟩ := h.address_eq size segm heap heap' read
    obtain rfl := Arg.mem.inj (hd.symm.trans hd')
    rw [haddr, h.value_eq, hall read, add_assoc]

end Addr

/-- The stale constants after an operand: an odd scale joins them. -/
def Expr.spoil (e : Expr) (stale : Finset ExprInt) : Finset ExprInt :=
  match e.scale with
  | some n => if n.arg % 2 = 1 then insert n stale else stale
  | none => stale

/-- A heap in which exactly the stale constants print one too low. -/
structure Heap.Matches (heap : Heap) (stale : Finset ExprInt) : Prop where
  odd : ∀ n ∈ stale, n.arg % 2 = 1
  low : ∀ n ∈ stale, heap n = n.arg - 1
  same : ∀ n, n ∉ stale → heap n = n.arg

theorem Heap.matches_fresh : Heap.fresh.Matches ∅ where
  odd n hn := by simp at hn
  low n hn := by simp at hn
  same n _ := rfl

namespace Heap.Matches

variable {heap heap' : Heap} {stale stale' : Finset ExprInt} {n : ExprInt} {e : Expr}

theorem eq_arg_iff (h : heap.Matches stale) : heap n = n.arg ↔ n ∉ stale := by
  refine ⟨fun heq hn => ?_, h.same n⟩
  have hodd := h.odd n hn
  have hlow := h.low n hn
  omega

theorem odd_iff (h : heap.Matches stale) : heap n % 2 = 1 ↔ n.arg % 2 = 1 ∧ n ∉ stale := by
  by_cases hn : n ∈ stale
  · have hodd := h.odd n hn
    have hlow := h.low n hn
    simp only [hn, not_true_eq_false, and_false, iff_false]
    omega
  · simp only [h.same n hn, hn, not_false_eq_true, and_true]

theorem bump (h : heap.Matches stale) :
    (heap.bump n).Matches (if n.arg % 2 = 1 then insert n stale else stale) := by
  by_cases hodd : n.arg % 2 = 1
  · rw [if_pos hodd]
    have hother : ∀ m, m ≠ n → heap.bump n m = heap m := by
      intro m hm
      unfold Heap.bump
      split
      · rw [Function.update_of_ne hm]
      · rfl
    have hself : heap.bump n n = n.arg - 1 := by
      by_cases hn : n ∈ stale
      · rw [Heap.bump, if_neg (mt h.odd_iff.mp fun hboth => hboth.2 hn), h.low n hn]
      · rw [Heap.bump, if_pos (h.odd_iff.mpr ⟨hodd, hn⟩), Function.update_self, h.same n hn]
    refine ⟨?_, ?_, ?_⟩
    · intro m hm
      rcases Finset.mem_insert.mp hm with rfl | hm
      · exact hodd
      · exact h.odd m hm
    · intro m hm
      by_cases hmn : m = n
      · rw [hmn, hself]
      · rw [hother m hmn, h.low m (Finset.mem_of_mem_insert_of_ne hm hmn)]
    · intro m hm
      rw [Finset.mem_insert, not_or] at hm
      rw [hother m hm.1, h.same m hm.2]
  · rw [if_neg hodd, Heap.bump, if_neg (mt h.odd_iff.mp fun hboth => hodd hboth.1)]
    exact h

theorem argPurify (h : heap.Matches stale) (hdec : e.Decoded) :
    (argPurify e heap).2.Matches (e.spoil stale) := by
  cases e with
  | mem size segm ptr =>
      obtain ⟨-, -, hheap, -⟩ :=
        foldl_memTerm hdec.shape ⟨(segm.map ExprId.seg).toList, none, none⟩ heap
      simp only [UserspaceBypass.argPurify, memAddr_eq_foldl, hheap, firstScaled, Expr.spoil,
        Expr.scale, Option.isSome_none, Bool.false_eq_true, if_false]
      cases (ptr.terms.filterMap Addr.scaled).head? with
      | none => exact h
      | some t => exact h.bump
  | _ => exact h

end Heap.Matches

theorem ofNat_pred_ne {n : Nat} (h : n % 2 = 1) : BitVec.ofNat 64 (n - 1) ≠ BitVec.ofNat 64 n := by
  intro heq
  have hmod := congrArg BitVec.toNat heq
  simp only [BitVec.toNat_ofNat] at hmod
  omega

theorem Heap.Matches.ofNat_eq_iff {heap : Heap} {stale : Finset ExprInt} {n : ExprInt}
    (h : heap.Matches stale) : BitVec.ofNat 64 (heap n) = BitVec.ofNat 64 n.arg ↔ n ∉ stale := by
  refine ⟨fun heq hn => ?_, fun hn => by rw [h.same n hn]⟩
  rw [h.low n hn] at heq
  exact ofNat_pred_ne (h.odd n hn) heq

/-- The scale and the base added for it make the decoded scale, unless it was stale before. -/
theorem scale_eq_iff {heap heap' : Heap} {stale stale' : Finset ExprInt} {n : ExprInt}
    (h : heap.Matches stale) (h' : heap'.Matches stale')
    (hsub : (if n.arg % 2 = 1 then insert n stale else stale) ⊆ stale') :
    Addr.printedScale heap heap' n = BitVec.ofNat 64 n.arg ↔ n ∉ stale := by
  unfold Addr.printedScale
  by_cases hodd : n.arg % 2 = 1
  · rw [if_pos hodd] at hsub
    have hlow := h'.low n (hsub (Finset.mem_insert_self n stale))
    by_cases hn : n ∈ stale
    · rw [if_neg (mt h.odd_iff.mp fun hboth => hboth.2 hn), hlow]
      simpa [hn] using ofNat_pred_ne hodd
    · rw [if_pos (h.odd_iff.mpr ⟨hodd, hn⟩), hlow]
      have hsucc : n.arg - 1 + 1 = n.arg := by omega
      simp only [hn, not_false_eq_true, iff_true]
      rw [← hsucc, BitVec.ofNat_add, Nat.add_sub_cancel]
      rfl
  · have hn' : n ∉ stale' := fun hn => hodd (h'.odd n hn)
    rw [if_neg (mt h.odd_iff.mp fun hboth => hodd hboth.1), h'.same n hn']
    simpa using fun hn => hodd (h.odd n hn)

/-- **Printed operands.** An operand purified under `heap` and printed under `heap'` means what was
decoded exactly if its scale was not stale before and its other constants are not stale after. -/
theorem Expr.denotes_iff {e : Expr} (hdec : e.Decoded) {heap heap' : Heap}
    {stale stale' : Finset ExprInt} (h : heap.Matches stale) (h' : heap'.Matches stale')
    (hsub : e.spoil stale ⊆ stale') :
    e.Denotes (Arg.printed heap' (argPurify e heap).1) ↔
      (∀ n ∈ e.scale, n ∉ stale) ∧ ∀ n ∈ e.constants, n ∉ stale' := by
  cases e with
  | mem size segm ptr =>
      have hptr : ptr.Decoded := hdec
      rw [hptr.denotes_iff size segm heap heap', and_comm]
      refine and_congr ?_ ?_
      · simp only [spoil, scale] at hsub ⊢
        cases hscaled : (ptr.terms.filterMap Addr.scaled).head? with
        | none => simp
        | some t =>
            rw [hscaled] at hsub
            simpa using scale_eq_iff h h' hsub
      · rw [constants, eq_toList_head? hptr.oneDisp]
        unfold Addr.dispPart
        cases (ptr.terms.filterMap Addr.disp).head? with
        | none => simp
        | some n => simpa using h'.ofNat_eq_iff
  | int n =>
      simp only [Denotes, argPurify, Arg.printed, ExprInt.printed, scale, constants, Arg.int.injEq,
        exists_eq_left', List.mem_singleton, forall_eq]
      simpa using h'.eq_arg_iff
  | _ => simp [Denotes, scale, constants]

end UserspaceBypass
