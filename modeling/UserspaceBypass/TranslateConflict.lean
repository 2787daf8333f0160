import UserspaceBypass.TranslateText

/-! `conflict.py`: which virtual register each of R12 to R15 holds, and the moves that change it.
Python sets are popped and iterated in an arbitrary order; every call of `conflict_resolve` takes
its orders from a `PopOrder`, and results about the translator hold for all of them. -/

namespace UserspaceBypass

/-- `reg_map`; `none` is the empty string. -/
abbrev RegMap := Phys → Option Virt

def stableRegs : List Virt := [.t1, .t2, .sp, .bp]

def Virt.isTmp (v : Virt) : Bool := v == .t1 || v == .t2

/-- `orig_stable_map` -/
def origStable : Virt → Option Phys
  | .sp => some .p13
  | .bp => some .p12
  | _ => none

/-- `sz2sfx` -/
def sz2sfx : Nat → Option Width
  | 64 => some .q
  | 32 => some .d
  | 16 => some .w
  | 8 => some .b
  | _ => none

def blockInit : RegMap
  | .p15 => none
  | .p14 => none
  | .p13 => some .sp
  | .p12 => some .bp

/-- `inv_map`; of two keys with one value the later one stays. -/
def invMap (m : RegMap) (v : Virt) : Option Phys := Phys.all.reverse.find? fun p => m p = some v

def releaseIP (m : RegMap) : RegMap :=
  match invMap m .ip with
  | some p => Function.update m p none
  | none => m

/-- The line `release_conflict` emits for one physical register. -/
def saveResident (m : RegMap) (p : Phys) : Option Asm :=
  match m p with
  | none => none
  | some v =>
      if v ∈ stableRegs then none
      else if v ≠ .fs ∧ v ≠ .gs then some (.store (some v) p) else none

def releaseConflict (m : RegMap) (blockEnd : Bool) : List Asm :=
  if blockEnd then Phys.all.filterMap (saveResident m) else []

def releaseTmpConflict (m : RegMap) : RegMap :=
  fun p => (m p).filter fun v => !v.isTmp

/-- The keys a register name is looked up under: `key[0:2]`, and `key[1:3]` of a longer name. -/
def possibleKeys (key : String) : List (List Char) :=
  slice key 0 2 :: if key.length > 2 then [slice key 1 3] else []

def extractConflictRegs (r : ExprId) : List Virt := (possibleKeys r.name).filterMap specialReg

/-- The orders in which one call of `conflict_resolve` pops or iterates its four sets. -/
structure PopOrder where
  iter : List Virt → List Virt
  idle : List Phys → List Phys
  victim : List Phys → List Phys
  stable : List Phys → List Phys
  iter_perm : ∀ l, (iter l).Perm l
  idle_perm : ∀ l, (idle l).Perm l
  victim_perm : ∀ l, (victim l).Perm l
  stable_perm : ∀ l, (stable l).Perm l

/-- The order in which the sets are written down here. -/
def PopOrder.standard : PopOrder where
  iter := id
  idle := id
  victim := id
  stable := id
  iter_perm _ := .refl _
  idle_perm _ := .refl _
  victim_perm _ := .refl _
  stable_perm _ := .refl _

/-- The three sets a physical register is taken from, in the order they will be popped. -/
structure Pools where
  idle : List Phys
  victim : List Phys
  stable : List Phys

/-- The next register, and whether its content has to be saved; `none` is the `KeyError` of a pop
from an empty set. -/
def Pools.pop : Pools → Option (Phys × Bool × Pools)
  | ⟨p :: idle, victim, stable⟩ => some (p, false, ⟨idle, victim, stable⟩)
  | ⟨[], p :: victim, stable⟩ => some (p, true, ⟨[], victim, stable⟩)
  | ⟨[], [], p :: stable⟩ => some (p, true, ⟨[], [], stable⟩)
  | ⟨[], [], []⟩ => none

/-- The move that brings `v` into `p`. -/
def fill (offset : Nat) (v : Virt) (p : Phys) : List Asm :=
  if v = .ip then [.movabs p offset]
  else if v ∈ stableRegs then []
  else [.load p v]

def resolveLoop (offset : Nat) : List Virt → Pools → RegMap → Option (List Asm × RegMap)
  | [], _, m => some ([], m)
  | v :: vs, pools, m =>
      match pools.pop with
      | none => none
      | some (p, evict, rest) =>
          let spill := if evict then [Asm.store (m p) p] else []
          (resolveLoop offset vs rest (Function.update m p (some v))).map fun r =>
            (spill ++ fill offset v p ++ r.1, r.2)

def idleRegs (m : RegMap) : List Phys := Phys.all.filter fun p => m p = none

def possibleVictims (m : RegMap) (conflict : List Virt) : List Phys :=
  Phys.all.filter fun p =>
    match m p with
    | none => false
    | some v => v ∉ conflict ∧ v ∉ stableRegs

/-- The filter compares the physical name with the virtual names of the conflict set. -/
def possibleStableVictims (m : RegMap) (conflict : List Virt) : List Phys :=
  Phys.all.filter fun p =>
    match m p with
    | none => false
    | some v => p.homonym ∉ conflict ∧ v ∈ stableRegs ∧ !v.isTmp

def toBeResolved (m : RegMap) (conflict : List Virt) : List Virt :=
  specialRegs.filter fun v => v ∈ conflict ∧ ∀ p ∈ Phys.all, m p ≠ some v

def conflictResolve (order : PopOrder) (m : RegMap) (conflict : List Virt) (offset : Nat) :
    Option (List Asm × RegMap) :=
  resolveLoop offset (order.iter (toBeResolved m conflict))
    ⟨order.idle (idleRegs m), order.victim (possibleVictims m conflict),
      order.stable (possibleStableVictims m conflict)⟩ m

/-- One round of `recover_stable`; `before` is the map that `inv_map` was taken from. -/
def recoverOne (before m : RegMap) (v : Virt) : List Asm × RegMap :=
  match origStable v with
  | none => ([], m)
  | some p =>
      if invMap before v = none then ([.store (m p) p, .load p v], Function.update m p (some v))
      else ([], m)

def recoverStable (m : RegMap) : List Asm × RegMap :=
  let sp := recoverOne m m .sp
  let bp := recoverOne m sp.2 .bp
  (sp.1 ++ bp.1, bp.2)

/-- `apply_map` on one register; `none` is the `KeyError` of a register that is not resident. -/
def applyMapReg (m : RegMap) (r : ExprId) : Option ExprId :=
  let renamed (v : Virt) : Option ExprId :=
    (invMap m v).bind fun p => (sz2sfx r.size).map p.reg
  match if r.name.length > 2 then specialReg (slice r.name 1 3) else none with
  | some v => renamed v
  | none =>
      match specialReg (slice r.name 0 2) with
      | some v => renamed v
      | none => some r

def applyMapMul (m : RegMap) : Option (ExprInt × ExprId) → Option (Option (ExprInt × ExprId))
  | none => some none
  | some (scale, r) => (applyMapReg m r).map fun r' => some (scale, r')

def applyMapMem (m : RegMap) (d : MemDict) : Option MemDict := do
  let regs ← d.regs.mapM (applyMapReg m)
  let mul ← applyMapMul m d.mul
  return { d with regs := regs, mul := mul }

def applyMapArg (m : RegMap) : Arg → Option Arg
  | .mem d => (applyMapMem m d).map .mem
  | .reg r => (applyMapReg m r).map .reg
  | arg => some arg

def applyMap (m : RegMap) (args : List Arg) : Option (List Arg) := args.mapM (applyMapArg m)

/-- `'R' + reverse_reg(reg_map, arg)` for a register argument. -/
def reverseReg (m : RegMap) (r : ExprId) : Option String :=
  match specialReg (slice r.name 1 3) with
  | some v => (invMap m v).map fun p => "R" ++ p.homonym.key
  | none => some ("R" ++ String.ofList (slice r.name 1 3))

end UserspaceBypass
