import UserspaceBypass.TranslateAssist

/-! `normal.py`: purification of operands and the translation of an ordinary instruction. The
translator's state is the register map, the registers already masked in this block, the heap of
constants, and the number of calls of `conflict_resolve` so far, which selects the pop order of the
next one. -/

namespace UserspaceBypass

structure TransState where
  regMap : RegMap
  checked : List ExprId
  heap : Heap
  calls : Nat

/-- What a run of the translator cannot choose: the pop order of every call, and whether making a
constant that already exists saves its value again. -/
structure World where
  order : Nat → PopOrder
  resave : Bool

/-- The pop order of `PopOrder.standard`, with constants saved again when they are made again. -/
def World.standard : World := ⟨fun _ => .standard, true⟩

/-- The state at the start of a block. -/
def TransState.atBlock (t : TransState) : TransState :=
  { t with regMap := blockInit, checked := [] }

/-- A translation step: emitted text and new state, or a Python exception. -/
abbrev Trans := TransState → Option (List Asm × TransState)

/-- `f` then `g`, with the texts joined. -/
def Trans.andThen (f g : Trans) : Trans := fun t =>
  (f t).bind fun r => (g r.2).map fun r' => (r.1 ++ r'.1, r'.2)

/-- The partial dictionary `mem_addr` fills in. -/
structure AddrParts where
  regs : List ExprId
  im : Option ExprInt
  mul : Option (ExprInt × ExprId)

mutual
/-- An odd scale is made even in place, in the constant node itself, and its register added once
more as a base. -/
def memAddr : Addr → AddrParts → Heap → AddrParts × Heap
  | .id r, res, heap => ({ res with regs := res.regs ++ [r] }, heap)
  | .int n, res, heap => ({ res with im := some n }, heap)
  | .add args, res, heap => memAddrs args res heap
  | .times (.id r) (.int n), res, heap =>
      if res.mul.isSome then (res, heap)
      else if heap n % 2 = 1 then
        ({ res with regs := res.regs ++ [r], mul := some (n, r) },
          Function.update heap n (heap n - 1))
      else ({ res with mul := some (n, r) }, heap)
  | .times _ _, res, heap => (res, heap)
  | .op, res, heap => (res, heap)

def memAddrs : List Addr → AddrParts → Heap → AddrParts × Heap
  | [], res, heap => (res, heap)
  | arg :: args, res, heap =>
      let r := memAddr arg res heap
      memAddrs args r.1 r.2
end

/-- `arg_purify`; the constants of the result are still nodes. -/
def argPurify : Expr → Heap → Arg × Heap
  | .op _, heap => (.empty, heap)
  | .mem size segm ptr, heap =>
      let r := memAddr ptr { regs := (segm.map ExprId.seg).toList, im := none, mul := none } heap
      (.mem { sz := size, regs := r.1.regs, im := r.1.im, mul := r.1.mul }, r.2)
  | .id r, heap => (.reg r, heap)
  | .int n, heap => (.int n, heap)
  | .dict d, heap => (.mem d, heap)
  | .loc _, heap => (.none, heap)

def purifyArgs : List Expr → Heap → List Arg × Heap
  | [], heap => ([], heap)
  | e :: es, heap =>
      let r := argPurify e heap
      let rs := purifyArgs es r.2
      (r.1 :: rs.1, rs.2)

def ExprInt.printed (heap : Heap) (n : ExprInt) : ExprInt := { n with arg := heap n }

/-- The argument with the numbers its constants print as. -/
def Arg.printed (heap : Heap) : Arg → Arg
  | .mem d => .mem { d with
      im := d.im.map (ExprInt.printed heap)
      mul := d.mul.map fun t => (t.1.printed heap, t.2) }
  | .int n => .int (n.printed heap)
  | arg => arg

def extractReg : Arg → List ExprId
  | .mem d => d.regs ++ (d.mul.map Prod.snd).toList
  | .reg r => [r]
  | _ => []

def conflictRegs (args : List Arg) : List Virt :=
  (args.flatMap extractReg).flatMap extractConflictRegs

def endsInP (r : ExprId) : Bool := r.name.toList.getLast? == some 'P'

def memBase : Arg → List ExprId
  | .mem d => if d.regs.length > 1 then [] else d.regs.filter fun r => !endsInP r
  | _ => []

def getMemBase (name : String) (args : List Arg) : List ExprId :=
  if name = "LEA" then [] else args.flatMap memBase

/-- The bases of this line that no earlier line of the block has masked. -/
def toCheckRegs (name : String) (args : List Arg) (checked : List ExprId) : List ExprId :=
  (getMemBase name args).dedup.filter fun r => r ∉ checked

/-- `checked_regs` after the line: a first operand that is a register is discarded, then the new
bases are added. -/
def checkedAfter (name : String) (args : List Arg) (checked : List ExprId) : List ExprId :=
  (match args with
    | .reg r :: _ => checked.filter fun r' => r' ≠ r
    | _ => checked) ++ toCheckRegs name args checked

/-- The masks that survive: one register, and only where flags may be clobbered. -/
def checkInst (toCheck : List ExprId) (canCheck : Bool) : List Asm :=
  if toCheck.length > 1 ∨ canCheck = false then [] else toCheck.flatMap fun r => [.shl r, .shr r]

/-- `make_inst`; an operand size outside `sz2pfx` is a `KeyError`. -/
def makeInst (name : String) (args : List Arg) : Option Asm :=
  if args.all fun
    | .mem d => d.sz ∈ sz2pfx
    | _ => true
  then some (.inst name args) else none

/-- `process_normal` from its purified arguments on. -/
def processPurified (world : World) (name : String) (args : List Arg) (offset : Nat)
    (canCheck : Bool) : Trans := fun t =>
  let toCheck := toCheckRegs name args t.checked
  let checked := checkedAfter name args t.checked
  let conflict := conflictRegs args
  if conflict = [] then
    (makeInst name args).map fun inst =>
      (checkInst toCheck canCheck ++ [inst], { t with checked := checked })
  else do
    let (pre, m) ← conflictResolve (world.order t.calls) t.regMap conflict offset
    let args ← applyMap m args
    let toCheck ← toCheck.mapM (applyMapReg m)
    let (post, m) := recoverStable (releaseIP m)
    let inst ← makeInst name args
    return (pre ++ checkInst toCheck canCheck ++ [inst] ++ post,
      { t with regMap := m, checked := checked, calls := t.calls + 1 })

def processNormal (world : World) (name : String) (args : List Expr) (offset : Nat)
    (canCheck : Bool) : Trans := fun t =>
  let r := purifyArgs args t.heap
  processPurified world name (r.1.map (Arg.printed r.2)) offset canCheck { t with heap := r.2 }

end UserspaceBypass
