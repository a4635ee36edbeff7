import Dbsql.L1Encoding.Codes
import Dbsql.L1Encoding.RowidKey
import Dbsql.L5Codegen.Program
import Mathlib.Tactic.Ring
/-!
# Making a program ready (vdbe_method.c:841-929, 1239-1285)

`__vdbe_make_ready` ends the program with `OP_Halt` and takes one block of memory for six arrays: the
stack, the two arrays of texts of a row, and for each variable a pointer, a length and a flag.
`__api_bind` writes to the last three. An address is the distance from `aStack`.

The size of the block has room for `nVar` pointers, but for the length and the flag of one variable
only: the brackets end behind the pointers.

Results:
* `room_iff`: the block is large enough exactly if there is at most one variable.
* `make_ready_fits_iff`: exactly when the arrays, and what `__api_bind` writes, are inside the block.
-/
namespace Dbsql.L5.Program
open Dbsql.L1

/-! ## The code -/

/-- The sizes of `mem_t`, of a pointer and of an `int`. -/
structure Abi where
  mem : Nat
  ptr : Nat
  int : Nat
  pos : 0 < int

/-- The sizes on a 64-bit machine. -/
def lp64 : Abi := ⟨64, 8, 4, by decide⟩

inductive Magic
  | init
  | run
  | halt
  | dead
  deriving DecidableEq, Repr

/-- The value of a variable: `azVar[i]`, `anVar[i]` and `abVar[i]`. -/
structure Var where
  az : Option Bytes
  an : Int
  ab : Bool
  deriving DecidableEq, Repr

/-- `vdbe_t`, the part that a program which is ready uses; `aStack` is the size of the block. -/
structure Vm where
  prog : Vdbe
  magic : Magic
  pc : Int
  explain : Bool
  aStack : Option Nat
  zArgv : Nat
  azColName : Nat
  azVar : Nat
  anVar : Nat
  abVar : Nat
  nVar : Nat
  vars : Nat → Var

/-- The memory from `addr` on. -/
structure Region where
  addr : Nat
  size : Nat
  deriving DecidableEq, Repr

section
variable (abi : Abi)

/-- The size that is asked of `__dbsql_calloc`, for `n` levels of stack. -/
def blockSize (n nVar : Nat) : Nat := n * (abi.mem + 2 * abi.ptr) + (nVar * abi.ptr + abi.int + 1)

/-- The block and the pointers into it; `al` says whether there is memory. -/
def Vm.carve (vm : Vm) (al : Bool) (n nVar : Nat) : Vm :=
  let zArgv := n * abi.mem
  let azColName := zArgv + n * abi.ptr
  let azVar := azColName + n * abi.ptr
  let anVar := azVar + nVar * abi.ptr
  let abVar := anVar + nVar * abi.int
  { vm with
    nVar, zArgv, azColName, azVar, anVar, abVar
    aStack := if al then some (blockSize abi n nVar) else none
    vars := fun _ => ⟨none, 0, false⟩ }

variable (opHalt : Nat)

/-- The program with `OP_Halt` at its end. -/
def addHalt (vm : Vdbe) (al : Bool) : Option Vdbe :=
  if vm.nOp = 0 then (vdbeAddOp vm al opHalt 0 0).map (·.1)
  else
    match vm.aOp with
    | none => some vm
    | some slots =>
      match slots[vm.nOp - 1]? with
      | none => none
      | some o => if o.opcode ≠ opHalt then (vdbeAddOp vm al opHalt 0 0).map (·.1) else some vm

/-- `__vdbe_make_ready` (vdbe_method.c:855-929); `none` is an access outside of the program or a failed
assertion. -/
def vdbeMakeReady (vm : Vm) (alOp al : Bool) (numVar : Nat) (explain : Bool) : Option Vm :=
  if vm.magic = .init then
    (addHalt opHalt vm.prog alOp).map fun prog =>
      let vm := { vm with prog }
      let n := if explain then 10 else vm.prog.nOp
      let vm := if vm.aStack = none then vm.carve abi al n numVar else vm
      { vm with pc := 0, explain := vm.explain || explain, magic := .run }
  else none

/-- `__api_bind` (vdbe_method.c:1250-1285), with the memory that it writes to; `al` says whether there
is memory for a copy. A `len` that is negative stands for the length of the text. -/
def apiBind (vm : Vm) (i : Int) (val : Option Bytes) (len : Int) (copy al : Bool) :
    Vm × Rc × List Region :=
  if vm.magic ≠ .run ∨ vm.pc ≠ 0 then (vm, .misuse, [])
  else if i < 1 ∨ vm.nVar < i then (vm, .range, [])
  else
    let i := (i - 1).toNat
    let copy := if val = none then false else copy
    let len : Int := if val = none then 0 else len
    let len : Int := if len < 0 then (val.getD []).length + 1 else len
    let az :=
      if copy then if al then val.map fun z => (z ++ [0]).take len.toNat else (vm.vars i).az
      else val
    ({ vm with vars := Function.update vm.vars i ⟨az, len, copy⟩ }, .success,
      [⟨vm.azVar + i * abi.ptr, abi.ptr⟩, ⟨vm.abVar + i, 1⟩, ⟨vm.anVar + i * abi.int, abi.int⟩])

/-! ## What the block has room for -/

/-- The six arrays of a program that is ready, with `n` levels of stack. -/
def Vm.arrays (vm : Vm) (n : Nat) : List Region :=
  [⟨0, n * abi.mem⟩, ⟨vm.zArgv, n * abi.ptr⟩, ⟨vm.azColName, n * abi.ptr⟩,
   ⟨vm.azVar, vm.nVar * abi.ptr⟩, ⟨vm.anVar, vm.nVar * abi.int⟩, ⟨vm.abVar, vm.nVar⟩]

/-- The region is inside the block. -/
def Vm.Inside (vm : Vm) (r : Region) : Prop := ∃ size, vm.aStack = some size ∧ r.addr + r.size ≤ size

/-- The arrays are inside the block, and so is what `__api_bind` writes for a variable. -/
structure Vm.Fits (vm : Vm) (n : Nat) : Prop where
  arrays : ∀ r ∈ vm.arrays abi n, vm.Inside r
  binds : ∀ (i : Int) val len copy al, 1 ≤ i → i ≤ vm.nVar →
    ∀ r ∈ (apiBind abi vm i val len copy al).2.2, vm.Inside r

/-- A size that `size_t` has. -/
theorem blockSize_lp64 {n nVar : Nat} (hn : n < 2 ^ 31) (hv : nVar < 2 ^ 31) :
    blockSize lp64 n nVar < 2 ^ 64 := by
  simp only [blockSize, lp64]
  omega

variable {abi}

/-- The end of the last array against the size of the block. -/
theorem room_iff (n nVar : Nat) :
    n * abi.mem + n * abi.ptr + n * abi.ptr + nVar * abi.ptr + nVar * abi.int + nVar ≤
      blockSize abi n nVar ↔ nVar ≤ 1 := by
  have hn : blockSize abi n nVar =
      n * abi.mem + n * abi.ptr + n * abi.ptr + nVar * abi.ptr + (abi.int + 1) := by
    rw [blockSize]
    ring
  rw [hn]
  obtain _ | _ | nVar := nVar
  · simp
  · rw [Nat.zero_add, Nat.one_mul, Nat.one_mul]
    omega
  · -- each further variable takes a length and a flag
    have hpos := abi.pos
    rw [show (nVar + 1 + 1) * abi.int = nVar * abi.int + 2 * abi.int by ring]
    omega

/-- An element of an array is inside the array. -/
theorem element_inside {i n size : Nat} (h : i < n) : i * size + size ≤ n * size := by
  have := Nat.mul_le_mul_right size (Nat.succ_le_of_lt h)
  rwa [Nat.succ_mul] at this

/-- Whatever becomes of the fields that are no pointers into the block. -/
theorem carve_fits_iff (vm : Vm) (al : Bool) (n nVar : Nat) (pc : Int) (explain : Bool) (magic : Magic) :
    Vm.Fits abi { vm.carve abi al n nVar with pc, explain, magic } n ↔ al = true ∧ nVar ≤ 1 := by
  constructor
  · intro h
    obtain ⟨size, hsize, hle⟩ := h.arrays _ (List.mem_of_getElem? (i := 5) rfl)
    cases al with
    | false => cases hsize
    | true =>
      cases hsize
      exact ⟨rfl, (room_iff n nVar).1 hle⟩
  · rintro ⟨rfl, hle⟩
    have hroom := (@room_iff abi n nVar).2 hle
    constructor
    · intro r hr
      refine ⟨_, rfl, ?_⟩
      simp only [Vm.arrays, Vm.carve, List.mem_cons, List.not_mem_nil, or_false] at hr
      obtain rfl | rfl | rfl | rfl | rfl | rfl := hr <;> dsimp only <;> omega
    · intro i val len copy al' h1 hn r hr
      refine ⟨_, rfl, ?_⟩
      have hi : (i - 1).toNat < nVar := by
        have hn : i ≤ nVar := hn
        omega
      have hptr := @element_inside _ _ abi.ptr hi
      have hint := @element_inside _ _ abi.int hi
      unfold apiBind at hr
      split at hr
      · cases hr
      · split at hr
        · cases hr
        · simp only [Vm.carve, List.mem_cons, List.not_mem_nil, or_false] at hr
          obtain rfl | rfl | rfl := hr <;> dsimp only <;> omega

/-! ## Results -/

variable {opHalt : Nat}

/-- **The block has room for its arrays, and for what is written when a variable is bound, exactly if
there is at most one variable.** -/
theorem make_ready_fits_iff {vm vm' : Vm} {alOp al : Bool} {numVar : Nat} {explain : Bool}
    (hnew : vm.aStack = none) (h : vdbeMakeReady abi opHalt vm alOp al numVar explain = some vm') :
    vm'.Fits abi (if explain then 10 else vm'.prog.nOp) ↔ al = true ∧ numVar ≤ 1 := by
  unfold vdbeMakeReady at h
  split at h
  · obtain ⟨prog, -, rfl⟩ := Option.map_eq_some_iff.1 h
    dsimp only
    rw [if_pos hnew]
    exact carve_fits_iff { vm with prog } al _ numVar 0 (vm.explain || explain) .run
  · cases h

/-- A virtual machine with the program that has been built, before it is made ready. -/
def Vm.built (prog : Vdbe) : Vm := ⟨prog, .init, 0, false, none, 0, 0, 0, 0, 0, 0, fun _ => ⟨none, 0, false⟩⟩

theorem make_ready_fits_iff_one :
    ∃ vm', vdbeMakeReady lp64 1 (.built vdbeCreate) true true 1 false = some vm' ∧
      vm'.Fits lp64 vm'.prog.nOp := by
  obtain ⟨vm', h⟩ : ∃ vm', vdbeMakeReady lp64 1 (.built vdbeCreate) true true 1 false = some vm' := ⟨_, rfl⟩
  exact ⟨vm', h, by simpa using (make_ready_fits_iff rfl h).2 ⟨rfl, le_rfl⟩⟩

/-- Two variables: when the first is bound, its flag is written behind the end of the block, which has
101 bytes. -/
theorem make_ready_fails : ¬∀ vm', vdbeMakeReady lp64 1 (.built vdbeCreate) true true 2 false = some vm' →
    vm'.Fits lp64 vm'.prog.nOp := by
  intro hall
  have hwrite := (hall _ rfl).binds 1 (some [97]) 2 true true (by decide) (by decide) ⟨104, 1⟩
    (.tail _ (.head _))
  obtain ⟨size, hsize, hle⟩ := hwrite
  cases hsize
  exact absurd hle (by decide)

end
end Dbsql.L5.Program
