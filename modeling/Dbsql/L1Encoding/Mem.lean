import Dbsql.L1Encoding.RowidKey
import Mathlib.Algebra.Order.Floor.Semiring
import Mathlib.Data.Rat.Floor
import Mathlib.Data.Int.Log
/-!
# Stack entries (vdbe_int.h:111-145, vdbe.c:241-268)

`Mem` is one level of the stack of the virtual machine. Its bytes `z` are the `n` bytes at
`pRec->z`, so `n` is `z.length`; a text is stored with its terminator. `asString` renders an
integer by `%d` and a double by `%.15g`; the longest such text has 22 bytes, so
`snprintf` into `zShort` cuts nothing off.
-/
namespace Dbsql.L1

/-- A C `double`: a finite value other than `-0.0` is its rational value. -/
inductive Double
  | fin (q : ℚ)
  | negZero
  | inf (neg : Bool)
  | nan
  deriving DecidableEq, Repr

/-- `mem_t.flags`, less `MEM_AggCtx`, which no stack entry carries. -/
structure Flags where
  null : Bool := false
  str : Bool := false
  int : Bool := false
  real : Bool := false
  dyn : Bool := false
  static : Bool := false
  ephem : Bool := false
  short : Bool := false
  deriving DecidableEq, Repr

/-- `mem_t`. -/
structure Mem where
  i : CInt
  flags : Flags
  r : Double
  z : Bytes
  deriving DecidableEq, Repr

/-- `pRec->n`. -/
abbrev Mem.n (m : Mem) : Nat := m.z.length

/-! ## Rendering -/

def ascii (s : String) : Bytes := s.toList.map fun c => UInt8.ofNat c.toNat

/-- `%d`. -/
def fmtD (i : CInt) : Bytes := ascii (toString i.toInt)

/-- The integer nearest to `x`, the even one of two. -/
def roundEven (x : ℚ) : Nat :=
  let f := ⌊x⌋₊
  if x - f < 1 / 2 ∨ x - f = 1 / 2 ∧ f % 2 = 0 then f else f + 1

/-- The 15 significant digits of `a > 0` and its decimal exponent after rounding. -/
def sig15 (a : ℚ) : Nat × Int :=
  let x := Int.log 10 a
  let m := roundEven (a / 10 ^ (x - 14))
  if m = 10 ^ 15 then (10 ^ 14, x + 1) else (m, x)

def stripZeros (ds : Bytes) : Bytes := (ds.reverse.dropWhile (· = 48)).reverse

/-- `.` and the fraction, or nothing. -/
def fracPart (ds : Bytes) : Bytes := if stripZeros ds = [] then [] else 46 :: stripZeros ds

/-- `%.15g` of a positive number. -/
def fmtPos (a : ℚ) : Bytes :=
  let (m, x) := sig15 a
  let ds := ascii (toString m)
  if -4 ≤ x ∧ x < 15 then
    if 0 ≤ x then ds.take (x.toNat + 1) ++ fracPart (ds.drop (x.toNat + 1))
    else 48 :: fracPart (List.replicate (-x - 1).toNat 48 ++ ds)
  else
    ds.take 1 ++ fracPart (ds.drop 1) ++ [101, if x < 0 then 45 else 43] ++
      (if x.natAbs < 10 then [48] else []) ++ ascii (toString x.natAbs)

/-- `%.15g`. -/
def fmtG15 : Double → Bytes
  | .fin q => if q = 0 then ascii "0" else if q < 0 then 45 :: fmtPos (-q) else fmtPos q
  | .negZero => ascii "-0"
  | .inf neg => ascii (if neg then "-inf" else "inf")
  | .nan => ascii "nan"

/-- `__entity_as_string` (vdbe.c:247-268). -/
def Mem.asString (stack : Mem) : Mem :=
  if stack.flags.str then stack
  else
    let text :=
      if stack.flags.real then fmtG15 stack.r
      else if stack.flags.int then fmtD stack.i
      else []
    { stack with z := text ++ [0], flags := { str := true, short := true } }

/-- The `n` bytes of `z` as a new entry: in `zShort` if they fit, else allocated. -/
def Mem.ofBytes (z : Bytes) : Mem where
  i := 0
  flags := if z.length ≤ 32 then { str := true, short := true } else { str := true, dyn := true }
  r := .nan
  z := z

/-- A value on the stack: NULL, a string, an integer or a real; the text of a string ends
with its terminator. -/
structure StackVal extends Mem where
  kind : flags.null ∨ flags.str ∨ flags.int ∨ flags.real
  terminated : flags.str = true → ∃ s, z = s ++ [0]

/-- The text of an entry that is not NULL. -/
def Mem.text (m : Mem) : Bytes := m.asString.z

theorem StackVal.text_terminated (v : StackVal) : ∃ s, v.toMem.text = s ++ [0] := by
  unfold Mem.text Mem.asString
  split
  · rename_i hs
    exact v.terminated hs
  · exact ⟨_, rfl⟩

theorem Mem.text_of_str {m : Mem} (h : m.flags.str = true) : m.text = m.z := by
  rw [Mem.text, Mem.asString, if_pos h]

end Dbsql.L1
