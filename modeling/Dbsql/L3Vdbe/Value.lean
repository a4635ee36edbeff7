import Dbsql.L1Encoding.IndexKey
/-!
# Values on the stack and the opcodes that compute with them (vdbe.c:241-412, 1030-1890)

`Val` is what the flags of a stack entry declare valid. An integer literal keeps its text
beside the number (`OP_Integer` with P3), so an `int` may carry one. The arithmetic of
`double` and of `long_double_t`, casts to `int` and shifts are the machine's (`Arith`).

An opcode that would trap, or whose `DBSQL_ASSERT` fails, has no result. `OP_Not`,
`OP_BitNot` and the bit operators assert that the entry they write into is `MEM_Int` and
nothing else; `__entity_to_int` leaves an integer that has a text as it is.

Results:
* `opAnd_eq`, `opOr_eq`: the tables of `OP_And` and `OP_Or` are three-valued logic.
* `Cmp.negate_test`: the opcode `__expr_if_false` picks is the complement.
-/
namespace Dbsql.L3
open Dbsql.L1
open List (compareLex)

/-! ## Strings -/

/-- A C string: the bytes before the first NUL. -/
def cstr (z : Bytes) : Bytes := z.takeWhile (· ≠ 0)

/-- `strcmp`, up to the size of a result that is not 0. -/
def strcmp (a b : Bytes) : CInt := BitVec.ofInt 32 (ordInt (compareLex compare (cstr a) (cstr b)))

/-- `i < 10 || (i == 10 && memcmp(num, "2147483647", 10) <= 0)`. -/
def fits32 (ds : Bytes) : Bool :=
  ds.length < 10 || (ds.length = 10 && compareLex compare ds (ascii "2147483647") ≠ .gt)

/-- `__dbsql_atoi` (dbsql_atoi.c:33-56): the value written to `*num`, and the result. -/
def dbsqlAtoi (str : Bytes) : CInt × Bool :=
  let ds := (skipSign str).takeWhile isdigit
  let v := readInt ds
  (if peek str = 45 then -v else v,
    peek (skipDigits (skipSign str)) = 0 && 0 < ds.length && fits32 ds)

/-- `__str_int_in32b` (str.c:649-662). -/
def strIntIn32b (num : Bytes) : Bool := fits32 ((skipSign num).takeWhile isdigit)

/-! ## Numbers -/

/-- The arithmetic of the machine. -/
structure Arith (L : Type) where
  ld : LongDouble L
  fadd : Double → Double → Double
  fsub : Double → Double → Double
  fmul : Double → Double → Double
  fdiv : Double → Double → Double
  /-- `(int)r` -/
  toInt : Double → CInt
  shl : CInt → CInt → CInt
  shr : CInt → CInt → CInt

/-- A machine that does not round. -/
def exactMachine : Arith ℚ where
  ld := exactArith
  fadd := exactOp (· + ·)
  fsub := exactOp (· - ·)
  fmul := exactOp (· * ·)
  fdiv := exactOp (· / ·)
  toInt r := match r.toRat with
    | some q => .ofInt 32 (q.num.tdiv q.den)
    | none => .intMin 32
  shl a b := a <<< (b.toNat % 32)
  shr a b := a.sshiftRight (b.toNat % 32)
where
  /-- On finite values only. -/
  exactOp (op : ℚ → ℚ → ℚ) (r r' : Double) : Double :=
    match r.toRat, r'.toRat with
    | some q, some q' => .fin (op q q')
    | _, _ => .nan

def Double.isZero : Double → Bool
  | .fin q => q = 0
  | .negZero => true
  | _ => false

/-- `-r`. -/
def Double.neg : Double → Double
  | .fin q => if q = 0 then .negZero else .fin (-q)
  | .negZero => .fin 0
  | .inf neg => .inf !neg
  | .nan => .nan

/-- `<` of `double`. -/
def Double.lt : Double → Double → Bool
  | .nan, _ | _, .nan => false
  | .inf neg, .inf neg' => neg && !neg'
  | .inf neg, _ => neg
  | _, .inf neg => !neg
  | r, r' => r.toRat.getD 0 < r'.toRat.getD 0

section
variable {L : Type} (ar : Arith L)

/-- `__str_numeric_cmp` (str.c:599-635) of strings that are not null. -/
def strNumericCmp (left right : Bytes) : CInt :=
  if strIsNumeric (cstr left) then
    if strIsNumeric (cstr right) then
      let rl := dbsqlAtof ar.ld left
      let rr := dbsqlAtof ar.ld right
      if Double.lt rl rr then -1 else if Double.lt rr rl then 1 else 0
    else -1
  else if strIsNumeric (cstr right) then 1
  else strcmp left right

end

/-! ## Stack entries -/

/-- A stack entry: `MEM_Null`, `MEM_Int` with or without `MEM_Str`, `MEM_Real`, `MEM_Str`.
A text is stored with its terminator. -/
inductive Val
  | null
  | int (i : CInt) (z : Option Bytes)
  | real (r : Double)
  | str (z : Bytes)
  deriving DecidableEq, Repr

def Val.toMem : Val → Mem
  | .null => { i := 0, flags := { null := true }, r := .nan, z := [] }
  | .int i none => { i := i, flags := { int := true }, r := .nan, z := [] }
  | .int i (some z) => { i := i, flags := { int := true, str := true, static := true }, r := .nan, z := z }
  | .real r => { i := 0, flags := { real := true }, r := r, z := [] }
  | .str z => { i := 0, flags := { str := true, dyn := true }, r := .nan, z := z }

/-- `__entity_as_string`: the text with its terminator. -/
def Val.text (v : Val) : Bytes := v.toMem.text

def Val.isNull : Val → Bool
  | .null => true
  | _ => false

/-- An integer that has a text. -/
def Val.spelled : Val → Bool
  | .int _ (some _) => true
  | _ => false

/-- An argument of a function: the null pointer for NULL. -/
def Val.arg (v : Val) : Option Bytes := if v.isNull then none else some v.text

section
variable {L : Type} (ar : Arith L)

/-- `__entity_to_int` (vdbe.c:371-386). -/
def Val.toInt : Val → CInt
  | .null => 0
  | .int i _ => i
  | .real r => ar.toInt r
  | .str z => (dbsqlAtoi z).1

/-- `__entity_to_real` (vdbe.c:397-412). -/
def Val.toReal : Val → Double
  | .null => .fin 0
  | .int i _ => .fin i.toInt
  | .real r => r
  | .str z => dbsqlAtof ar.ld z

/-! ## Arithmetic -/

inductive ArithOp | add | subtract | multiply | divide | remainder
  deriving DecidableEq, Repr

/-- The smallest `int` over -1 traps. -/
def traps (b a : CInt) : Bool := b = BitVec.intMin 32 && a = -1

def intArith (op : ArithOp) (b a : CInt) : Option Val :=
  match op with
  | .add => some (.int (b + a) none)
  | .subtract => some (.int (b - a) none)
  | .multiply => some (.int (b * a) none)
  | .divide => if a = 0 then some .null else if traps b a then none else some (.int (b.sdiv a) none)
  | .remainder =>
    if a = 0 then some .null else if traps b a then none else some (.int (b.srem a) none)

def realArith (op : ArithOp) (b a : Double) : Option Val :=
  match op with
  | .add => some (.real (ar.fadd b a))
  | .subtract => some (.real (ar.fsub b a))
  | .multiply => some (.real (ar.fmul b a))
  | .divide => if Double.isZero a then some .null else some (.real (ar.fdiv b a))
  | .remainder =>
    let ia := ar.toInt a
    let ib := ar.toInt b
    if ia = 0 then some .null
    else if traps ib ia then none
    else some (.real (.fin (ib.srem ia).toInt))

/-- `OP_Add` … `OP_Remainder` (vdbe.c:1134-1207). -/
def opArith (op : ArithOp) (nos tos : Val) : Option Val :=
  if tos.isNull || nos.isNull then some .null
  else
    match tos, nos with
    | .int a _, .int b _ => intArith op b a
    | _, _ => realArith ar op (nos.toReal ar) (tos.toReal ar)

inductive BitOp | bitAnd | bitOr | shiftLeft | shiftRight
  deriving DecidableEq, Repr

def BitOp.eval (op : BitOp) (a b : CInt) : CInt :=
  match op with
  | .bitAnd => a &&& b
  | .bitOr => a ||| b
  | .shiftLeft => ar.shl a b
  | .shiftRight => ar.shr a b

/-- `OP_BitAnd` … `OP_ShiftRight` (vdbe.c:1286-1317), with or without the assertion on the
entry below the top. -/
def opBit (asserted : Bool) (op : BitOp) (nos tos : Val) : Option Val :=
  if tos.isNull || nos.isNull then some .null
  else if asserted && nos.spelled then none
  else some (.int (op.eval ar (tos.toInt ar) (nos.toInt ar)) none)

/-- `OP_Negative` (vdbe.c:1832-1858). -/
def opNegative : Val → Val
  | .null => .null
  | .int i _ => .int (-i) none
  | v => .real (Double.neg (v.toReal ar))

/-- `OP_Not` (vdbe.c:1866-1874), with or without its assertion. -/
def opNot (asserted : Bool) (v : Val) : Option Val :=
  if v.isNull then some .null
  else if asserted && v.spelled then none
  else some (.int (if v.toInt ar = 0 then 1 else 0) none)

/-- `OP_BitNot` (vdbe.c:1882-1890), with or without its assertion. -/
def opBitNot (asserted : Bool) (v : Val) : Option Val :=
  if v.isNull then some .null
  else if asserted && v.spelled then none
  else some (.int (~~~ (v.toInt ar)) none)

/-- `OP_Concat` (vdbe.c:1030-1086) of two entries, without separator. -/
def opConcat (nos tos : Val) : Val :=
  if nos.isNull || tos.isNull then .null
  else .str (nos.text.dropLast ++ tos.text.dropLast ++ [0])

/-! ## Comparison -/

/-- The six comparisons in the order of their opcodes. -/
inductive Cmp | eq | ne | lt | le | gt | ge
  deriving DecidableEq, Repr

/-- `c == 0`, … -/
def Cmp.test : Cmp → CInt → Bool
  | .eq, c => c = 0
  | .ne, c => c ≠ 0
  | .lt, c => c.toInt < 0
  | .le, c => c.toInt ≤ 0
  | .gt, c => 0 < c.toInt
  | .ge, c => 0 ≤ c.toInt

/-- The value `c` of `OP_Eq` … `OP_Ge` (vdbe.c:1536-1589) for entries that are not NULL. -/
def numCmp (nos tos : Val) : CInt :=
  let cmp := strNumericCmp ar nos.text tos.text
  match nos, tos with
  | .int b _, .int a _ => b - a
  | .str z, .int a _ => if (dbsqlAtoi z).2 then (dbsqlAtoi z).1 - a else cmp
  | .int b _, .str z => if (dbsqlAtoi z).2 then b - (dbsqlAtoi z).1 else cmp
  | _, _ => cmp

/-- The value `c` of `OP_StrEq` … `OP_StrGe` (vdbe.c:1701-1768). -/
def textCmp (nos tos : Val) : CInt := strcmp nos.text tos.text

/-- Whether a comparison holds; unknown when an operand is NULL. -/
def compare3 (text : Bool) (op : Cmp) (nos tos : Val) : Option Bool :=
  if tos.isNull || nos.isNull then none
  else some (op.test (if text then textCmp nos tos else numCmp ar nos tos))

/-! ## Truth values -/

/-- A value as a condition: NULL is unknown. -/
def Val.truth (v : Val) : Option Bool := if v.isNull then none else some (v.toInt ar ≠ 0)

end

/-- 1, 0 or NULL. -/
def Val.ofTruth : Option Bool → Val
  | none => .null
  | some true => .int 1 none
  | some false => .int 0 none

/-- Conjunction of truth values. -/
def and3 : Option Bool → Option Bool → Option Bool
  | some false, _ | _, some false => some false
  | some true, some true => some true
  | _, _ => none

/-- Disjunction of truth values. -/
def or3 : Option Bool → Option Bool → Option Bool
  | some true, _ | _, some true => some true
  | some false, some false => some false
  | _, _ => none

/-- Negation of a truth value. -/
def not3 (b : Option Bool) : Option Bool := b.map (! ·)

/-- `0==TRUE, 1==FALSE, 2==UNKNOWN or NULL`. -/
def truthCode : Option Bool → Nat
  | some true => 0
  | some false => 1
  | none => 2

/-- What `OP_And` and `OP_Or` push for a code. -/
def ofTruthCode (v1 : Nat) : Val := if v1 = 2 then .null else .int (if v1 = 0 then 1 else 0) none

section
variable {L : Type} (ar : Arith L)

/-- `OP_And` (vdbe.c:1782-1818). -/
def opAnd (nos tos : Val) : Val :=
  ofTruthCode ([0, 1, 2, 1, 1, 1, 2, 1, 2].getD (truthCode (tos.truth ar) * 3 + truthCode (nos.truth ar)) 0)

/-- `OP_Or` (vdbe.c:1782-1818). -/
def opOr (nos tos : Val) : Val :=
  ofTruthCode ([0, 0, 0, 0, 1, 2, 0, 2, 2].getD (truthCode (tos.truth ar) * 3 + truthCode (nos.truth ar)) 0)

/-- The table of `OP_And` is conjunction. -/
theorem opAnd_eq (nos tos : Val) : opAnd ar nos tos = .ofTruth (and3 (nos.truth ar) (tos.truth ar)) := by
  unfold opAnd
  rcases nos.truth ar with _ | _ | _ <;> rcases tos.truth ar with _ | _ | _ <;> rfl

/-- The table of `OP_Or` is disjunction. -/
theorem opOr_eq (nos tos : Val) : opOr ar nos tos = .ofTruth (or3 (nos.truth ar) (tos.truth ar)) := by
  unfold opOr
  rcases nos.truth ar with _ | _ | _ <;> rcases tos.truth ar with _ | _ | _ <;> rfl

theorem truth_ofTruth (b : Option Bool) : (Val.ofTruth b).truth ar = b := by
  rcases b with _ | _ | _ <;> rfl

/-- `OP_Not` negates truth values. -/
theorem truth_opNot {asserted : Bool} {v w : Val} (h : opNot ar asserted v = some w) :
    w.truth ar = not3 (v.truth ar) := by
  unfold opNot at h
  unfold Val.truth
  split at h
  · rename_i hn
    cases h
    rw [if_pos hn]
    rfl
  · rename_i hn
    split at h
    · cases h
    · cases h
      rw [if_neg hn]
      change some (decide ((if v.toInt ar = 0 then (1 : CInt) else 0) ≠ 0)) = _
      by_cases h0 : v.toInt ar = 0
      · rw [if_pos h0, h0]
        rfl
      · rw [if_neg h0, not3, Option.map_some, decide_eq_true h0]
        rfl

end

/-! ## Complements -/

/-- The comparison `__expr_if_false` emits. -/
def Cmp.negate : Cmp → Cmp
  | .lt => .ge
  | .le => .gt
  | .gt => .le
  | .ge => .lt
  | .ne => .eq
  | .eq => .ne

theorem Cmp.negate_test (op : Cmp) (c : CInt) : op.negate.test c = !op.test c := by
  have hlt : decide (c.toInt < 0) = !decide (0 ≤ c.toInt) := by
    by_cases h : 0 ≤ c.toInt
    · simp [h]
    · simp [h, Int.not_le.1 h]
  have hgt : decide (0 < c.toInt) = !decide (c.toInt ≤ 0) := by
    by_cases h : c.toInt ≤ 0
    · simp [h]
    · simp [h, Int.not_le.1 h]
  cases op <;> simp [Cmp.negate, Cmp.test, hlt, hgt]

theorem compare3_negate {L : Type} (ar : Arith L) (text : Bool) (op : Cmp) (nos tos : Val) :
    compare3 ar text op.negate nos tos = not3 (compare3 ar text op nos tos) := by
  unfold compare3
  split
  · rfl
  · simp [Cmp.negate_test, not3]

end Dbsql.L3
