import Dbsql.L3Vdbe.RowMachine
import Dbsql.L3Vdbe.SqlCompare
import Dbsql.L5Codegen.InLoop
import Mathlib.Logic.Lemmas
/-!
# Scans of a range of rowids (cg_where.c:561-631, 1001-1065)

Of the terms that compare the rowid, the last one that bounds it from below gives the row to start
at, by `OP_ForceInt` and `OP_MoveTo`, and the last one that bounds it from above ends the scan, by
`OP_Ge` or `OP_Gt`. Neither is tested again in the loop. The other terms are.

Where no row has the integer that the scan starts from, `OP_Recno` pushes it for the first row all
the same. The opcodes of the test subtract integers, go by the text of a `double`, and do not jump
where the bound is NULL.

Results:
* `passes_iff`: when the test lets a rowid pass.
* `rangeScan_iff`: when the scan passes once over each row with both terms true, and over nothing
  else.
-/
namespace Dbsql.L5.RangeScan
open Dbsql.Core Dbsql.L1 Dbsql.L2 Dbsql.L3
open Dbsql.L3.Row (recnoVal)
open Dbsql.L5.InLoop (Pass passOf)

/-! ## Terms -/

inductive Ineq | lt | le | gt | ge
  deriving DecidableEq, Repr

/-- A term with the rowid on one side, and the value of the other. -/
structure Term where
  op : Ineq
  /-- `idxLeft == cur` -/
  left : Bool
  v : Val
  terminated : ∀ z, v = .str z → Terminated z

/-- `op == TK_LT || op == TK_GT`. -/
def Term.strict (e : Term) : Bool := e.op = .lt ∨ e.op = .gt

/-- The term is for `direct_lt[i]`. -/
def Term.isLt (e : Term) : Bool :=
  if e.left then e.op = .le ∨ e.op = .lt else e.op = .ge ∨ e.op = .gt

/-- The term is for `direct_gt[i]`. -/
def Term.isGt (e : Term) : Bool :=
  if e.left then e.op = .ge ∨ e.op = .gt else e.op = .le ∨ e.op = .lt

/-- `direct_lt[i]`: each term replaces the one before. -/
def directLt (ts : List Term) : Option Term := (ts.filter (·.isLt)).getLast?

/-- `direct_gt[i]`. -/
def directGt (ts : List Term) : Option Term := (ts.filter (·.isGt)).getLast?

/-! ## The code of the scan -/

section
variable {L : Type} (ar : Arith L) (t : Btree) (brk : Int) (junk : MinMax.Junk)

/-- `OP_ForceInt` and `OP_MoveTo`, or `OP_Rewind`: the cursor and whether to jump to `brk`. -/
def start (gt : Option Term) (pC : Cursor) : Cursor × Bool :=
  match gt with
  | some e =>
    match opForceInt ar e.strict e.v with
    | some i => opMoveTo t pC false brk (.int i)
    | none => (pC, true)
  | none =>
    let pC := opRewind t pC
    (pC, pC.nullRow && decide (0 < brk))

/-- `test_op`, with P1 0: whether to jump to `brk`. -/
def testOp (e : Term) (tos : Val) : Bool :=
  (compare3 ar false (if e.strict then .ge else .gt) tos e.v).getD false

/-- `OP_Recno`, `OP_MemLoad` and `test_op`. -/
def test (lt : Option Term) (pC : Cursor) : Cursor × Bool :=
  match lt with
  | some e =>
    let (pC, out) := opRecno t pC (store .big junk.v)
    (pC, testOp ar e (recnoVal out))
  | none => (pC, false)

/-- The test, a pass, and `OP_Next`. -/
def loop (lt : Option Term) : Nat → Cursor → List Pass
  | 0, _ => []
  | fuel + 1, pC =>
    let (pC, jump) := test ar t junk lt pC
    if jump then []
    else
      let (pC', again) := opNext t pC false
      passOf t pC junk :: if again then loop lt fuel pC' else []

/-- The passes of a scan. -/
def rangeScan (ts : List Term) (fuel : Nat) (pC : Cursor) : List Pass :=
  let (pC, jump) := start ar t brk (directGt ts) pC
  if jump then [] else loop ar t junk (directLt ts) fuel pC

/-! ## What it is to do -/

def isNan : Rank → Bool
  | .num .nan => true
  | _ => false

/-- A comparison of numbers and texts: numbers are below texts, and a NaN is in no relation. -/
def Ineq.ranks (op : Ineq) (x y : Rank) : Bool :=
  match op with
  | .lt => x.lt y
  | .le => !y.lt x && !isNan x && !isNan y
  | .gt => y.lt x
  | .ge => !x.lt y && !isNan x && !isNan y

/-- The term is true of a rowid. -/
def Term.holds (e : Term) (r : CInt) : Bool :=
  match e.v.rank ar with
  | none => false
  | some k =>
    if e.left then e.op.ranks (.num (.fin r.toInt)) k else e.op.ranks k (.num (.fin r.toInt))

/-- The rowids of a table. -/
def rowids : List CInt := t.keys.map fun k => keyRowid k.data

/-- A pass over the row of a rowid. -/
def visit (r : CInt) : Pass := ⟨.int r, some ⟨rowidKey r⟩⟩

/-- `OP_ForceInt` leaves the integer that it is to leave, and the scan passes over the rows of
which both terms are true. -/
structure RangeMeets (ts : List Term) (fuel : Nat) (pC : Cursor) : Prop where
  forceInt : ∀ e, directGt ts = some e → ForceIntSpec ar e.strict e.v (opForceInt ar e.strict e.v)
  visits : rangeScan ar t brk junk ts fuel pC =
    ((rowids t).filter fun r =>
      (directGt ts).all (·.holds ar r) && (directLt ts).all (·.holds ar r)).map visit

/-! ## When it does -/

/-- The rows from the lower bound on. -/
def fromBound (ts : List Term) : List CInt :=
  (rowids t).filter fun r => (directGt ts).all (·.holds ar r)

/-- What `OP_Recno` pushes for the first of them: the integer of the lower bound, or what the
cursor has cached. -/
def firstRecno (ts : List Term) (pC : Cursor) (r : CInt) : CInt :=
  match directGt ts with
  | some e => (e.v.number ar).elim r fun q => .ofInt 32 (leastInt e.strict q)
  | none => if pC.recnoIsValid then pC.lastRecno else r

/-- `__str_numeric_cmp` puts the number below the other, or not above it. -/
def below (strict : Bool) (x k : Rank) : Bool := if strict then x.lt k else !k.lt x

/-- The test takes a rowid to be on the wrong side of the upper bound: NULL is below no rowid, the
difference of the integers overflows, the text reads as a NaN, or the text of the `double` is
another number. -/
def Misread (e : Term) (x : CInt) : Prop :=
  match e.v with
  | .null => True
  | .int b _ => BitVec.ssubOverflow x b = true
  | .real r => below e.strict (.num (.fin x.toInt)) (rank ar e.v.text) ≠
      (below e.strict (.num (.fin x.toInt)) (.num r) && !isNan (.num r))
  | .str z =>
    if (dbsqlAtoi z).2 then BitVec.ssubOverflow x (dbsqlAtoi z).1 = true
    else isNan (rank ar z) = true ∧ e.strict = false

/-- The bounds do not reach the defects: the integer of the lower bound is an `int`; if the first
row from there is to be passed over, it has that rowid, and the test tells its side of the upper
bound by that rowid; and no other row up to the first above the upper bound is misread. -/
structure RangeOk (ts : List Term) (pC : Cursor) : Prop where
  force : ∀ e, directGt ts = some e → Forceable ar e.strict e.v
  recno : ∀ r, (fromBound ar t ts).head? = some r → (directLt ts).all (·.holds ar r) = true →
    firstRecno ar ts pC r = r
  first : ∀ e, directLt ts = some e → ∀ r, (fromBound ar t ts).head? = some r →
    ((e.holds ar (firstRecno ar ts pC r) ↔ e.holds ar r) ↔ ¬ Misread ar e (firstRecno ar ts pC r))
  rest : ∀ e, directLt ts = some e → ∀ r ∈ (fromBound ar t ts).tail,
    (∀ r' ∈ fromBound ar t ts, r'.toInt < r.toInt → e.holds ar r' = true) → ¬ Misread ar e r

end

/-! ## The terms that are chosen -/

section
variable {L : Type} {ar : Arith L} {e : Term}

theorem isGt_of_directGt {ts : List Term} (h : directGt ts = some e) : e.isGt = true :=
  (List.mem_filter.1 (List.mem_of_getLast? h)).2

theorem isLt_of_directLt {ts : List Term} (h : directLt ts = some e) : e.isLt = true :=
  (List.mem_filter.1 (List.mem_of_getLast? h)).2

theorem lt_nan_false {x : CInt} {k : Rank} (h : isNan k = true) :
    (Rank.num (.fin x.toInt)).lt k = false := by
  unfold isNan at h
  split at h
  · rfl
  · cases h

/-- A rowid is no NaN. -/
theorem and_isNan_left (b : Bool) (x : CInt) (k : Rank) :
    (b && !isNan (.num (.fin x.toInt)) && !isNan k) = (b && !isNan k) := by
  have h : isNan (.num (.fin x.toInt)) = false := rfl
  rw [h, Bool.not_false, Bool.and_true]

theorem and_isNan_right (b : Bool) (x : CInt) (k : Rank) :
    (b && !isNan k && !isNan (.num (.fin x.toInt))) = (b && !isNan k) := by
  have h : isNan (.num (.fin x.toInt)) = false := rfl
  rw [h, Bool.not_false, Bool.and_true]

/-- An upper bound is true of the rowids below it. -/
theorem holds_of_isLt (h : e.isLt = true) (r : CInt) : e.holds ar r =
    (e.v.rank ar).elim false fun k => below e.strict (.num (.fin r.toInt)) k && !isNan k := by
  obtain ⟨op, left, v, hv⟩ := e
  unfold Term.holds
  cases v.rank ar with
  | none => rfl
  | some k =>
    have hstrict : (Rank.num (.fin r.toInt)).lt k =
        ((Rank.num (.fin r.toInt)).lt k && !isNan k) := by
      cases hk : isNan k with
      | false => exact (Bool.and_true _).symm
      | true => rw [lt_nan_false hk]; rfl
    cases left with
    | true =>
      cases op with
      | lt => exact hstrict
      | le => exact and_isNan_left _ r k
      | gt | ge => cases h
    | false =>
      cases op with
      | lt | le => cases h
      | gt => exact hstrict
      | ge => exact and_isNan_right _ r k

/-- A lower bound is true of the rowids that it is below. -/
theorem holds_of_isGt (h : e.isGt = true) (r : CInt) : e.holds ar r =
    (e.v.rank ar).elim false fun k =>
      if e.strict then k.lt (.num (.fin r.toInt)) else !(Rank.num (.fin r.toInt)).lt k && !isNan k := by
  obtain ⟨op, left, v, hv⟩ := e
  unfold Term.holds
  cases v.rank ar with
  | none => rfl
  | some k =>
    cases left with
    | true =>
      cases op with
      | lt | le => cases h
      | gt => rfl
      | ge => exact and_isNan_left _ r k
    | false =>
      cases op with
      | lt => rfl
      | le => exact and_isNan_right _ r k
      | gt | ge => cases h

/-! ## The test -/

/-- A number that is an integer is no NaN. -/
theorem and_isNan {r : Double} {i : Int} (h : ReadsAs r i) (b : Bool) :
    (b && !isNan (.num r)) = b := by
  cases r with
  | nan => exact absurd rfl h.1
  | fin | negZero | inf => exact Bool.and_true b

/-- Integers below one another. -/
theorem below_readsAs (strict : Bool) {x : Int} {r : Double} {i : Int} (h : ReadsAs r i) :
    below strict (.num (.fin x)) (.num r) = if strict then decide (x < i) else decide (x ≤ i) := by
  have hfin : ReadsAs (.fin x) x := .fin rfl
  cases strict with
  | true => exact Bool.eq_iff_iff.2 ((hfin.lt_iff h).trans decide_eq_true_iff.symm)
  | false =>
    have hlt : (Rank.num r).lt (.num (.fin x)) = decide (i < x) :=
      Bool.eq_iff_iff.2 ((h.lt_iff hfin).trans decide_eq_true_iff.symm)
    unfold below
    rw [if_neg Bool.false_ne_true, if_neg Bool.false_ne_true, hlt, ← decide_not]
    exact decide_eq_decide.2 not_lt

theorem test_ge {c : CInt} : Cmp.ge.test c = false ↔ c.toInt < 0 :=
  decide_eq_false_iff_not.trans not_le

theorem test_gt {c : CInt} : Cmp.gt.test c = false ↔ ¬ 0 < c.toInt := decide_eq_false_iff_not

/-- The test on the difference of two integers. -/
theorem test_sub (strict : Bool) (x b : CInt) :
    (if strict then Cmp.ge else Cmp.gt).test (x - b) = false ↔
      ((if strict then decide (x.toInt < b.toInt) else decide (x.toInt ≤ b.toInt)) = true ↔
        ¬ BitVec.ssubOverflow x b = true) := by
  obtain ⟨hlt, hle⟩ := sub_sign x b
  cases strict with
  | true =>
    rw [if_pos rfl, if_pos rfl, decide_eq_true_iff, ← hlt, test_ge]
  | false =>
    rw [if_neg Bool.false_ne_true, if_neg Bool.false_ne_true, decide_eq_true_iff, ← hle, test_gt,
      not_lt]

/-- The test on the texts. -/
theorem test_text (hfp : ExactInts ar.ld) (strict : Bool) (x : CInt) (z : Bytes) :
    (if strict then Cmp.ge else Cmp.gt).test (strNumericCmp ar (Val.int x none).text z) = false ↔
      below strict (.num (.fin x.toInt)) (rank ar z) = true := by
  obtain ⟨r, hr, hread⟩ := rank_readsAs hfp (.int x) rfl
  obtain ⟨hl, hg⟩ := lt_of_readsAs hread (rank ar z)
  have hlt := strNumericCmp_lt ar (Val.int x none).text z
  have hgt := strNumericCmp_gt ar (Val.int x none).text z
  rw [hr] at hlt hgt
  rw [hl] at hlt
  rw [hg] at hgt
  unfold below
  cases strict with
  | true =>
    rw [if_pos rfl, if_pos rfl, ← hlt, test_ge]
  | false =>
    rw [if_neg Bool.false_ne_true, if_neg Bool.false_ne_true, test_gt, hgt, Bool.not_eq_true,
      Bool.not_eq_true']

theorem testOp_eq (x : CInt) (h : e.v.isNull = false) : testOp ar e (.int x none) =
    (if e.strict then Cmp.ge else Cmp.gt).test (numCmp ar (.int x none) e.v) := by
  have hint : (Val.int x none).isNull = false := rfl
  unfold testOp compare3
  rw [h, hint, Bool.or_false, if_neg Bool.false_ne_true, if_neg Bool.false_ne_true, Option.getD_some]

/-- What `below` says of a NaN. -/
theorem below_nan (strict : Bool) (x : CInt) {k : Rank} (h : isNan k = true) :
    below strict (.num (.fin x.toInt)) k = !strict := by
  have hlt : k.lt (.num (.fin x.toInt)) = false := by
    unfold isNan at h
    split at h
    · rfl
    · cases h
  cases strict with
  | true => exact lt_nan_false h
  | false =>
    rw [below, if_neg Bool.false_ne_true, hlt]

/-- **The test lets a rowid pass** that is below the bound, unless it misreads it; then it lets it
pass if it is not below. -/
theorem passes_iff (hfp : ExactInts ar.ld) (h : e.isLt = true) (x : CInt) :
    testOp ar e (.int x none) = false ↔ (e.holds ar x = true ↔ ¬ Misread ar e x) := by
  have hholds : e.holds ar x = _ := holds_of_isLt h x
  have hterm := e.terminated
  have htest : e.v.isNull = false → testOp ar e (.int x none) = _ := testOp_eq x
  unfold Misread
  rw [hholds]
  cases hv : e.v with
  | null =>
    have hnull : testOp ar e (.int x none) = false := by
      unfold testOp compare3
      rw [hv]
      rfl
    simp [hnull, Val.rank]
  | int b z =>
    have hread : ReadsAs (.fin b.toInt) b.toInt := .fin rfl
    have hsub := test_sub e.strict x b
    rw [← below_readsAs e.strict hread] at hsub
    rw [hv] at htest
    rw [htest rfl, numCmp, hsub]
    simp only [Val.rank, Option.elim_some]
    rw [and_isNan hread]
  | real r =>
    have hcmp : numCmp ar (.int x none) (.real r) =
        strNumericCmp ar (Val.int x none).text (Val.real r).text := rfl
    rw [hv] at htest
    rw [htest rfl, hcmp, test_text hfp]
    simp only [Val.rank, Option.elim_some]
    generalize below e.strict (.num (.fin x.toInt)) (rank ar (Val.real r).text) = a
    generalize (below e.strict (.num (.fin x.toInt)) (.num r) && !isNan (.num r)) = b
    cases a <;> cases b <;> decide
  | str z =>
    rw [hv] at htest
    rw [htest rfl, numCmp]
    by_cases hok : (dbsqlAtoi z).2 = true
    · obtain ⟨r, hr, hread⟩ := rank_atoi ar hfp (hterm z hv) hok
      have hsub := test_sub e.strict x (dbsqlAtoi z).1
      rw [← below_readsAs e.strict hread] at hsub
      rw [if_pos hok, hsub]
      simp only [Val.rank, Option.elim_some, hr, if_pos hok, and_isNan hread]
    · have htext : (Val.str z).text = z := rfl
      rw [if_neg hok, test_text hfp, htext]
      simp only [Val.rank, Option.elim_some, if_neg hok]
      cases hn : isNan (rank ar z) with
      | false => simp
      | true =>
        rw [below_nan e.strict x hn]
        cases e.strict <;> simp

/-! ## Rowids on either side of a bound -/

/-- What is below an upper bound stays below it. -/
theorem holds_mono (h : e.isLt = true) {x y : CInt} (hxy : x.toInt ≤ y.toInt)
    (hy : e.holds ar y = true) : e.holds ar x = true := by
  rw [holds_of_isLt h] at hy ⊢
  cases hk : e.v.rank ar with
  | none =>
    rw [hk] at hy
    cases hy
  | some k =>
    rw [hk, Option.elim_some, Bool.and_eq_true] at hy
    obtain ⟨hbelow, hnan⟩ := hy
    rw [Option.elim_some, hnan, Bool.and_true]
    have hyx : (Rank.num (.fin y.toInt)).lt (.num (.fin x.toInt)) = false :=
      Bool.eq_false_iff.2 fun hlt => absurd ((fin_lt y x).1 hlt) (not_lt.2 hxy)
    cases hs : e.strict with
    | true =>
      rw [hs, below, if_pos rfl] at hbelow
      rw [below, if_pos rfl]
      rcases Rank.lt_split (z := .num (.fin x.toInt)) hbelow (by simp) with hlt | hlt
      · rw [hyx] at hlt
        cases hlt
      · exact hlt
    | false =>
      rw [hs, below, if_neg Bool.false_ne_true, Bool.not_eq_true'] at hbelow
      rw [below, if_neg Bool.false_ne_true, Bool.not_eq_true', Bool.eq_false_iff]
      intro hlt
      rcases Rank.lt_split (z := .num (.fin y.toInt)) hlt (by simp) with hlt' | hlt'
      · rw [hbelow] at hlt'
        cases hlt'
      · rw [hyx] at hlt'
        cases hlt'

/-- A lower bound is true of the rowids from its integer on. -/
theorem holds_iff_le (h : e.isGt = true) {r : Double} (hr : e.v.rank ar = some (.num r)) {q : ℚ}
    (hq : r.toRat = some q) (x : CInt) : e.holds ar x = true ↔ leastInt e.strict q ≤ x.toInt := by
  have hnan : isNan (.num r) = false := by
    cases r with
    | nan => cases hq
    | fin | negZero | inf => rfl
  rw [holds_of_isGt h, hr, Option.elim_some, hnan, Bool.not_false, Bool.and_true, ← mem_intsFrom]
  cases e.strict with
  | true => exact Double.lt_fin_of_toRat hq x.toInt
  | false =>
    have hlt := Double.lt_of_toRat hq x.toInt
    rw [if_neg Bool.false_ne_true, Bool.not_eq_true', Bool.eq_false_iff]
    exact (not_congr hlt).trans not_lt

/-- NULL and texts are below no rowid. -/
theorem holds_false (h : e.isGt = true) (hr : ∀ r, e.v.rank ar ≠ some (.num r)) (x : CInt) :
    e.holds ar x = false := by
  rw [holds_of_isGt h]
  cases hk : e.v.rank ar with
  | none => rfl
  | some k =>
    cases k with
    | num r => exact absurd hk (hr r)
    | text z => cases hs : e.strict <;> rfl

end

/-! ## The loop -/

section
variable {L : Type} {ar : Arith L} {t : Btree} {junk : MinMax.Junk}

/-- The test lets a rowid pass. -/
def passes (ar : Arith L) (lt : Option Term) (r : CInt) : Bool :=
  lt.all fun e => !testOp ar e (.int r none)

/-- The rowid that `OP_Recno` pushes for a cursor on a row. -/
def recnoOf (pC : Cursor) (r : CInt) : CInt := if pC.recnoIsValid then pC.lastRecno else r

/-- The cursor is on a row, and nothing is pending. -/
structure AtRow (t : Btree) (pC : Cursor) (r : CInt) : Prop where
  mem : (⟨rowidKey r⟩ : Dbt) ∈ t
  pos : pC.pos = some ⟨rowidKey r⟩
  notNull : pC.nullRow = false
  notDeferred : pC.deferredMoveto = false

theorem opRecno_atRow {pC : Cursor} {r : CInt} (h : AtRow t pC r) :
    opRecno t pC (store .big junk.v) = (pC, .int (recnoOf pC r)) := by
  have hmove : vdbeCursorMoveto t pC = pC := by
    rw [vdbeCursorMoveto, h.notDeferred, if_neg Bool.false_ne_true]
  unfold opRecno recnoOf
  rw [hmove]
  dsimp only
  split
  · rfl
  · rw [h.notNull, if_neg Bool.false_ne_true, h.pos, readRowid_on h.mem _ rfl]

theorem test_atRow {pC : Cursor} {r : CInt} (h : AtRow t pC r) (lt : Option Term) :
    test ar t junk lt pC = (pC, !passes ar lt (recnoOf pC r)) := by
  cases lt with
  | none => rfl
  | some e =>
    unfold test
    rw [opRecno_atRow h]
    exact congrArg (Prod.mk pC) (Bool.not_not _).symm

/-- `OP_Next` goes to the row after this one, if there is one. -/
theorem opNext_atRow {as bs : List (Dbt × Bytes)} {x : Dbt × Bytes} (ht : t.entries = as ++ x :: bs)
    {pC : Cursor} (hpos : pC.pos = some x.1) (hn : pC.nullRow = false) :
    opNext t pC false = match bs.head? with
      | some y => ({ pC with pos := some y.1, nullRow := false, recnoIsValid := false }, true)
      | none => ({ pC with nullRow := true, recnoIsValid := false }, false) := by
  unfold opNext
  rw [hn, if_neg Bool.false_ne_true, if_neg Bool.false_ne_true, hpos, smNext_on,
    SortedMap.succ_append ht]
  cases bs.head? with
  | none => simp
  | some y => simp

/-- The rowid of an entry. -/
def rowidOf (x : Dbt × Bytes) : CInt := keyRowid x.1.data

theorem rowidKey_rowidOf (ht : IsTable t) {x : Dbt × Bytes} (hx : x ∈ t.entries) :
    x.1 = ⟨rowidKey (rowidOf x)⟩ := by
  obtain ⟨r, hr⟩ := ht x.1 (SortedMap.mem_of_entry hx)
  rw [rowidOf, hr, keyRowid_rowidKey]

theorem atRow_of (ht : IsTable t) {x : Dbt × Bytes} (hx : x ∈ t.entries) {pC : Cursor}
    (hpos : pC.pos = some x.1) (hn : pC.nullRow = false) (hd : pC.deferredMoveto = false) :
    AtRow t pC (rowidOf x) where
  mem := rowidKey_rowidOf ht hx ▸ SortedMap.mem_of_entry hx
  pos := hpos.trans (congrArg some (rowidKey_rowidOf ht hx))
  notNull := hn
  notDeferred := hd

/-- One turn of the loop. -/
theorem loop_turn (ht : IsTable t) (lt : Option Term) {as bs : List (Dbt × Bytes)}
    {x : Dbt × Bytes} (hx : t.entries = as ++ x :: bs) {pC : Cursor} (hpos : pC.pos = some x.1)
    (hn : pC.nullRow = false) (hd : pC.deferredMoveto = false) (fuel : Nat) :
    loop ar t junk lt (fuel + 1) pC = if passes ar lt (recnoOf pC (rowidOf x)) then
      ⟨.int (recnoOf pC (rowidOf x)), some ⟨rowidKey (rowidOf x)⟩⟩ ::
        bs.head?.elim [] fun y => loop ar t junk lt fuel
          { pC with pos := some y.1, nullRow := false, recnoIsValid := false }
    else [] := by
  have hmem : x ∈ t.entries := hx ▸ by simp
  have hon := atRow_of ht hmem hpos hn hd
  rw [loop, test_atRow hon]
  dsimp only
  cases hp : passes ar lt (recnoOf pC (rowidOf x)) with
  | false => rfl
  | true =>
    have hpass : passOf t pC junk =
        ⟨.int (recnoOf pC (rowidOf x)), some ⟨rowidKey (rowidOf x)⟩⟩ := by
      rw [passOf, opRecno_atRow hon, ← rowidKey_rowidOf ht hmem, ← hpos]
    rw [Bool.not_true, if_neg Bool.false_ne_true, if_pos rfl, hpass, opNext_atRow hx hpos hn]
    cases bs.head? with
    | none => rfl
    | some y => rfl

/-- The loop passes over rows for as long as the test lets them pass. -/
theorem loop_eq (ht : IsTable t) (lt : Option Term) (bs : List (Dbt × Bytes)) :
    ∀ (as : List (Dbt × Bytes)) (x : Dbt × Bytes) (fuel : Nat) (pC : Cursor),
      t.entries = as ++ x :: bs → pC.pos = some x.1 → pC.nullRow = false →
      pC.deferredMoveto = false → bs.length < fuel →
      loop ar t junk lt fuel pC = if passes ar lt (recnoOf pC (rowidOf x)) then
        ⟨.int (recnoOf pC (rowidOf x)), some ⟨rowidKey (rowidOf x)⟩⟩ ::
          ((bs.map rowidOf).takeWhile (passes ar lt)).map visit
      else [] := by
  induction bs with
  | nil =>
    intro as x fuel pC hx hpos hn hd hf
    obtain ⟨fuel, rfl⟩ := Nat.exists_eq_succ_of_ne_zero (Nat.ne_of_gt hf)
    rw [loop_turn ht lt hx hpos hn hd]
    rfl
  | cons y bs ih =>
    intro as x fuel pC hx hpos hn hd hf
    rw [List.length_cons] at hf
    obtain ⟨fuel, rfl⟩ := Nat.exists_eq_succ_of_ne_zero (Nat.ne_of_gt (Nat.zero_lt_of_lt hf))
    have hrest := ih (as ++ [x]) y fuel
      { pC with pos := some y.1, nullRow := false, recnoIsValid := false }
      (by rw [hx, List.append_assoc]; rfl) rfl rfl hd (by omega)
    have hrecno : recnoOf { pC with pos := some y.1, nullRow := false, recnoIsValid := false }
        (rowidOf y) = rowidOf y := rfl
    rw [hrecno] at hrest
    rw [loop_turn ht lt hx hpos hn hd, List.head?_cons, Option.elim_some, hrest, List.map_cons,
      List.takeWhile_cons]
    cases passes ar lt (rowidOf y) with
    | false => rfl
    | true => rfl

/-! ## The start -/

/-- Where a scan of the entries `l` starts. -/
structure Started (t : Btree) (l : List (Dbt × Bytes)) (recno : CInt → CInt) (res : Cursor × Bool) :
    Prop where
  suffix : ∃ as, t.entries = as ++ l
  jump : l = [] → res.2 = true
  on : ∀ x bs, l = x :: bs → res.2 = false ∧ res.1.pos = some x.1 ∧ res.1.nullRow = false ∧
    res.1.deferredMoveto = false ∧ recnoOf res.1 (rowidOf x) = recno (rowidOf x)

/-- `OP_MoveTo` to a rowid starts at the first row from there, and caches that rowid. -/
theorem started_moveTo (t : Btree) (pC : Cursor) {brk : Int} (hbrk : 0 < brk) (i : CInt) :
    Started t (t.entries.filter fun x => ⟨rowidKey i⟩ ≤ x.1) (fun _ => i)
      (opMoveTo t pC false brk (.int i)) := by
  have hceil := SortedMap.ceil_eq_head? t ⟨rowidKey i⟩
  have hb : ¬ (brk = 0 ∧ false = false) := fun h => by omega
  unfold opMoveTo
  dsimp only
  rw [if_neg hb]
  rcases smMoveto_cases t pC.pos (rowidKey i) 0 with ⟨x, hx, h⟩ | ⟨x, hlt, hlast, h⟩ | ⟨hno, h⟩
  · rw [hx] at hceil
    refine ⟨⟨_, t.filter_ge_split _⟩, fun hl => ?_, fun y bs hl => ?_⟩
    · rw [hl] at hceil
      cases hceil
    · rw [hl] at hceil
      cases hceil
      simp [h, moveFinish, recnoOf]
  · have hnone : t.ceil ⟨rowidKey i⟩ = none := SortedMap.ceil_eq_none.2 hlt
    have hnext : (smNext t (some x.1) (-1)).result = 1 := by
      rw [smNext_on, SortedMap.succ_eq_none.2 (SortedMap.last_some hlast).2]
    rw [hnone] at hceil
    refine ⟨⟨_, t.filter_ge_split _⟩, fun hl => ?_, fun y bs hl => ?_⟩
    · simp [h, moveFinish, hnext, hbrk]
    · rw [hl] at hceil
      cases hceil
  · have hnone : t.ceil ⟨rowidKey i⟩ = none :=
      SortedMap.ceil_eq_none.2 fun k hk => absurd hk (hno k)
    rw [hnone] at hceil
    refine ⟨⟨_, t.filter_ge_split _⟩, fun hl => ?_, fun y bs hl => ?_⟩
    · simp [h, moveFinish, smNext_empty hno, hbrk]
    · rw [hl] at hceil
      cases hceil

/-- `OP_Rewind` starts at the first row, and leaves the cache as it was. -/
theorem started_rewind (t : Btree) (pC : Cursor) {brk : Int} (hbrk : 0 < brk) :
    Started t t.entries (recnoOf pC)
      (opRewind t pC, (opRewind t pC).nullRow && decide (0 < brk)) := by
  refine ⟨⟨[], rfl⟩, fun hl => ?_, fun x bs hl => ?_⟩
  · have hfirst : t.first = none := by rw [SortedMap.first, hl]; rfl
    simp [opRewind, smFirst_none hfirst, hbrk]
  · have hfirst : t.first = some x := by rw [SortedMap.first, hl]; rfl
    simp [opRewind, smFirst_some hfirst, recnoOf]

theorem rowids_eq (t : Btree) : rowids t = t.entries.map rowidOf := by
  rw [rowids, SortedMap.keys, List.map_map]
  rfl

/-- The entries from the lower bound on. -/
theorem fromBound_eq (ts : List Term) : fromBound ar t ts =
    (t.entries.filter fun x => (directGt ts).all (·.holds ar (rowidOf x))).map rowidOf := by
  rw [fromBound, rowids_eq, List.filter_map]
  rfl

/-- The scan starts at the first row from the lower bound on. -/
theorem started (hc : ar.Casts) (ht : IsTable t) (ts : List Term) (pC : Cursor) {brk : Int} (hbrk : 0 < brk)
    (hforce : ∀ e, directGt ts = some e →
      ForceIntSpec ar e.strict e.v (opForceInt ar e.strict e.v)) :
    Started t (t.entries.filter fun x => (directGt ts).all (·.holds ar (rowidOf x)))
      (firstRecno ar ts pC) (start ar t brk (directGt ts) pC) := by
  unfold firstRecno
  cases hgt : directGt ts with
  | none =>
    have hall : (t.entries.filter fun x => (none : Option Term).all (·.holds ar (rowidOf x))) =
        t.entries := List.filter_eq_self.2 fun _ _ => rfl
    rw [hall]
    exact started_rewind t pC hbrk
  | some e =>
    have hisGt := isGt_of_directGt hgt
    simp only [Option.all_some]
    by_cases hnum : ∃ r, e.v.rank ar = some (.num r)
    · obtain ⟨r, hr⟩ := hnum
      have hk := opForceInt_num hc e.strict hr
      obtain ⟨q, hq, hleast⟩ := (hforce e hgt _).1 hk
      rw [isLeast_intsFrom] at hleast
      have hrat : r.toRat = some q := (number_num hr).symm.trans hq
      have hfrom : (t.entries.filter fun x => e.holds ar (rowidOf x)) =
          t.entries.filter fun x => ⟨rowidKey (forceReal ar e.strict r)⟩ ≤ x.1 := by
        refine List.filter_congr fun x hx => Bool.eq_iff_iff.2 ?_
        rw [holds_iff_le hisGt hr hrat, ← hleast, decide_eq_true_iff, rowidKey_rowidOf ht hx,
          rowidKey_le]
      have hrecno : (fun r' => (e.v.number ar).elim r' fun q => BitVec.ofInt 32 (leastInt e.strict q)) =
          fun _ => forceReal ar e.strict r := by
        funext r'
        rw [hq, Option.elim_some, ← hleast, BitVec.ofInt_toInt]
      rw [hfrom, hrecno, start, hk]
      exact started_moveTo t pC hbrk _
    · have hnone : ∀ r, e.v.rank ar ≠ some (.num r) := fun r hr => hnum ⟨r, hr⟩
      have hempty : (t.entries.filter fun x => e.holds ar (rowidOf x)) = [] :=
        List.filter_eq_nil_iff.2 fun x _ => by simp [holds_false hisGt hnone]
      rw [hempty, start, opForceInt_none e.strict hnone]
      refine ⟨⟨t.entries, (List.append_nil _).symm⟩, fun _ => rfl, fun x bs hl => ?_⟩
      cases hl

/-- What the scan passes over. -/
theorem rangeScan_eq (hc : ar.Casts) (ht : IsTable t) (ts : List Term) (pC : Cursor) {brk : Int}
    (hbrk : 0 < brk) {fuel : Nat} (hf : t.entries.length ≤ fuel)
    (hforce : ∀ e, directGt ts = some e →
      ForceIntSpec ar e.strict e.v (opForceInt ar e.strict e.v)) :
    rangeScan ar t brk junk ts fuel pC = match fromBound ar t ts with
      | [] => []
      | r :: rs =>
        if passes ar (directLt ts) (firstRecno ar ts pC r) then
          ⟨.int (firstRecno ar ts pC r), some ⟨rowidKey r⟩⟩ ::
            (rs.takeWhile (passes ar (directLt ts))).map visit
        else [] := by
  obtain ⟨⟨as, hsuffix⟩, hjump, hon⟩ := started hc ht ts pC hbrk hforce
  rw [fromBound_eq]
  unfold rangeScan
  dsimp only
  generalize (t.entries.filter fun x => (directGt ts).all (·.holds ar (rowidOf x))) = l at *
  cases l with
  | nil =>
    rw [if_pos (hjump rfl)]
    rfl
  | cons x bs =>
    obtain ⟨hno, hpos, hn, hd, hrecno⟩ := hon x bs rfl
    have hlen : bs.length < fuel := by
      rw [hsuffix, List.length_append, List.length_cons] at hf
      omega
    rw [hno, if_neg Bool.false_ne_true, loop_eq ht _ bs as x fuel _ hsuffix hpos hn hd hlen, hrecno]
    rfl

end

/-! ## When the scan is right -/

/-- The passes are those over the rows that pass `up`. -/
theorem passes_eq_iff {go up : CInt → Bool} {r c : CInt} {rs : List CInt}
    (hl : (r :: rs).Pairwise fun a b => a.toInt < b.toInt)
    (hup : ∀ a b : CInt, a.toInt ≤ b.toInt → up b = true → up a = true) :
    (if go c then ⟨.int c, some ⟨rowidKey r⟩⟩ :: (rs.takeWhile go).map visit else []) =
        ((r :: rs).filter up).map visit ↔
      (up r = true → c = r) ∧ go c = up r ∧
        ∀ b ∈ rs, (∀ a ∈ r :: rs, a.toInt < b.toInt → up a = true) → go b = up b := by
  obtain ⟨hr, hrs⟩ := List.pairwise_cons.1 hl
  cases h : up r with
  | false =>
    have hnone : (r :: rs).filter up = [] := by
      refine List.filter_eq_nil_iff.2 fun b hb hb' => ?_
      rcases List.mem_cons.1 hb with rfl | hb
      · rw [h] at hb'
        cases hb'
      · rw [hup r b (hr b hb).le hb'] at h
        cases h
    rw [hnone, List.map_nil]
    cases hgo : go c with
    | true => exact iff_of_false (List.cons_ne_nil _ _) fun hall => by cases hall.2.1
    | false =>
      refine iff_of_true rfl ⟨fun hr' => (by cases hr'), rfl, fun b hb hbefore => ?_⟩
      rw [hbefore r List.mem_cons_self (hr b hb)] at h
      cases h
  | true =>
    rw [List.filter_cons_of_pos h, List.map_cons]
    cases hgo : go c with
    | false => exact iff_of_false (List.cons_ne_nil _ _).symm fun hall => by cases hall.2.1
    | true =>
      have hinj : Function.Injective visit := by
        intro a b hab
        cases hab
        rfl
      have hrest : (∀ b ∈ rs, (∀ a ∈ r :: rs, a.toInt < b.toInt → up a = true) → go b = up b) ↔
          ∀ b ∈ rs, (∀ a ∈ rs, a.toInt < b.toInt → up a = true) → go b = up b := by
        simp only [List.forall_mem_cons, h, implies_true, true_and]
      have hpass : (⟨.int c, some ⟨rowidKey r⟩⟩ : Pass) = visit r ↔ c = r := by
        simp [visit]
      rw [if_pos rfl, List.cons.injEq, (List.map_injective_iff.2 hinj).eq_iff,
        takeWhile_eq_filter_iff BitVec.toInt hrs hup, hrest, hpass]
      simp

section
variable {L : Type} {ar : Arith L} {t : Btree} {ts : List Term}

theorem upper_mono (x y : CInt) (hxy : x.toInt ≤ y.toInt)
    (h : (directLt ts).all (·.holds ar y) = true) : (directLt ts).all (·.holds ar x) = true := by
  cases hlt : directLt ts with
  | none => rfl
  | some e =>
    rw [hlt] at h
    exact holds_mono (isLt_of_directLt hlt) hxy h

/-- When the test of one rowid says whether the upper bound is true of another. -/
theorem passes_eq_upper_iff (hfp : ExactInts ar.ld) (x r : CInt) :
    passes ar (directLt ts) x = (directLt ts).all (·.holds ar r) ↔
      ∀ e, directLt ts = some e → ((e.holds ar x = true ↔ e.holds ar r = true) ↔ ¬ Misread ar e x) := by
  cases hlt : directLt ts with
  | none => simp [passes]
  | some e =>
    have hpass : passes ar (some e) x = true ↔ (e.holds ar x = true ↔ ¬ Misread ar e x) := by
      rw [← passes_iff hfp (isLt_of_directLt hlt), passes, Option.all_some, Bool.not_eq_true']
    rw [Option.all_some, Bool.eq_iff_iff, hpass]
    simp only [Option.some_inj, forall_eq']
    exact iff_right_comm

theorem rowids_sorted (ht : IsTable t) : (rowids t).Pairwise fun a b => a.toInt < b.toInt := by
  rw [rowids_eq, List.pairwise_map]
  refine t.sorted.imp_of_mem fun {x y} hx hy hlt => ?_
  rwa [rowidKey_rowidOf ht hx, rowidKey_rowidOf ht hy, rowidKey_lt] at hlt

/-- The scan, from the lower bound on, against the conditions on the rows from there. -/
theorem visits_iff (hc : ar.Casts) (hfp : ExactInts ar.ld) (ht : IsTable t) (pC : Cursor) {brk : Int}
    (hbrk : 0 < brk) (junk : MinMax.Junk) {fuel : Nat} (hf : t.entries.length ≤ fuel)
    (hforce : ∀ e, directGt ts = some e → Forceable ar e.strict e.v) :
    rangeScan ar t brk junk ts fuel pC = ((fromBound ar t ts).filter fun r =>
      (directLt ts).all (·.holds ar r)).map visit ↔ RangeOk ar t ts pC := by
  have hsorted : (fromBound ar t ts).Pairwise fun a b => a.toInt < b.toInt :=
    (rowids_sorted ht).filter _
  rw [rangeScan_eq hc ht ts pC hbrk hf fun e he => (forceIntSpec_iff hc e.strict e.v).2 (hforce e he)]
  cases hR : fromBound ar t ts with
  | nil =>
    refine iff_of_true rfl ⟨hforce, fun r hr => ?_, fun e _ r hr => ?_, fun e _ r hr => ?_⟩
    · rw [hR] at hr
      cases hr
    · rw [hR] at hr
      cases hr
    · rw [hR] at hr
      cases hr
  | cons r rs =>
    rw [hR] at hsorted
    dsimp only
    rw [passes_eq_iff hsorted upper_mono, passes_eq_upper_iff hfp]
    constructor
    · rintro ⟨hrecno, hfirst, hrest⟩
      refine ⟨hforce, fun r' hr => ?_, fun e he r' hr => ?_, fun e he b hb hbefore => ?_⟩
      · rw [hR, List.head?_cons, Option.some_inj] at hr
        subst hr
        exact hrecno
      · rw [hR, List.head?_cons, Option.some_inj] at hr
        subst hr
        exact hfirst e he
      · rw [hR] at hb hbefore
        have hagree := hrest b hb fun a ha hab => by
          rw [he]
          exact hbefore a ha hab
        exact ((passes_eq_upper_iff hfp b b).1 hagree e he).1 Iff.rfl
    · intro h
      refine ⟨h.recno r (by rw [hR]; rfl), fun e he => h.first e he r (by rw [hR]; rfl), ?_⟩
      intro b hb hbefore
      refine (passes_eq_upper_iff hfp b b).2 fun e he => iff_of_true Iff.rfl ?_
      refine h.rest e he b (by rw [hR]; exact hb) fun a ha hab => ?_
      have hup := hbefore a (by rw [← hR]; exact ha) hab
      rwa [he] at hup

/-- **Scans of a range of rowids.** For all terms, tables and cursors: `OP_ForceInt` leaves the
integer of the lower bound, and the scan passes once over each row of which the two terms are true
and over no other, if and only if the bounds do not reach the defects of `RangeOk`. -/
theorem rangeScan_iff (hc : ar.Casts) (hfp : ExactInts ar.ld) (ts : List Term) (ht : IsTable t)
    (pC : Cursor) {brk : Int} (hbrk : 0 < brk) (junk : MinMax.Junk) {fuel : Nat}
    (hf : t.entries.length ≤ fuel) :
    RangeMeets ar t brk junk ts fuel pC ↔ RangeOk ar t ts pC := by
  have hfilter : ((rowids t).filter fun r =>
      (directGt ts).all (·.holds ar r) && (directLt ts).all (·.holds ar r)) =
        (fromBound ar t ts).filter fun r => (directLt ts).all (·.holds ar r) := by
    rw [fromBound, List.filter_filter]
    exact List.filter_congr fun r _ => Bool.and_comm _ _
  constructor
  · rintro ⟨hspec, hvisits⟩
    rw [hfilter] at hvisits
    exact (visits_iff hc hfp ht pC hbrk junk hf fun e he =>
      (forceIntSpec_iff hc e.strict e.v).1 (hspec e he)).1 hvisits
  · intro h
    refine ⟨fun e he => (forceIntSpec_iff hc e.strict e.v).2 (h.force e he), ?_⟩
    rw [hfilter]
    exact (visits_iff hc hfp ht pC hbrk junk hf h.force).2 h

end

/-! ## Two scans -/

/-- A term whose value is an integer. -/
def intTerm (op : Ineq) (i : CInt) : Term := ⟨op, true, .int i none, fun z h => by cases h⟩

/-- Nothing was there before. -/
def noJunk : MinMax.Junk := ⟨0, 0, [], []⟩

/-- `rowid >= 5 AND rowid < 7` in a table with the one row 5. -/
theorem rangeScan_iff_rowFive :
    RangeMeets exactMachine rowFive.t 1 noJunk [intTerm .ge 5, intTerm .lt 7] 1 Cursor.opened ↔
      RangeOk exactMachine rowFive.t [intTerm .ge 5, intTerm .lt 7] Cursor.opened :=
  rangeScan_iff exactMachine_casts exactArith_exactInts _ rowFive_opened.table _ (by decide) _
    (by decide)

/-- `rowid > 2147483647` in that table: the bound wraps around, and the scan passes over row 5. -/
theorem rangeScan_wraps : ¬ ∀ {L : Type} (ar : Arith L), ar.Casts → ExactInts ar.ld →
    ∀ (ts : List Term) (t : Btree), IsTable t → ∀ (brk : Int), 0 < brk → ∀ junk fuel,
      t.entries.length ≤ fuel → RangeMeets ar t brk junk ts fuel Cursor.opened := by
  intro h
  have hmeets := (h exactMachine exactMachine_casts exactArith_exactInts [intTerm .gt 2147483647]
    rowFive.t rowFive_opened.table 1 (by decide) noJunk 1 (by decide)).visits
  have hright : (rowids rowFive.t).filter (fun r =>
      (directGt [intTerm .gt 2147483647]).all (·.holds exactMachine r) &&
        (directLt [intTerm .gt 2147483647]).all (·.holds exactMachine r)) = [] := by
    decide
  rw [hright] at hmeets
  revert hmeets
  decide

end Dbsql.L5.RangeScan
