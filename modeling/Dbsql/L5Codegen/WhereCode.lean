import Dbsql.Core.Depth
import Dbsql.L5Codegen.WhereTests
/-!
# The loops of a WHERE clause (cg_where.c:846-1450)

For each table `__where_begin` emits the front of a loop, by one of five cases, and `__where_end` its
rear; the loops stand inside one another, and the caller's code stands in the middle. The cases look for
the terms they need among those that are left; what they find is a `Scan`, and the code is that of the
scan. A plan is what has been chosen before: the terms on the rowid, and an index with its score.

Labels, and the addresses that are used as such, are items of the program here. The code of an expression
is one opcode, which leaves its value, and so is the test of an expression.
-/
namespace Dbsql.L5.WhereCode
open Dbsql.Core.Depth Dbsql.L5.Tree Dbsql.L5.Where

/-! ## The opcodes -/

/-- The labels of a level, and the addresses that its code jumps to. -/
inductive Spot
  /-- where the code of the level begins -/
  | enter
  | cont
  | brk
  | start
  /-- `level->inP2` -/
  | inTop
  /-- `level->top` -/
  | top
  /-- behind the `OP_Goto` of a LEFT JOIN -/
  | joined
  /-- `__vdbe_current_addr(v) + 3` -/
  | behind (k : Nat)
  deriving DecidableEq, Repr

inductive Lab
  | iBreak
  | of (i : Nat) (spot : Spot)
  deriving DecidableEq, Repr

inductive Op
  /-- `__expr_code` -/
  | expr (e : Node)
  /-- `__expr_if_false` with `jump_if_null` -/
  | test (e : Node) (p2 : Lab)
  /-- the caller's code: it takes the key, and may jump to the two labels it is given -/
  | body (key : Bool) (iContinue : Option Lab)
  | string
  | integer
  | memStore (p1 : Nat) (p2 : Bool)
  | memLoad (p1 : Nat)
  | setFirst (p1 : Int) (p2 : Lab)
  | setNext (p1 : Int) (p2 : Lab)
  | rewind (p1 : Int) (p2 : Lab)
  | last (p1 : Int) (p2 : Lab)
  /-- `OP_Next`, and `OP_Prev` with `rev` -/
  | next (rev : Bool) (p1 : Int) (p2 : Lab)
  | keyAsData (p1 : Int)
  | fullKey (p1 : Int)
  /-- with P1 1 -/
  | mustBeInt (p2 : Lab)
  | forceInt (p1 : Bool) (p2 : Lab)
  | notExists (p1 : Int) (p2 : Lab)
  | notNull (p1 : Int) (p2 : Lab)
  | pop (p1 : Nat)
  | goto (p2 : Lab)
  | makeKey (p1 : Nat)
  | dup (p1 : Nat)
  | incrKey
  | moveTo (p1 : Int) (p2 : Option Lab)
  | moveLt (p1 : Int) (p2 : Lab)
  | idxGT (p1 : Int) (p2 : Lab)
  | idxGE (p1 : Int) (p2 : Lab)
  | idxLT (p1 : Int) (p2 : Lab)
  | rowKey (p1 : Int)
  | idxIsNull (p1 : Nat) (p2 : Lab)
  | idxRecno (p1 : Int)
  | recno (p1 : Int)
  /-- `OP_Ge`, and `OP_Gt` without `strict` -/
  | cmp (strict : Bool) (p2 : Lab)
  | nullRow (p1 : Int)

/-- A comparison with the entry of an index pops the key (vdbe.c:3710-3739). Where the entry cannot be
read it breaks off before it does, and the error is lost, since it is in a variable of the case. -/
def idxFalls (readable : Bool) : List Int := if readable then [-1] else [-1, 0]

/-- How an opcode changes the depth of the stack when it falls through (vdbe.c). -/
@[grind =] def falls (readable : Bool) : Op → List Int
  | .expr _ | .string | .integer | .memLoad _ | .setFirst _ _ | .fullKey _ | .dup _ | .rowKey _ | .idxRecno _
  | .recno _ => [1]
  | .test _ _ | .setNext _ _ | .rewind _ _ | .last _ _ | .next _ _ _ | .keyAsData _ | .mustBeInt _
  | .forceInt _ _ | .incrKey | .nullRow _ => [0]
  | .body key _ => [if key then -1 else 0]
  | .memStore _ p2 => [if p2 then -1 else 0]
  | .notExists _ _ | .moveTo _ _ | .moveLt _ _ | .idxIsNull _ _ => [-1]
  | .idxGT _ _ | .idxGE _ _ | .idxLT _ _ => idxFalls readable
  | .notNull p1 _ => [if 0 < p1 then -p1 else 0]
  | .pop p1 => [-(p1 : Int)]
  | .goto _ => []
  | .makeKey p1 => [1 - (p1 : Int)]
  | .cmp _ _ => [-2]

/-- Where an opcode may jump, and how it changes the depth then. -/
@[grind =] def jumps : Op → List (Lab × Int)
  | .test _ l | .rewind _ l | .last _ l | .next _ _ l | .goto l => [(l, 0)]
  | .setFirst _ l => [(l, 0)]
  | .setNext _ l => [(l, 1)]
  | .body key iContinue =>
    let d := if key then -1 else 0
    (.iBreak, d) :: (iContinue.map fun l => (l, d)).toList
  | .mustBeInt l | .forceInt _ l | .notExists _ l | .moveLt _ l | .idxGT _ l | .idxGE _ l | .idxLT _ l
  | .idxIsNull _ l => [(l, -1)]
  | .moveTo _ p2 => (p2.map fun l => (l, -1)).toList
  | .notNull p1 l => [(l, if 0 < p1 then -p1 else 0)]
  | .cmp _ l => [(l, -2)]
  | _ => []

@[grind =] def effects (readable : Bool) : Effects Op Lab := ⟨falls readable, jumps⟩

abbrev Code := List (Item Op Lab)

/-! ## What the cases find -/

/-- What a loop goes over: the value of an expression, or the elements of the right side of an IN. -/
inductive Source
  | expr (e : Node)
  | inList (iTable : Int)
  | inSelect (iTable : Int)

/-- A list or a select goes over more than one value. -/
def Source.isIn : Source → Bool
  | .expr _ => false
  | .inList _ | .inSelect _ => true

/-- The columns of an index that are fixed in case 2, each with the term that was found for it. An IN is
used for a column that is the only one. -/
structure EqCols where
  cols : List (Option Source)
  inAlone : ∀ s, some s ∈ cols → s.isIn = true → cols.length = 1

/-- A term that bounds, and `le_flag` or `ge_flag`. -/
structure Bound where
  e : Node
  equal : Bool

/-- How a loop goes over its table. -/
inductive Scan
  /-- case 1 -/
  | rowidEq (src : Source)
  /-- case 2; `whole` is `col_num == idx->nColumn` -/
  | indexEq (eq : EqCols) (whole bRev : Bool)
  /-- case 3 -/
  | rowidRange (gt lt : Option Bound)
  /-- case 4 -/
  | full
  /-- case 5: the fixed columns, and the bounds that the score counts on, each with the term that was
  found; a flag that no term sets is `junk` -/
  | indexRange (eqs : List (Option Source)) (lt gt : Option (Option Bound)) (bRev junk : Bool)

/-- A level of the loops. -/
structure Loop where
  cur : Int
  iCur : Int
  /-- `iLeftJoin` -/
  leftJoin : Option Nat
  /-- `level->iMem`, and the cell behind it -/
  iMem : Nat
  scan : Scan
  tests : List Node
  /-- the tests behind the record of a match -/
  late : List Node

/-! ## The code of a level -/

section
variable (i : Nat) (keep : Bool) (l : Loop)

def lab (spot : Spot) : Lab := .of i spot

/-- A value, or the first of several. -/
def sourceCode : Source → Code
  | .expr e => [.op (.expr e)]
  | .inList iTable => [.op (.setFirst iTable (lab i .brk)), .label (lab i .inTop)]
  | .inSelect iTable =>
    [.op (.rewind iTable (lab i .brk)), .op (.keyAsData iTable), .label (lab i .inTop), .op (.fullKey iTable)]

/-- The values for the columns of an index, where a term was found. -/
def colsCode (cols : List (Option Source)) : Code := cols.flatMap fun s => (s.map (sourceCode i)).getD []

/-- `level->inOp`. -/
def inOp : Source → Option Op
  | .expr _ => none
  | .inList iTable => some (.setNext iTable (lab i .inTop))
  | .inSelect iTable => some (.next false iTable (lab i .inTop))

/-- A key of the topmost values, unless one of them is NULL. -/
def keyCode (k col : Nat) : Code :=
  [.op (.notNull (-(col : Int)) (lab i (.behind k))), .op (.pop col), .op (.goto (lab i .brk)),
    .label (lab i (.behind k)), .op (.makeKey col)]

/-- The row of an entry of the index. -/
def rowCode (col : Nat) : Code :=
  [.op (.rowKey l.iCur), .op (.idxIsNull col (lab i .cont)), .op (.idxRecno l.iCur)] ++
    if keep then [] else [.op (.moveTo l.cur none)]

/-- Case 1. -/
def rowidEqCode (src : Source) : Code :=
  sourceCode i src ++ [.op (.mustBeInt (lab i .brk)), .op (.notExists l.cur (lab i .brk))]

/-- Case 2. -/
def indexEqCode (eq : EqCols) (whole bRev : Bool) : Code :=
  colsCode i eq.cols ++ keyCode i 0 eq.cols.length ++
    (if whole || bRev then [.op (.memStore l.iMem false)]
      else [.op (.dup 0), .op .incrKey, .op (.memStore l.iMem true)]) ++
    (if bRev then [.op .incrKey, .op (.moveLt l.iCur (lab i .brk)), .label (lab i .start), .op (.memLoad l.iMem),
        .op (.idxLT l.iCur (lab i .brk))]
      else [.op (.moveTo l.iCur (some (lab i .brk))), .label (lab i .start), .op (.memLoad l.iMem),
        .op (if whole then .idxGT l.iCur (lab i .brk) else .idxGE l.iCur (lab i .brk))]) ++
    rowCode i keep l eq.cols.length

/-- Case 3. -/
def rowidRangeCode (gt lt : Option Bound) : Code :=
  (match gt with
    | some b => [.op (.expr b.e), .op (.forceInt (!b.equal) (lab i .brk)), .op (.moveTo l.cur (some (lab i .brk)))]
    | none => [.op (.rewind l.cur (lab i .brk))]) ++
    (match lt with
      | some b => [.op (.expr b.e), .op (.memStore l.iMem true)]
      | none => []) ++
    [.label (lab i .start)] ++
    (match lt with
      | some b => [.op (.recno l.cur), .op (.memLoad l.iMem), .op (.cmp (!b.equal) (lab i .brk))]
      | none => [])

/-- Case 4. -/
def fullCode : Code := [.op (.rewind l.cur (lab i .brk)), .label (lab i .start)]

/-- The code of a term that the score counts on. -/
def boundCode : Option (Option Bound) → Code
  | some (some b) => [.op (.expr b.e)]
  | some none | none => []

/-- `le_flag` or `ge_flag`. -/
def boundFlag (junk : Bool) : Option (Option Bound) → Bool
  | some (some b) => b.equal
  | some none => junk
  | none => true

/-- Case 5: the test at the top of the loop; `iMem` is the cell that was used last. -/
def rangeTest (eqcols : Nat) (lt gt : Option (Option Bound)) (bRev : Bool) : Code :=
  if bRev then
    if 0 < eqcols ∨ gt.isSome then
      [.op (.memLoad (if 0 < eqcols ∨ lt.isSome then l.iMem + 1 else l.iMem)), .op (.idxLT l.iCur (lab i .brk))]
    else []
  else if 0 < eqcols ∨ lt.isSome then [.op (.memLoad l.iMem), .op (.idxGE l.iCur (lab i .brk))]
  else []

/-- Case 5: the termination key. -/
def endKeyCode (eqcols : Nat) (lt : Option (Option Bound)) (bRev junk : Bool) : Code :=
  boundCode lt ++
    if 0 < eqcols ∨ lt.isSome then
      keyCode i 0 (eqcols + if lt.isSome then 1 else 0) ++ (if boundFlag junk lt then [.op .incrKey] else []) ++
        [.op (if bRev then .moveLt l.iCur (lab i .brk) else .memStore l.iMem true)]
    else if bRev then [.op (.last l.iCur (lab i .brk))]
    else []

/-- Case 5: the start key. -/
def startKeyCode (eqcols : Nat) (lt gt : Option (Option Bound)) (bRev junk : Bool) : Code :=
  boundCode gt ++
    if 0 < eqcols ∨ gt.isSome then
      keyCode i 1 (eqcols + if gt.isSome then 1 else 0) ++ (if boundFlag junk gt then [] else [.op .incrKey]) ++
        [.op (if bRev then .memStore (if 0 < eqcols ∨ lt.isSome then l.iMem + 1 else l.iMem) true
          else .moveTo l.iCur (some (lab i .brk)))]
    else if bRev then []
    else [.op (.rewind l.iCur (lab i .brk))]

/-- Case 5. -/
def indexRangeCode (eqs : List (Option Source)) (lt gt : Option (Option Bound)) (bRev junk : Bool) : Code :=
  colsCode i eqs ++ List.replicate eqs.length (.op (.dup (eqs.length - 1))) ++
    endKeyCode i l eqs.length lt bRev junk ++ startKeyCode i l eqs.length lt gt bRev junk ++
    [.label (lab i .start)] ++ rangeTest i l eqs.length lt gt bRev ++
    rowCode i keep l (eqs.length + if lt.isSome then 1 else 0)

def scanCode : Code :=
  match l.scan with
  | .rowidEq src => rowidEqCode i l src
  | .indexEq eq whole bRev => indexEqCode i keep l eq whole bRev
  | .rowidRange gt lt => rowidRangeCode i l gt lt
  | .full => fullCode i l
  | .indexRange eqs lt gt bRev junk => indexRangeCode i keep l eqs lt gt bRev junk

/-- Whether case 2 or 5 leaves the key on the stack. -/
def keyLeft : Bool :=
  match l.scan with
  | .indexEq _ _ _ | .indexRange _ _ _ _ _ => keep
  | _ => false

/-- The tests of some terms: the key is used up by the first. -/
def testsCode (haveKey : Bool) (tests : List Node) : Code :=
  (if haveKey && !tests.isEmpty then [.op (.moveTo l.cur none)] else []) ++
    tests.map fun e => .op (.test e (lab i .cont))

/-- The front of a loop. -/
def headCode : Code :=
  [.label (lab i .enter)] ++
    (match l.leftJoin with
      | some cell => [.op .string, .op (.memStore cell true)]
      | none => []) ++
    scanCode i keep l ++ testsCode i l (keyLeft keep l) l.tests ++
    (match l.leftJoin with
      | some cell => [.label (lab i .top), .op .integer, .op (.memStore cell true)] ++
        testsCode i l (keyLeft keep l && l.tests.isEmpty) l.late
      | none => [])

/-- `have_key_p` behind the front of the loop. -/
def haveKey : Bool :=
  keyLeft keep l && l.tests.isEmpty && (l.leftJoin.isNone || l.late.isEmpty)

/-- `level->op`. -/
def levelOp : Option Op :=
  match l.scan with
  | .rowidEq _ => none
  | .indexEq _ _ bRev | .indexRange _ _ _ bRev _ => some (.next bRev l.iCur (lab i .start))
  | .rowidRange _ _ | .full => some (.next false l.cur (lab i .start))

/-- `level->inOp`. -/
def levelInOp : Option Op :=
  match l.scan with
  | .rowidEq src => inOp i src
  | .indexEq eq _ _ => eq.cols.reduceOption.findSome? (inOp i)
  | _ => none

/-- The rear of a loop (cg_where.c:1407-1428). -/
def tailCode : Code :=
  [.label (lab i .cont)] ++ ((levelOp i l).map Item.op).toList ++ [.label (lab i .brk)] ++
    ((levelInOp i l).map Item.op).toList ++
    match l.leftJoin with
    | some cell =>
      [.op (.memLoad cell), .op (.notNull 1 (lab i .joined)), .op (.nullRow l.cur)] ++
        (if 0 ≤ l.iCur then [.op (.nullRow l.iCur)] else []) ++ [.op (.goto (lab i .top)), .label (lab i .joined)]
    | none => []

end

/-! ## The whole code -/

/-- The loops from number `i` on, with the caller's code inside of the last: `haveKey` is whether the loop
outside of them has left the key, and `first` the cursor of the first table. -/
def loopsCode (pushKey : Bool) (first : Int) : Nat → Bool → List Loop → Code
  | i, hasKey, [] =>
    (if pushKey && !hasKey then [.op (.recno first)] else []) ++
      [.op (.body pushKey (if i = 0 then none else some (lab (i - 1) .cont)))]
  | i, _, l :: rest =>
    headCode i (pushKey && rest.isEmpty) l ++
      loopsCode pushKey first (i + 1) (haveKey (pushKey && rest.isEmpty) l) rest ++ tailCode i l

/-- What `__where_begin` has decided: a constant clause to test in front of the loops, and the loops.
There is no LEFT JOIN where the key is to be left. -/
structure Begun where
  upfront : Option Node
  pushKey : Bool
  loops : List Loop
  alone : pushKey = true → ∀ l ∈ loops, l.leftJoin = none

/-- The code from `__where_begin` to `__where_end`, less that which opens and closes the cursors. -/
def Begun.code (w : Begun) : Code :=
  (w.upfront.map fun e => [.op (.test e .iBreak)]).getD [] ++
    loopsCode w.pushKey ((w.loops.head?.map (·.cur)).getD 0) 0 false w.loops ++ [.label .iBreak]

/-! ## The terms that the cases find -/

/-- What has been chosen for a level: `direct_eq`, `direct_lt` and `direct_gt`, `pIdx->aiColumn`, and the
rest of `where_level_t`. -/
structure LevelPlan where
  directEq : Option Nat
  directLt : Option Nat
  directGt : Option Nat
  pIdx : Option (List Int)
  iCur : Int
  score : Nat
  bRev : Bool
  junk : Bool

/-- `iColumn`. -/
def columnNo : Node → Option Int
  | .null => none
  | .node d _ _ _ _ => some d.iColumn

/-- The right side of an IN. -/
def inSource : Node → Source
  | .null => .inSelect 0
  | .node d _ _ list _ =>
    match list with
    | .null => .inSelect d.iTable
    | _ => .inList d.iTable

/-- `op == TK_LE` or `op == TK_GE`. -/
def orEqual (p : Node) : Bool := isOp (.compare .le) p || isOp (.compare .ge) p

section
variable (cur : Int) (loopMask : BitVec 32)

/-- The left side is column `col` of the table, and the right one has been positioned. -/
def onLeft (col : Option Int) (info : ExprInfo) : Bool :=
  info.idxLeft == some cur && info.prereqRight &&& loopMask == info.prereqRight && columnNo (pLeft info.p) == col

def onRight (col : Option Int) (info : ExprInfo) : Bool :=
  info.idxRight == some cur && info.prereqLeft &&& loopMask == info.prereqLeft && columnNo (pRight info.p) == col

/-- A term that fixes a column: an equality, or an IN where the column is the only one. -/
def eqTerm (inOk : Bool) (col : Option Int) (info : ExprInfo) : Option Source :=
  if onLeft cur loopMask col info && isOp (.compare .eq) info.p then some (.expr (pRight info.p))
  else if onLeft cur loopMask col info && isOp .in_ info.p && inOk then some (inSource info.p)
  else if onRight cur loopMask col info && isOp (.compare .eq) info.p then some (.expr (pLeft info.p))
  else none

/-- A term that bounds a column from above, or from below without `less`. -/
def boundTerm (less : Bool) (col : Option Int) (info : ExprInfo) : Option Bound :=
  let lt := isOp (.compare .lt) info.p || isOp (.compare .le) info.p
  let gt := isOp (.compare .gt) info.p || isOp (.compare .ge) info.p
  if onLeft cur loopMask col info && (if less then lt else gt) then some ⟨pRight info.p, orEqual info.p⟩
  else if onRight cur loopMask col info && (if less then gt else lt) then some ⟨pLeft info.p, orEqual info.p⟩
  else none

/-- The first term of a kind that is left, which is used up. -/
def takeTerm {α : Type} (find : ExprInfo → Option α) :
    List (Option ExprInfo) → Option α × List (Option ExprInfo)
  | [] => (none, [])
  | p :: slots =>
    match p.bind find with
    | some a => (some a, none :: slots)
    | none =>
      let (a, slots) := takeTerm find slots
      (a, p :: slots)

/-- The loop over the columns that are fixed. -/
def takeCols (inOk : Bool) : List (Option Int) → List (Option ExprInfo) →
    List (Option Source) × List (Option ExprInfo)
  | [], slots => ([], slots)
  | col :: cols, slots =>
    let (s, slots) := takeTerm (eqTerm cur loopMask inOk col) slots
    let (rest, slots) := takeCols inOk cols slots
    (s :: rest, slots)

/-- A bound, if the score counts on one. -/
def takeBound (counted less : Bool) (col : Option Int) (slots : List (Option ExprInfo)) :
    Option (Option Bound) × List (Option ExprInfo) :=
  if counted then
    let (b, slots) := takeTerm (boundTerm cur loopMask less col) slots
    (some b, slots)
  else (none, slots)

/-- `aiColumn[0]` to `aiColumn[n - 1]`. -/
def columnsOf (aiColumn : List Int) (n : Nat) : List (Option Int) := (List.range n).map fun j => aiColumn[j]?

theorem isIn_of_takeTerm {inOk : Bool} {col : Option Int} {slots : List (Option ExprInfo)} {s : Source}
    (h : (takeTerm (eqTerm cur loopMask inOk col) slots).1 = some s) (hs : s.isIn = true) : inOk = true := by
  induction slots with
  | nil => cases h
  | cons p slots ih =>
    rw [takeTerm] at h
    split at h
    · next a ha =>
      cases h
      obtain ⟨info, -, hf⟩ := Option.bind_eq_some_iff.1 ha
      unfold eqTerm at hf
      split at hf
      · cases hf
        cases hs
      · split at hf
        · next hin =>
          simp only [Bool.and_eq_true] at hin
          exact hin.2
        · split at hf
          · cases hf
            cases hs
          · cases hf
    · exact ih h

theorem takeCols_spec (inOk : Bool) (cols : List (Option Int)) (slots : List (Option ExprInfo)) :
    (takeCols cur loopMask inOk cols slots).1.length = cols.length ∧
      ∀ s, some s ∈ (takeCols cur loopMask inOk cols slots).1 → s.isIn = true → inOk = true := by
  induction cols generalizing slots with
  | nil => exact ⟨rfl, fun s h => by cases h⟩
  | cons col cols ih =>
    obtain ⟨hlen, hin⟩ := ih (takeTerm (eqTerm cur loopMask inOk col) slots).2
    refine ⟨congrArg (· + 1) hlen, fun s hs hi => ?_⟩
    rcases List.mem_cons.1 hs with hs | hs
    · exact isIn_of_takeTerm cur loopMask hs.symm hi
    · exact hin s hs hi

/-- The columns of case 2. -/
def takeEqCols (aiColumn : List Int) (colNum : Nat) (slots : List (Option ExprInfo)) :
    EqCols × List (Option ExprInfo) :=
  let res := takeCols cur loopMask (colNum == 1) (columnsOf aiColumn colNum) slots
  (⟨res.1, fun s hs hi => by
    obtain ⟨hlen, hin⟩ := takeCols_spec cur loopMask (colNum == 1) (columnsOf aiColumn colNum) slots
    rw [hlen, columnsOf, List.length_map, List.length_range]
    exact eq_of_beq (hin s hs hi)⟩, res.2)

/-- The other side of a term on the rowid. -/
def rowidBound (info : ExprInfo) : Bound :=
  ⟨if info.idxLeft == some cur then pRight info.p else pLeft info.p, orEqual info.p⟩

/-- A term on the rowid, if there is one; none where its assertion fails, that the term is still there. -/
def takeDirect (k : Option Nat) (slots : List (Option ExprInfo)) :
    Option (Option ExprInfo × List (Option ExprInfo)) :=
  match k with
  | none => some (none, slots)
  | some k => (slot slots k).map fun info => (some info, slots.set k none)

/-- The five cases (cg_where.c:876-1324). -/
def scanOf (plan : LevelPlan) (slots : List (Option ExprInfo)) : Option (Scan × List (Option ExprInfo)) := do
  let (eq, slots) ← takeDirect plan.directEq slots
  match eq with
  | some info =>
    let src :=
      if info.idxLeft == some cur then if isOp .in_ info.p then inSource info.p else .expr (pRight info.p)
      else .expr (pLeft info.p)
    some (.rowidEq src, slots)
  | none =>
    let aiColumn := plan.pIdx.getD []
    if plan.pIdx.isSome ∧ 0 < plan.score ∧ plan.score % 4 = 0 then
      let colNum := (plan.score + 4) / 8
      let (eq, slots) := takeEqCols cur loopMask aiColumn colNum slots
      some (.indexEq eq (colNum == aiColumn.length) plan.bRev, slots)
    else if plan.directLt.isSome ∨ plan.directGt.isSome then do
      let (gt, slots) ← takeDirect plan.directGt slots
      let (lt, slots) ← takeDirect plan.directLt slots
      some (.rowidRange (gt.map (rowidBound cur)) (lt.map (rowidBound cur)), slots)
    else if plan.pIdx.isNone then some (.full, slots)
    else
      let eqcols := plan.score / 8
      let (eqs, slots) := takeCols cur loopMask false (columnsOf aiColumn eqcols) slots
      let (lt, slots) := takeBound cur loopMask (plan.score &&& 1 != 0) true aiColumn[eqcols]? slots
      let (gt, slots) := takeBound cur loopMask (plan.score &&& 2 != 0) false aiColumn[eqcols]? slots
      some (.indexRange eqs lt gt plan.bRev plan.junk, slots)

end

/-- The cells of `level->iMem`. -/
def scanCells : Scan → Nat
  | .rowidEq _ | .full => 0
  | .indexEq _ _ _ => 1
  | .rowidRange _ lt => if lt.isSome then 1 else 0
  | .indexRange eqs lt gt bRev _ =>
    (if 0 < eqs.length ∨ lt.isSome then 1 else 0) + if bRev ∧ (0 < eqs.length ∨ gt.isSome) then 1 else 0

/-- One round of the loop over the tables (cg_where.c:846-1374): the level, and the state and `nMem`
behind it. -/
def nextLoop (leftJoin : Bool) (cur : Int) (plan : LevelPlan) (g : Where.Gen) (nMem : Nat) :
    Option (Loop × Where.Gen × Nat) := do
  let cell := if nMem = 0 then 1 else nMem
  let iMem := if leftJoin then cell + 1 else nMem
  let (scan, slots) ← scanOf cur g.loopMask plan g.slots
  let (b, maskSet) := getCursorBitmask g.maskSet cur
  let loopMask := g.loopMask ||| b
  let terms := slots.map fun p => p.map fun info => info.p
  let (tests, slots) := sift (fun _ info => ready loopMask info && !(leftJoin && !fromJoin info.p)) slots
  let (late, slots) := if leftJoin then sift (fun _ info => ready loopMask info) slots else ([], slots)
  let nodes := fun (js : List Nat) => js.filterMap fun j => terms[j]?.join
  some ({
    cur, iCur := plan.iCur, leftJoin := if leftJoin then some cell else none
    iMem, scan, tests := nodes tests, late := nodes late }, ⟨slots, loopMask, maskSet⟩, iMem + scanCells scan)

/-- The loop over the tables. -/
def allLoops (plan : Nat → LevelPlan) : Nat → Bool → List SrcItem → Where.Gen → Nat → Option (List Loop)
  | _, _, [], _, _ => some []
  | i, leftJoin, item :: rest, g, nMem => do
    let (l, g, nMem) ← nextLoop leftJoin item.iCursor (plan i) g nMem
    let ls ← allLoops plan (i + 1) item.jtLeft rest g nMem
    some (l :: ls)

theorem nextLoop_leftJoin {cur : Int} {plan : LevelPlan} {g g' : Where.Gen} {nMem nMem' : Nat} {l : Loop}
    (h : nextLoop false cur plan g nMem = some (l, g', nMem')) : l.leftJoin = none := by
  obtain ⟨res, -, h⟩ := Option.bind_eq_some_iff.1 h
  cases h
  rfl

/-- A single table has no LEFT JOIN. -/
theorem allLoops_alone {plan : Nat → LevelPlan} {items : List SrcItem} {g : Where.Gen} {nMem : Nat} {ls : List Loop}
    (h : allLoops plan 0 false items g nMem = some ls) (hlen : items.length = 1) : ∀ l ∈ ls, l.leftJoin = none := by
  obtain ⟨item, rfl⟩ := List.length_eq_one_iff.1 hlen
  obtain ⟨⟨l, g', nMem'⟩, hl, h⟩ := Option.bind_eq_some_iff.1 h
  cases h
  intro l' hl'
  obtain rfl := List.mem_singleton.1 hl'
  exact nextLoop_leftJoin hl

/-- `__where_begin` (cg_where.c:424-1379) by any plan; none where it emits no loops, since the clause is
too complex or an assertion fails. -/
def whereBegin (q : Join) (plan : Nat → LevelPlan) (pushKey : Bool) (nMem : Nat) : Option Begun :=
  let terms := exprSplit numSlots q.whereClause
  let infos := analyzeTerms q.trigStack terms .empty
  let constant := !isNull q.whereClause && (q.tabList.isEmpty || exprIsConstant q.whereClause)
  if hpush : terms.length = numSlots ∨ (pushKey = true ∧ q.tabList.length ≠ 1) then none
  else
    match h : allLoops plan 0 false q.tabList ⟨infos.1.map some, 0#32, planMasks infos.2 q.tabList⟩ nMem with
    | none => none
    | some loops =>
      some {
        upfront := if constant then some q.whereClause else none
        pushKey, loops
        alone := fun hp => allLoops_alone h (not_not.1 fun hlen => hpush (.inr ⟨hp, hlen⟩)) }

end Dbsql.L5.WhereCode
