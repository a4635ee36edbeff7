import Dbsql.L1Encoding.Mem
import Dbsql.L2Storage.Btree
/-!
# SELECT and its set operators (cg_select.c)

The run of the code that `__select` and `__multi_select` emit, block by block: the body that
`__select_inner_loop` puts into a loop, run on one row; the loop over the rows of a scan, of
the groups, or of a temporary table; the tail that empties the sorter; and the chain of
SELECTs with its temporary tables. The rows of a scan, with their sort keys and their
DISTINCT keys, are given; a row that goes into a temporary table is its record image.

A table opened by `OP_OpenTemp` with P2 holds keys, in their order; without P2 it holds rows,
in the order they were put. A counter is a memory cell that is empty until `OP_MemStore`;
`OP_MemIncr` of an empty cell fails its assertion, and the run has no result.

ORDER BY terms are resolved (see `OrderBy`); `le` says of two sort keys that `__str_cmp` is at
most 0. The names of columns, and the callbacks that tell them, are left out.

Results:
* `alreadyExists_iff`: `OP_Distinct`, `OP_Found` and `OP_NotFound` answer yes when some key is
  at or above the one sought.
-/
namespace Dbsql.L5.Query
open Dbsql.Core Dbsql.L1 Dbsql.L2

/-! ## Rows -/

/-- A row of a scan. -/
structure Row where
  /-- `OP_MakeRecord` of its columns -/
  image : Bytes
  /-- `OP_MakeKey` of its columns -/
  key : Bytes
  /-- `OP_SortMakeKey` of the ORDER BY terms -/
  sortKey : Bytes
  deriving DecidableEq, Repr

/-- `SRT_Callback`, `SRT_Table`, `SRT_Union` and `SRT_Except`. -/
inductive Dest | callback | table | union | except
  deriving DecidableEq, Repr

/-- What the rows have gone into: the callback or a table of rows, and a table of keys. -/
structure Out where
  rows : List Bytes
  set : Btree

def Out.empty : Out := ⟨[], .empty⟩

/-- The search of `OP_Distinct`, `OP_Found` and `OP_NotFound` (vdbe.c:2776-2803). -/
def alreadyExists (t : Btree) (key : Bytes) : Bool :=
  let rx := smMoveto t none key 0
  rx.rc = .success && rx.result = 0

/-- The end of `__select_inner_loop` and of the tail: one row goes where it goes. -/
def deliver (dest : Dest) (o : Out) (image : Bytes) : Out :=
  match dest with
  | .callback | .table => { o with rows := o.rows ++ [image] }
  | .union => { o with set := o.set.insert ⟨image⟩ [] }
  | .except =>
    if alreadyExists o.set image then
      { o with set := (smDelete o.set (smMoveto o.set none image 0).pos).1 }
    else o

/-! ## Counters -/

/-- `iLimit` and `iOffset`: no register, or its cell. -/
structure Limits where
  iLimit : Option (Option CInt)
  iOffset : Option (Option CInt)
  deriving DecidableEq, Repr

def Limits.none : Limits := ⟨.none, .none⟩

/-- `__compute_limit_registers` (cg_select.c:1486-1523), and the two stores it emits; when the
code is jumped over the cells stay empty. -/
def computeLimitRegisters (nLimit nOffset : CInt) (stored : Bool) (l : Limits) : Limits where
  iLimit := if 0 ≤ nLimit.toInt then some (if stored then some (-nLimit) else .none) else l.iLimit
  iOffset := if 0 < nOffset.toInt then some (if stored then some (-nOffset) else .none) else l.iOffset

/-- `OP_MemIncr` with P2 (vdbe.c:4467-4478): the cell, and whether it jumps. -/
def memIncr (cell : Option CInt) : Option (CInt × Bool) :=
  cell.map fun i => (i + 1, 0 < (i + 1).toInt)

/-- Where a row goes: on, or to the labels `cont` and `brk`. -/
inductive Ctl | pass | cont | brk
  deriving DecidableEq, Repr

/-- The offset counter; whether the row is dropped. -/
def countOffset (l : Limits) : Option (Bool × Limits) :=
  match l.iOffset with
  | .none => some (false, l)
  | some cell => (memIncr cell).map fun (i, jump) => (!jump, { l with iOffset := some (some i) })

/-- The limit counter. -/
def countLimit (l : Limits) : Option (Ctl × Limits) :=
  match l.iLimit with
  | .none => some (.pass, l)
  | some cell => (memIncr cell).map fun (i, jump) =>
    (if jump then .brk else .pass, { l with iLimit := some (some i) })

/-- The counters of the inner loop and of the tail. -/
def countRow (l : Limits) : Option (Ctl × Limits) := do
  let (skip, l) ← countOffset l
  if skip then some (.cont, l) else countLimit l

/-! ## Loops -/

/-- A loop around the inner loop: its rows, the test before it (HAVING, or the search of
INTERSECT), and whether there is a DISTINCT table. -/
structure Scan where
  rows : List Row
  test : Row → Bool
  distinct : Bool

/-- The state of a loop; `pSort` has the last row first. -/
structure State where
  limits : Limits
  distinct : Btree
  pSort : List Row
  out : Out

/-- What becomes of a row that is not a duplicate. -/
def dispose (orderBy : Bool) (dest : Dest) (s : State) (r : Row) : State :=
  if orderBy then { s with pSort := r :: s.pSort } else { s with out := deliver dest s.out r.image }

/-- The code of `__select_inner_loop` (cg_select.c:519-711), run on a row. -/
def selectInnerLoop (distinct orderBy : Bool) (dest : Dest) (s : State) (r : Row) :
    Option (Ctl × State) := do
  let (c, limits) ← if orderBy then some (.pass, s.limits) else countRow s.limits
  let s := { s with limits := limits }
  if c ≠ .pass then some (c, s)
  else if distinct then
    if alreadyExists s.distinct r.key then some (.cont, s)
    else some (.cont, dispose orderBy dest { s with distinct := s.distinct.insert ⟨r.key⟩ [] } r)
  else some (.cont, dispose orderBy dest s r)

/-- The loop over the rows. -/
def loop (test : Row → Bool) (distinct orderBy : Bool) (dest : Dest) :
    List Row → State → Option State
  | [], s => some s
  | r :: rs, s =>
    if test r then do
      let (c, s) ← selectInnerLoop distinct orderBy dest s r
      if c = .brk then some s else loop test distinct orderBy dest rs s
    else loop test distinct orderBy dest rs s

/-- The loop of `__generate_sort_tail` (cg_select.c:736-797). -/
def sortTail (dest : Dest) : List Row → Limits → Out → Option (Limits × Out)
  | [], l, o => some (l, o)
  | r :: rs, l, o => do
    let (c, l) ← countRow l
    match c with
    | .cont => sortTail dest rs l o
    | .brk => some (l, o)
    | .pass => sortTail dest rs l (deliver dest o r.image)

/-! ## The sorter -/

section
variable (le : Bytes → Bytes → Bool)

/-- `__sorted_merge` (vdbe.c:422-448). -/
def sortedMerge (left right : List Row) : List Row :=
  left.merge right fun a b => le a.sortKey b.sortKey

/-- The loop of `OP_Sort` over `apSorter`, from one place on. -/
def sortInsert (pElem : List Row) : List (List Row) → List (List Row)
  | [] => []
  | [b] => [sortedMerge le b pElem]
  | b :: bs => if b.isEmpty then pElem :: bs else [] :: sortInsert (sortedMerge le b pElem) bs

/-- `OP_Sort` (vdbe.c:4100-4131). -/
def opSort (pSort : List Row) : List Row :=
  let apSorter := pSort.foldl (fun bins r => sortInsert le [r] bins) (.replicate 30 [])
  apSorter.foldl (fun pElem b => sortedMerge le b pElem) []

end

variable (le : Bytes → Bytes → Bool)

/-- A loop with its tail. -/
def scan (c : Scan) (orderBy : Bool) (dest : Dest) (l : Limits) (o : Out) :
    Option (Limits × Out) := do
  let s ← loop c.test c.distinct orderBy dest c.rows ⟨l, .empty, [], o⟩
  if orderBy then sortTail dest (opSort le s.pSort) s.limits s.out else some (s.limits, s.out)

/-! ## Chains -/

/-- `TK_ALL`, `TK_UNION`, `TK_EXCEPT` and `TK_INTERSECT`. -/
inductive SetOp | all | union | except | intersect
  deriving DecidableEq, Repr

/-- `__select_op_name` (cg_select.c:950-962). -/
def SetOp.name : SetOp → String
  | .all => "UNION ALL"
  | .intersect => "INTERSECT"
  | .except => "EXCEPT"
  | .union => "UNION"

/-- `select_t`. In a compound the sort key is that of the columns. -/
structure Select where
  scan : Scan
  nExpr : Nat
  orderBy : Option (Bytes → Bytes)
  nLimit : CInt
  nOffset : CInt

/-- A SELECT, or one with its `pPrior`. -/
inductive Chain
  | one (s : Select)
  | compound (prior : Chain) (op : SetOp) (s : Select)

/-- The `select_t` that stands for the chain, the rightmost. -/
def Chain.last : Chain → Select
  | .one s => s
  | .compound _ _ s => s

/-- The errors of `__multi_select`, in the order it meets them. -/
def check : Chain → Except String Unit
  | .one _ => .ok ()
  | .compound prior op s =>
    if prior.last.orderBy.isSome then
      .error s!"ORDER BY clause should come after {op.name} not before"
    else if 0 ≤ prior.last.nLimit.toInt ∨ 0 < prior.last.nOffset.toInt then
      .error s!"LIMIT clause should come after {op.name} not before"
    else
      match check prior with
      | .error msg => .error msg
      | .ok _ =>
        if s.nExpr ≠ prior.last.nExpr then
          .error (s!"SELECTs to the left and right of {op.name}" ++
            " do not have the same number of result columns")
        else .ok ()

/-- A single SELECT (cg_select.c:2410-2846): the registers, the loop, and the tail. -/
def selectOne (s : Select) (dest : Dest) (orderBy : Bool) (nLimit nOffset : CInt) (l : Limits)
    (o : Out) : Option (Limits × Out) :=
  let orderBy := if dest = .union ∨ dest = .except then false else orderBy
  scan le s.scan orderBy dest (computeLimitRegisters nLimit nOffset true l) o

/-- The rows of a temporary table. -/
def tempRow (orderBy : Option (Bytes → Bytes)) (image : Bytes) : Row :=
  ⟨image, [], (orderBy.getD fun _ => []) image⟩

/-- The keys of a table, in their order. -/
def imagesOf (t : Btree) : List Bytes := t.keys.map Dbt.data

/-- The loop over a temporary table at the end of a compound; the registers are stored behind
`OP_Rewind`, which jumps over them when the table is empty. -/
def tempScan (rows : List Bytes) (test : Row → Bool) (orderBy : Option (Bytes → Bytes))
    (dest : Dest) (nLimit nOffset : CInt) (o : Out) : Option (Limits × Out) :=
  scan le ⟨rows.map (tempRow orderBy), test, false⟩ orderBy.isSome dest
    (computeLimitRegisters nLimit nOffset (!rows.isEmpty) .none) o

/-- `__select` and `__multi_select` (cg_select.c:1555-1823) with the ORDER BY, LIMIT and OFFSET
that the last SELECT has when it is coded. -/
def select : Chain → Dest → Option (Bytes → Bytes) → CInt → CInt → Out → Option (Limits × Out)
  | .one s, dest, orderBy, nLimit, nOffset, o =>
    selectOne le s dest orderBy.isSome nLimit nOffset .none o
  | .compound prior op s, dest, orderBy, nLimit, nOffset, o =>
    if op = .all ∧ orderBy.isNone then do
      let (l, o) ← select prior dest none nLimit nOffset o
      selectOne le s dest false (-1) 0 l o
    else if op = .intersect then do
      let (_, tab1) ← select prior .union none prior.last.nLimit prior.last.nOffset .empty
      let (_, tab2) ← selectOne le s .union orderBy.isSome (-1) 0 .none .empty
      tempScan le (imagesOf tab1.set) (fun r => alreadyExists tab2.set r.image) orderBy dest
        nLimit nOffset o
    else
      let priorOp := if op = .all then Dest.table else .union
      let rightOp := if op = .all then Dest.table else if op = .except then .except else .union
      if dest = priorOp ∧ orderBy.isNone ∧ nLimit.toInt < 0 ∧ nOffset = 0 then do
        -- the temporary table of the SELECT to the right
        let (_, o) ← select prior priorOp none prior.last.nLimit prior.last.nOffset o
        selectOne le s rightOp false (-1) 0 .none o
      else do
        let (_, tab) ← select prior priorOp none prior.last.nLimit prior.last.nOffset .empty
        let (_, tab) ← selectOne le s rightOp false (-1) 0 .none tab
        tempScan le (if op = .all then tab.rows else imagesOf tab.set) (fun _ => true) orderBy dest
          nLimit nOffset o

/-- What ends a statement without a result. -/
inductive Failure
  | error (msg : String)
  | assertion
  deriving DecidableEq, Repr

/-- A whole statement. -/
def Chain.run (c : Chain) (dest : Dest) : Except Failure (List Bytes) :=
  match check c with
  | .error msg => .error (.error msg)
  | .ok _ =>
    match select le c dest c.last.orderBy c.last.nLimit c.last.nOffset .empty with
    | none => .error .assertion
    | some (_, o) => .ok o.rows

/-! ## The search -/

/-- **The search of `OP_Distinct`, `OP_Found` and `OP_NotFound`.** -/
theorem alreadyExists_iff {t : Btree} {key : Bytes} :
    alreadyExists t key = true ↔ ∃ k ∈ t, ⟨key⟩ ≤ k := by
  unfold alreadyExists
  rw [Bool.and_eq_true, decide_eq_true_eq, decide_eq_true_eq, smMoveto_result_eq_zero]
  exact and_iff_right smMoveto_rc

theorem alreadyExists_empty (key : Bytes) : alreadyExists .empty key = false :=
  Bool.eq_false_iff.2 fun h => by
    obtain ⟨k, hk, -⟩ := alreadyExists_iff.1 h
    exact SortedMap.not_mem_empty hk

end Dbsql.L5.Query
