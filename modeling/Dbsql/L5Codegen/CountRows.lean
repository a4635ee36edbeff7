import Dbsql.Core.Jumps
import Dbsql.L1Encoding.RowidKey
import Mathlib.Data.List.Basic
/-!
# The count of rows (cg_insert.c:107-635, cg_update.c:45-517, cg_delete.c:91-390)

With `DBSQL_CountRows` set, INSERT, UPDATE and DELETE count their rows and give the count to the
callback. INSERT counts in a memory cell; UPDATE and DELETE count with `OP_AddImm` on top of the stack.
In between run the programs of triggers, whose statements are coded by the same functions
(cg_trigger.c:794-980).

A statement is run as its code says, with the opcodes that touch the counter, the stack under it and
the list of rowids. What the other code does is given by functions of the state of everything else
(`D`): it ends, with the values that it leaves on the stack, or `RAISE(IGNORE)` jumps, or it ends the
program. A value on the stack stands for the integer that `OP_AddImm` makes of it.

`Vm.changed` and `Vm.taken` are no part of the code: the number of rows that the statement itself has
changed, and the branches taken that matter to the count.
-/
namespace Dbsql.L5.CountRows
open Dbsql.Core.Jumps Dbsql.L1

/-! ## The machine -/

/-- The branches that matter. -/
inductive Event
  /-- an INSERT or a DELETE of a trigger program gives its count to the callback -/
  | counted
  /-- the loop of an UPDATE or a DELETE goes on with the list of another one -/
  | lost
  /-- a row of a view is through in an UPDATE or a DELETE -/
  | view
  /-- a row of the list of an UPDATE or a DELETE has gone from the table -/
  | gone
  /-- the jump of `RAISE(IGNORE)`, before the row has been changed by an UPDATE or a DELETE -/
  | ignored
  /-- code has left values on the stack -/
  | left
  deriving DecidableEq, Repr

/-- `vdbe_t`; `pList` has what is to be read, `rows` the rows given to the callback, `data` all else. -/
structure Vm (D : Type) where
  stack : List CInt
  aMem : Nat → CInt
  pList : List CInt
  keylistStack : List (List CInt)
  rows : List CInt
  data : D
  changed : Nat
  taken : List Event

/-- How code ends that does not come to its end: with a jump to the next row of its statement, with the
jump of `RAISE(IGNORE)` in the program of a trigger, with the end of the program, or where there is
nothing to say: an assertion has failed, or a list is lost. -/
inductive Exit
  | cont
  | ignore
  | halt
  | stuck
  deriving DecidableEq, Repr

def Exit.goesOn (e : Exit) : Bool := e = .cont

variable {D : Type}

/-- Code of this machine. -/
abbrev VmCode (D : Type) := Code Exit (Vm D)

def Vm.log (s : Vm D) (ev : Event) : Vm D := { s with taken := ev :: s.taken }

/-! ### Opcodes -/

/-- What is done with the top of the stack, which is popped. -/
def withTop (f : CInt → VmCode D) : VmCode D := fun s =>
  match s.stack with
  | [] => (some .stuck, s)
  | tos :: st => f tos { s with stack := st }

def push (vs : List CInt) : VmCode D := fun s => (none, { s with stack := vs ++ s.stack })

/-- `OP_Integer`. -/
def integer (p1 : CInt) : VmCode D := push [p1]

/-- `OP_Dup` with P1 0. -/
def dup : VmCode D := withTop fun tos => push [tos, tos]

/-- `OP_Pop`. -/
def pop (p1 : Nat) : VmCode D := fun s =>
  if p1 ≤ s.stack.length then (none, { s with stack := s.stack.drop p1 }) else (some .stuck, s)

/-- `OP_AddImm` (vdbe.c:1326-1331). -/
def addImm (p1 : CInt) : VmCode D := withTop fun tos => push [tos + p1]

/-- `OP_MemStore` with P2 1. -/
def memStore (p1 : Nat) : VmCode D :=
  withTop fun tos s => (none, { s with aMem := Function.update s.aMem p1 tos })

/-- `OP_MemLoad`. -/
def memLoad (p1 : Nat) : VmCode D := fun s => push [s.aMem p1] s

/-- `OP_MemIncr` with P2 0. -/
def memIncr (p1 : Nat) : VmCode D :=
  fun s => (none, { s with aMem := Function.update s.aMem p1 (s.aMem p1 + 1) })

/-- `OP_Callback` with P1 1 (vdbe.c:950-983), in a statement of a trigger program or not. -/
def callback (trigStack : Bool) : VmCode D := withTop fun tos s =>
  let s := { s with rows := s.rows ++ [tos] }
  (none, if trigStack then s.log .counted else s)

/-- `OP_ListWrite`. -/
def listWrite : VmCode D := withTop fun tos s => (none, { s with pList := s.pList ++ [tos] })

/-- `OP_ListPush`. -/
def listPush : VmCode D :=
  fun s => (none, { s with pList := [], keylistStack := s.pList :: s.keylistStack })

/-- `OP_ListPop`. -/
def listPop : VmCode D := fun s =>
  match s.keylistStack with
  | [] => (some .stuck, s)
  | l :: ls => (none, { s with pList := l, keylistStack := ls })

def note (ev : Event) : VmCode D := fun s => (none, s.log ev)

/-- `k` rows have been changed, by the statement itself or by one of a trigger program. -/
def noteRows (trigStack : Bool) (k : Nat) : VmCode D :=
  fun s => (none, if trigStack then s else { s with changed := s.changed + k })

/-! ### Other code -/

/-- What code does; `left` are the values that it leaves on the stack. -/
inductive Ran (D : Type)
  | done (d : D) (left : List CInt)
  | raise (d : D) (left : List CInt)
  | error (d : D)

/-- The jump of `RAISE(IGNORE)`. Outside of a trigger program it is not coded (cg_expr.c). -/
def raise (trigStack : Bool) (d : D) (left : List CInt) : VmCode D := fun s =>
  (some (if trigStack then .ignore else .halt), { s with data := d, stack := left ++ s.stack })

def error (d : D) : VmCode D := fun s => (some .halt, { s with data := d })

/-- `above` tells whether a counter may be under what is left. -/
def leave (above : Bool) (d : D) (left : List CInt) : VmCode D := fun s =>
  let s := { s with data := d, stack := left ++ s.stack }
  (none, if above ∧ left ≠ [] then s.log .left else s)

def part (trigStack above : Bool) (run : D → Ran D) : VmCode D := fun s =>
  match run s.data with
  | .done d left => leave above d left s
  | .raise d left => raise trigStack d left s
  | .error d => error d s

/-- What the code of one row does, that checks the constraints and stores the row (`Rows.rowStmt_keeps`);
a constraint with IGNORE goes on with the next row. -/
inductive Stored (D : Type)
  | stored (d : D)
  | ignored (d : D)
  | raise (d : D) (left : List CInt)
  | error (d : D)

/-- That code, where `kept` is on the stack until the row has been stored. -/
def store (trigStack : Bool) (run : D → Stored D) (kept : List CInt) : VmCode D := fun s =>
  match run s.data with
  | .stored d => (none, { s with data := d })
  | .ignored d => (some .cont, { s with data := d })
  | .raise d left => raise trigStack d (left ++ kept) s
  | .error d => error d s

/-! ### Loops over the list -/

/-- `OP_ListRead` of an entry. -/
def listRead (r : CInt) (rs : List CInt) : VmCode D :=
  fun s => (none, { s with stack := r :: s.stack, pList := rs })

/-- Whether the list is still the statement's own. -/
def sameList (rs : List CInt) : VmCode D := fun s =>
  if s.pList = rs then (none, s) else (some .stuck, s.log .lost)

/-- `addr: OP_ListRead 0 end; ..; OP_Goto 0 addr; end: OP_ListReset`. -/
def listLoopFrom (body : VmCode D) : List CInt → VmCode D
  | [] => fun s => (none, { s with pList := [] })
  | r :: rs =>
    land Exit.goesOn (block [listRead r rs, body]) (block [sameList rs, listLoopFrom body rs])

def listLoop (body : VmCode D) : VmCode D := fun s => listLoopFrom body s.pList s

/-- The code of the triggers of a row, in an UPDATE or a DELETE, in front of the change. -/
def beforeChange (c : VmCode D) : VmCode D := fun s =>
  match c s with
  | (some .cont, s) => (some .cont, s.log .ignored)
  | r => r

/-- The label that `ignoreJump` is, around the code of the triggers of a row. -/
def ignoreJump (c : VmCode D) : VmCode D := fun s =>
  match c s with
  | (some .ignore, s') => (some .cont, if s'.stack = s.stack then s' else s'.log .left)
  | r => r

/-! ## The statements -/

/-- Where the rows of an INSERT come from. A SELECT has `rows`; they go through the temporary table, or
each is inserted with its columns on the stack. -/
inductive Source (D : Type)
  | values
  | select (useTempTable : Bool) (rows : D → List (List CInt)) (run : D → Ran D)

namespace Source

def rows : Source D → D → List (List CInt)
  | values, _ => [[]]
  | select _ rows _, d => rows d

/-- What is on the stack while a row is inserted. -/
def pushed : Source D → List CInt → List CInt
  | select false _ _, row => row
  | _, _ => []

/-- The SELECT in front of the loop over the temporary table. -/
def front (trigStack : Bool) : Source D → VmCode D
  | select true _ run => part trigStack true run
  | _ => skip

/-- The end of the SELECT that calls the code of a row. -/
def rear (trigStack : Bool) : Source D → VmCode D
  | select false _ run => part trigStack true run
  | _ => skip

end Source

/-- An INSERT without its triggers. -/
structure Insert (D : Type) where
  view_p : Bool
  before_triggers_p : Bool
  row_triggers_p : Bool
  /-- `__is_table_read_only` -/
  triggers : view_p = true → before_triggers_p = true
  source : Source D
  /-- the row of NEW (cg_insert.c:431-471) -/
  newRow : D → List CInt → Ran D
  /-- cg_insert.c:506-576 -/
  store : D → List CInt → Stored D

namespace Insert
variable (q : Insert D) (countRows trigStack : Bool) (cnt_mem : Nat) (before after : VmCode D)

/-- The code of a row (cg_insert.c:421-613). -/
def row (row : List CInt) : VmCode D :=
  land Exit.goesOn
    (block [push (q.source.pushed row),
      onlyIf q.before_triggers_p (block [part trigStack true (q.newRow · row), before]),
      onlyIf (!q.view_p) (CountRows.store trigStack (q.store · row) []),
      noteRows trigStack 1,
      onlyIf countRows (memIncr cnt_mem),
      onlyIf q.row_triggers_p after])
    (pop (q.source.pushed row).length)

/-- Up to `__vdbe_conclude_write`. -/
def change : VmCode D :=
  block [q.source.front trigStack,
    onlyIf countRows (block [integer 0, memStore cnt_mem]),
    fun s => each Exit.goesOn (q.row countRows trigStack cnt_mem before after) (q.source.rows s.data) s,
    q.source.rear trigStack]

/-- `__insert`. -/
def insert : VmCode D :=
  block [q.change countRows trigStack cnt_mem before after,
    onlyIf countRows (block [memLoad cnt_mem, callback trigStack])]

end Insert

/-- The loop of a WHERE clause: its rows, each with the values that have been left on the stack before
its rowid is pushed, and what comes of the rest. -/
structure Scan (D : Type) where
  rows : List (List CInt × CInt)
  run : Ran D

/-- `__where_begin` to `__where_end`, around `OP_ListWrite` and `count`. -/
def scanLoop (trigStack above : Bool) (scan : D → Scan D) (count : VmCode D) : VmCode D := fun s =>
  let r := scan s.data
  block [each (fun _ => false)
      (fun x => block [fun s => leave above s.data x.1 s, push [x.2], listWrite, count]) r.rows,
    part trigStack above fun _ => r.run] s

/-- An UPDATE without its triggers. -/
structure Update (D : Type) where
  is_view_p : Bool
  row_triggers_exist : Bool
  triggers : is_view_p = true → row_triggers_exist = true
  /-- the view, made a temporary table -/
  view : D → Ran D
  scan : D → Scan D
  /-- the rows of OLD and NEW (cg_update.c:309-347) -/
  oldNew : D → CInt → Ran D
  exists_ : D → CInt → Bool
  /-- cg_update.c:407-451 -/
  store : D → CInt → Stored D

namespace Update
variable (q : Update D) (countRows trigStack : Bool) (before after : VmCode D)

/-- `OP_NotExists`. -/
def notExists : VmCode D := withTop fun tos s =>
  if q.exists_ s.data tos then (none, s) else (some .cont, s.log .gone)

/-- The code of a row, behind `OP_ListRead` (cg_update.c:303-480). -/
def row : VmCode D :=
  block [dup,
    onlyIf q.row_triggers_exist
      (block [dup, withTop fun tos => part trigStack true (q.oldNew · tos), beforeChange before]),
    if q.is_view_p then note .view
    else block [q.notExists, withTop fun tos => CountRows.store trigStack (q.store · tos) [tos]],
    noteRows trigStack 1,
    onlyIf (countRows && !trigStack) (addImm 1),
    onlyIf q.row_triggers_exist after]

/-- Up to `__vdbe_conclude_write`; the counter of the statement itself is on top of what the scan leaves. -/
def change : VmCode D :=
  block [onlyIf q.is_view_p (part trigStack trigStack q.view),
    scanLoop trigStack trigStack q.scan skip,
    onlyIf (countRows && !trigStack) (integer 0),
    listLoop (q.row countRows trigStack before after)]

/-- `__update`. -/
def update : VmCode D :=
  block [q.change countRows trigStack before after,
    onlyIf (countRows && !trigStack) (callback trigStack)]

end Update

/-- A DELETE without its triggers. -/
structure Delete (D : Type) where
  view_p : Bool
  row_triggers_exist : Bool
  triggers : view_p = true → row_triggers_exist = true
  /-- whether there is a WHERE clause -/
  where_ : Bool
  view : D → Ran D
  scan : D → Scan D
  /-- the number of rows, and `OP_Clear` of the table and its indices -/
  entries : D → Nat
  clear : D → D
  /-- the row of OLD (cg_delete.c:288-299) -/
  old : D → CInt → D
  /-- `__generate_row_delete` of a row that is there -/
  rowDelete : D → CInt → Option D

namespace Delete
variable (q : Delete D) (countRows trigStack : Bool) (before after : VmCode D)

/-- `__generate_row_delete` (cg_delete.c:429-441). -/
def generateRowDelete : VmCode D := withTop fun tos s =>
  match q.rowDelete s.data tos with
  | none => note .gone s
  | some d => noteRows trigStack 1 { s with data := d }

/-- The code of a row, behind `OP_ListRead` (cg_delete.c:287-359). -/
def row : VmCode D :=
  block [onlyIf q.row_triggers_exist
      (block [dup, withTop fun tos s => (none, { s with data := q.old s.data tos }), beforeChange before]),
    if q.view_p then block [note .view, noteRows trigStack 1] else q.generateRowDelete trigStack,
    onlyIf q.row_triggers_exist after]

/-- A DELETE of all rows, without triggers (cg_delete.c:211-237). -/
def deleteAll : VmCode D := fun s =>
  let n := q.entries s.data
  block [onlyIf countRows (each (fun _ => false) (fun _ => addImm 1) (List.replicate n ())),
    onlyIf (!q.view_p) (block [fun s => (none, { s with data := q.clear s.data }), noteRows trigStack n])] s

/-- Up to `__vdbe_conclude_write`. -/
def change : VmCode D :=
  block [onlyIf q.view_p (part trigStack trigStack q.view),
    onlyIf countRows (integer 0),
    if !q.where_ && !q.row_triggers_exist then q.deleteAll countRows trigStack
    else block [scanLoop trigStack true q.scan (onlyIf countRows (addImm 1)),
      listLoop (q.row trigStack before after)]]

/-- `__delete_from`. -/
def deleteFrom : VmCode D :=
  block [q.change countRows trigStack before after,
    onlyIf countRows (callback trigStack)]

end Delete

mutual

/-- A statement with the triggers that fire before and after a row. -/
inductive Stmt (D : Type)
  | insert (q : Insert D) (before after : List (Trigger D))
  | update (q : Update D) (before after : List (Trigger D))
  | deleteFrom (q : Delete D) (before after : List (Trigger D))

/-- `trigger_t`, with the code of its WHEN clause. -/
inductive Trigger (D : Type)
  | mk (pWhen : D → Ran D) (fires : D → Bool) (step_list : List (Step D))

/-- `trigger_step_t`. -/
inductive Step (D : Type)
  | select (run : D → Ran D)
  | stmt (q : Stmt D)

end

mutual

/-- The cells of the counters of a statement and of its triggers. -/
def Stmt.cells : Stmt D → Nat
  | .insert _ before after => triggersCells before + triggersCells after + 1
  | .update _ before after | .deleteFrom _ before after => triggersCells before + triggersCells after

def triggersCells : List (Trigger D) → Nat
  | [] => 0
  | t :: ts => t.cells + triggersCells ts

def Trigger.cells : Trigger D → Nat
  | .mk _ _ step_list => stepsCells step_list

def stepsCells : List (Step D) → Nat
  | [] => 0
  | t :: ts => t.cells + stepsCells ts

def Step.cells : Step D → Nat
  | .select _ => 0
  | .stmt q => q.cells

end

/-- `OP_ListPush` and `OP_ListPop` around an UPDATE or a DELETE (cg_trigger.c:817-843). -/
def Stmt.inList (c : VmCode D) : Stmt D → VmCode D
  | .insert _ _ _ => c
  | _ => block [listPush, c, listPop]

mutual

/-- The code of a statement; `nMem` is `parser->nMem` as far as counters go. -/
def Stmt.code (countRows trigStack : Bool) (nMem : Nat) : Stmt D → VmCode D
  | .insert q before after =>
    q.insert countRows trigStack nMem (ignoreJump (codeRowTrigger countRows (nMem + 1) before))
      (ignoreJump (codeRowTrigger countRows (nMem + 1 + triggersCells before) after))
  | .update q before after =>
    q.update countRows trigStack (ignoreJump (codeRowTrigger countRows nMem before))
      (ignoreJump (codeRowTrigger countRows (nMem + triggersCells before) after))
  | .deleteFrom q before after =>
    q.deleteFrom countRows trigStack (ignoreJump (codeRowTrigger countRows nMem before))
      (ignoreJump (codeRowTrigger countRows (nMem + triggersCells before) after))

/-- `__code_row_trigger` (cg_trigger.c:884-980) of the triggers that fire. -/
def codeRowTrigger (countRows : Bool) (nMem : Nat) : List (Trigger D) → VmCode D
  | [] => skip
  | t :: ts => block [t.code countRows nMem, codeRowTrigger countRows (nMem + t.cells) ts]

/-- Up to the label `end_trigger`. -/
def Trigger.code (countRows : Bool) (nMem : Nat) : Trigger D → VmCode D
  | .mk pWhen fires step_list => fun s =>
    block [part true true pWhen, onlyIf (fires s.data) (codeTriggerProgram countRows nMem step_list)] s

/-- `__code_trigger_program` (cg_trigger.c:794-851). -/
def codeTriggerProgram (countRows : Bool) (nMem : Nat) : List (Step D) → VmCode D
  | [] => skip
  | t :: ts => block [t.code countRows nMem, codeTriggerProgram countRows (nMem + t.cells) ts]

def Step.code (countRows : Bool) (nMem : Nat) : Step D → VmCode D
  | .select run => part true true run
  | .stmt q => q.inList (q.code countRows true nMem)

end

/-- A run of a statement that is no part of a trigger program, with `DBSQL_CountRows` set. -/
def Stmt.run (q : Stmt D) (d : D) : Option Exit × Vm D :=
  q.code true false 0 ⟨[], fun _ => 0, [], [], [], d, 0, []⟩

/-! ## What is promised -/

/-- One row, the number of the rows changed by the statement itself; none if the program ends with an
error. -/
def Stmt.Delivers (q : Stmt D) (d : D) : Prop :=
  ((q.run d).1 = none ∧ ∃ n, (q.run d).2.rows = [n] ∧ n.toInt = (q.run d).2.changed) ∨
    ((q.run d).1 = some .halt ∧ (q.run d).2.rows = [])

/-- The branches that a statement must not take. -/
def Stmt.harms : Stmt D → Event → Bool
  | .insert _ _ _, ev => ev = .counted ∨ ev = .lost
  | _, _ => true

/-- The condition: no such branch is taken, and there are fewer rows than an int can count. -/
structure Stmt.Meets (q : Stmt D) (d : D) : Prop where
  taken : ∀ ev ∈ (q.run d).2.taken, q.harms ev = false
  few : (q.run d).2.changed < 2147483648

end Dbsql.L5.CountRows
