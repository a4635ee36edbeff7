import Dbsql.L3Vdbe.RowMachine
/-!
# The code of a row (cg_insert.c:739-1068, cg_update.c:404-470, cg_delete.c:403-510)

What `__generate_constraint_checks`, `__complete_insertion`, `__generate_row_delete` and
`__generate_row_index_delete` emit, and the code of one row that `__insert`, `__update` and
`__delete_from` build from them. Code is generated at a given address; a label is an address.

A conflict algorithm is one of five (`Conflict`); where the source has `OE_Default` there is
none, and where it has `OE_None` there is no constraint.
-/
namespace Dbsql.L5.Rows
open Dbsql.Core Dbsql.L1 Dbsql.L3 Dbsql.L3.Row

/-- `OE_Rollback` … `OE_Replace`. -/
inductive Conflict
  | rollback | abort | fail | ignore | replace
  deriving DecidableEq, Repr

def Conflict.oe : Conflict → Oe
  | .rollback => .rollback
  | .abort => .abort
  | .fail => .fail
  | .ignore => .ignore
  | .replace => .replace

/-- `column_t`. -/
structure Column where
  zName : Bytes
  /-- `none` is `OE_None`, `some none` is `OE_Default` -/
  notNull : Option (Option Conflict)
  zDflt : Option Bytes
  /-- `(sortOrder & DBSQL_SO_TYPEMASK) == DBSQL_SO_TEXT` -/
  text : Bool
  deriving DecidableEq, Repr

/-- `index_t`. -/
structure Index where
  aiColumn : List Nat
  /-- as `Column.notNull` -/
  onError : Option (Option Conflict)
  deriving DecidableEq, Repr

/-- `table_t`, no view. -/
structure Table where
  zName : Bytes
  aCol : List Column
  iPKey : Option Nat
  keyConf : Option Conflict
  pIndex : List Index
  columns : ∀ ix ∈ pIndex, ix.aiColumn ≠ [] ∧ ∀ c ∈ ix.aiColumn, c < aCol.length

def Table.nCol (tab : Table) : Nat := tab.aCol.length

/-- The text that `__add_idx_key_type` puts into P3 (cg_build.c:1743-1770). -/
def idxKeyType (tab : Table) (ix : Index) : Bytes :=
  ix.aiColumn.map fun col => if (tab.aCol[col]?.map (·.text)).getD false then 116 else 110

/-- The arguments of `__generate_constraint_checks` and `__complete_insertion` after the table,
and what they read of the parser. -/
structure Args where
  base : Nat
  usedIndices : Option (List Bool)
  willRecnoChng : Bool
  update : Bool
  overrideError : Option Conflict
  ignoreDest : Nat
  /-- `parser->db->onError` -/
  onError : Option Conflict
  /-- `parser->trigStack != 0` -/
  trigStack : Bool
  newIdx : Option Nat
  deriving DecidableEq, Repr

namespace Args

/-- Whether an index is used. -/
def used (g : Args) (cur : Nat) : Bool :=
  match g.usedIndices with
  | none => true
  | some l => l.getD cur false

/-- `two_recnos_p`. -/
def twoRecnos (g : Args) : Nat := if g.update && g.willRecnoChng then 1 else 0

/-- The algorithm for a constraint that declares `declared`. -/
def resolve (g : Args) (declared : Option Conflict) : Conflict :=
  match g.overrideError with
  | some c => c
  | none =>
    match g.onError with
    | some c => c
    | none => declared.getD .abort

end Args

/-- Pieces of code, one after the other. -/
def emit : List (Nat → List Op) → Nat → List Op
  | [], _ => []
  | f :: fs, a => f a ++ emit fs (a + (f a).length)

/-! ## Deleting -/

/-- The opcodes that push the columns of the row under the cursor, from the `j`-th of the index
on. -/
def pushRowCols (tab : Table) (cur : Nat) : Nat → List Nat → List Op
  | _, [] => []
  | j, n :: rest =>
    (if tab.iPKey = some n then .dup j else .column cur n) :: pushRowCols tab cur (j + 1) rest

/-- The code for one index of `__generate_row_index_delete`. -/
def idxDelete (tab : Table) (cur i : Nat) (ix : Index) : List Op :=
  [.recno cur] ++ pushRowCols tab cur 0 ix.aiColumn ++
    [.makeIdxKey ix.aiColumn.length 0 (idxKeyType tab ix), .idxDelete (cur + i)]

/-- `__generate_row_index_delete` (cg_delete.c:478-510), from the `i`-th index on. -/
def rowIndexDeleteFrom (tab : Table) (cur : Nat) (used : Nat → Bool) : Nat → List Index → List Op
  | _, [] => []
  | i, ix :: rest =>
    (if used (i - 1) then idxDelete tab cur i ix else []) ++ rowIndexDeleteFrom tab cur used (i + 1) rest

/-- `__generate_row_index_delete`. -/
def rowIndexDelete (tab : Table) (cur : Nat) (used : Nat → Bool) : List Op :=
  rowIndexDeleteFrom tab cur used 1 tab.pIndex

/-- `__generate_row_delete` (cg_delete.c:432-446). -/
def rowDelete (tab : Table) (cur : Nat) (count : Bool) (a : Nat) : List Op :=
  let body := rowIndexDelete tab cur (fun _ => true) ++ [.delete cur count]
  [.notExists cur (a + 1 + body.length)] ++ body

/-! ## Checking -/

/-- The message of a NOT NULL constraint. -/
def notNullMsg (tab : Table) (col : Column) : Bytes :=
  tab.zName ++ ascii "." ++ col.zName ++ ascii " may not be NULL"

/-- The algorithm of a NOT NULL constraint. -/
def notNullAction (g : Args) (col : Column) (declared : Option Conflict) : Conflict :=
  let onError := g.resolve declared
  if onError = .replace ∧ col.zDflt = none then .abort else onError

/-- What follows an `OP_NotNull` that finds NULL in the column `i`. -/
def notNullConflict (tab : Table) (g : Args) (i : Nat) (col : Column) (declared : Option Conflict) :
    List Op :=
  match notNullAction g col declared with
  | .ignore => [.pop (tab.nCol + 1 + g.twoRecnos), .goto g.ignoreDest]
  | .replace => [.string col.zDflt, .push (tab.nCol - i)]
  | onError => [.halt .constraint onError.oe (notNullMsg tab col)]

/-- The NOT NULL test of the column `i`. -/
def notNullCheck (tab : Table) (g : Args) (i : Nat) (col : Column) (a : Nat) : List Op :=
  if tab.iPKey = some i then []
  else
    match col.notNull with
    | none => []
    | some declared =>
      let body := notNullConflict tab g i col declared
      [.dup (tab.nCol - 1 - i), .notNull (a + 2 + body.length)] ++ body

/-- The NOT NULL tests, from the column `i` on. -/
def notNullChecks (tab : Table) (g : Args) : Nat → List Column → Nat → List Op
  | _, [], _ => []
  | i, col :: rest, a =>
    let code := notNullCheck tab g i col a
    code ++ notNullChecks tab g (i + 1) rest (a + code.length)

/-- What follows an `OP_NotExists` that finds the new rowid. -/
def rowidConflict (tab : Table) (g : Args) : List Op :=
  match g.resolve tab.keyConf with
  | .replace => rowIndexDelete tab g.base (fun _ => true) ++
      if g.update then [.dup (tab.nCol + g.twoRecnos), .moveTo g.base] else []
  | .ignore => [.pop (tab.nCol + 1 + g.twoRecnos), .goto g.ignoreDest]
  | onError => [.halt .constraint onError.oe (ascii "PRIMARY KEY must be unique")]

/-- The test that the new rowid does not exist. -/
def rowidCheck (tab : Table) (g : Args) (a : Nat) : List Op :=
  if g.willRecnoChng then
    let body := rowidConflict tab g
    if g.update then
      let cont := a + 5 + body.length
      [.dup (tab.nCol + 1), .dup (tab.nCol + 1), .eq cont, .dup tab.nCol, .notExists g.base cont] ++
        body ++ [.dup (tab.nCol + 1), .moveTo g.base]
    else [.dup tab.nCol, .notExists g.base (a + 2 + body.length)] ++ body
  else []

/-- The loop that puts the column names into `err_msg`, whose size is 200. -/
def errMsgCols : Bool → Bytes → List Bytes → Bytes
  | _, n1, [] => n1
  | first, n1, col :: cols =>
    if n1.length < 170 then
      let n1 := if first then n1 else n1 ++ ascii ", "
      if 170 < n1.length + col.length then n1 ++ ascii "..." else errMsgCols false (n1 ++ col) cols
    else n1

/-- The message of a UNIQUE constraint. -/
def uniqueMsg (tab : Table) (ix : Index) : Bytes :=
  let names := ix.aiColumn.map fun c => (tab.aCol[c]?.map (·.zName)).getD []
  if 1 < ix.aiColumn.length then
    errMsgCols true (ascii "columns ") names ++ ascii " are not unique"
  else errMsgCols true (ascii "column ") names ++ ascii " is not unique"

/-- The opcodes that push the columns of an index entry, from the `i`-th on. -/
def pushIdxColsFrom (tab : Table) (extra : Nat) : Nat → List Nat → List Op
  | _, [] => []
  | i, idx :: rest =>
    (if tab.iPKey = some idx then .dup (i + extra + tab.nCol + 1)
      else .dup (i + extra + tab.nCol - idx)) :: pushIdxColsFrom tab extra (i + 1) rest

/-- The opcodes that push the rowid and the columns of an index entry. -/
def pushIdxCols (tab : Table) (extra : Nat) (ix : Index) : List Op :=
  [.dup (tab.nCol + extra)] ++ pushIdxColsFrom tab extra 0 ix.aiColumn

/-- The algorithm of a UNIQUE constraint, after a REPLACE or not. -/
def uniqueAction (g : Args) (seenReplace : Bool) (declared : Option Conflict) : Conflict :=
  match g.resolve declared with
  | .ignore => if seenReplace then .replace else .ignore
  | .fail => if seenReplace then .abort else .fail
  | onError => onError

/-- What follows an `OP_IsUnique` that finds another entry. -/
def uniqueConflict (tab : Table) (g : Args) (extra : Nat) (ix : Index) (onError : Conflict)
    (a : Nat) : List Op :=
  match onError with
  | .replace => rowDelete tab g.base false a ++
      if g.update then [.dup (tab.nCol + extra + 1 + g.twoRecnos), .moveTo g.base] else []
  | .ignore => [.pop (tab.nCol + extra + 3 + g.twoRecnos), .goto g.ignoreDest]
  | onError => [.halt .constraint onError.oe (uniqueMsg tab ix)]

/-- The code for one used index: its key, and its UNIQUE constraint. -/
def indexCheck (tab : Table) (g : Args) (cur extra : Nat) (seenReplace : Bool) (ix : Index) (a : Nat) :
    List Op :=
  let push := pushIdxCols tab extra ix
  let key (p2 : Nat) : Op := .makeIdxKey ix.aiColumn.length p2 (idxKeyType tab ix)
  match ix.onError with
  | none => push ++ [key 0]
  | some declared =>
    let body := uniqueConflict tab g extra ix (uniqueAction g seenReplace declared) (a + push.length + 3)
    let cont := a + push.length + 3 + body.length
    push ++ [key cont, .dup (extra + tab.nCol + 1 + g.twoRecnos), .isUnique (g.base + cur + 1) cont] ++
      body

/-- Whether a REPLACE has been coded, after the index. -/
def seenAfter (g : Args) (seenReplace : Bool) (ix : Index) : Bool :=
  match ix.onError with
  | none => seenReplace
  | some declared => seenReplace || uniqueAction g seenReplace declared = .replace

/-- The loop over the indices. -/
def indexChecks (tab : Table) (g : Args) : Nat → Nat → Bool → List Index → Nat → List Op
  | _, _, _, [], _ => []
  | cur, extra, seenReplace, ix :: rest, a =>
    if g.used cur then
      let code := indexCheck tab g cur extra seenReplace ix a
      code ++ indexChecks tab g (cur + 1) (extra + 1) (seenAfter g seenReplace ix) rest (a + code.length)
    else indexChecks tab g (cur + 1) extra seenReplace rest a

/-- Whether the test of the rowid has coded a REPLACE. -/
def seenAtRowid (tab : Table) (g : Args) : Bool :=
  g.willRecnoChng && decide (g.resolve tab.keyConf = .replace)

/-- `__generate_constraint_checks` (cg_insert.c:739-1004). -/
def constraintChecks (tab : Table) (g : Args) : Nat → List Op :=
  emit [notNullChecks tab g 0 tab.aCol, rowidCheck tab g,
    indexChecks tab g 0 0 (seenAtRowid tab g) tab.pIndex]

/-! ## Storing -/

/-- `__complete_insertion` (cg_insert.c:1030-1068). -/
def completeInsertion (tab : Table) (g : Args) : List Op :=
  ((List.range tab.pIndex.length).reverse.filter g.used).map (fun i => .idxPut (g.base + i + 1)) ++
    [.makeRecord tab.nCol] ++
    (match g.newIdx with
      | none => []
      | some newIdx => [.dup 1, .dup 1, .putIntKey newIdx false]) ++
    [.putIntKey g.base !g.trigStack] ++
    if g.update && g.willRecnoChng then [.pop 1] else []

/-! ## One row -/

/-- The code for one row of `__insert` (cg_insert.c:632-640), after the row has been pushed;
`keyCol` tells whether the rowid comes from a column. -/
def insertRow (tab : Table) (base : Nat) (keyCol : Bool) (onError override : Option Conflict)
    (trigStack : Bool) (newIdx : Option Nat) (ignoreDest : Nat) : Nat → List Op :=
  emit [
    constraintChecks tab ⟨base, none, keyCol, false, override, ignoreDest, onError, trigStack, none⟩,
    fun _ => completeInsertion tab
      ⟨base, none, false, false, override, ignoreDest, onError, trigStack, newIdx⟩]

/-- What an UPDATE changes: the new rowid, and for each column its new value. -/
structure Changes where
  recno : Option Val
  xref : List (Option Val)
  deriving DecidableEq, Repr

/-- `idx_used[]` (cg_update.c:193-222). -/
def Changes.idxUsed (ch : Changes) (tab : Table) : List Bool :=
  tab.pIndex.map fun ix =>
    if ch.recno.isSome then decide (0 < ix.aiColumn.length)
    else ix.aiColumn.any fun c => (ch.xref.getD c none).isSome

/-- `open_all_p`, as a function of the override (cg_update.c:366-378). -/
def openAll (tab : Table) (override : Option Conflict) : Bool :=
  override = some .replace || tab.pIndex.any fun ix => ix.onError = some (some .replace)

/-- The code that pushes the columns of an UPDATE, from the column `i` on. -/
def pushUpdated (tab : Table) (cur : Nat) (ch : Changes) (i : Nat) : Op :=
  if tab.iPKey = some i then .string none
  else
    match ch.xref.getD i none with
    | none => .column cur i
    | some v => .expr v

/-- The arguments of `__update` for the checks. -/
def updateArgs (tab : Table) (base : Nat) (ch : Changes) (onError override : Option Conflict)
    (trigStack : Bool) (addr : Nat) : Args :=
  ⟨base, some (ch.idxUsed tab), ch.recno.isSome, true, override, addr, onError, trigStack, none⟩

/-- The code for one row of `__update` (cg_update.c:407-470), after its rowid has been pushed
twice. -/
def updateRow (tab : Table) (base : Nat) (ch : Changes) (onError override : Option Conflict)
    (trigStack : Bool) (addr : Nat) : Nat → List Op :=
  let g := updateArgs tab base ch onError override trigStack addr
  emit [
    fun _ => [.notExists base addr],
    fun _ => match ch.recno with
      | none => []
      | some v => [.expr v, .mustBeInt],
    fun _ => (List.range tab.nCol).map (pushUpdated tab base ch),
    constraintChecks tab g,
    fun _ => rowIndexDelete tab base g.used,
    fun _ => if ch.recno.isSome then [.delete base false] else [],
    fun _ => completeInsertion tab g]

end Dbsql.L5.Rows
