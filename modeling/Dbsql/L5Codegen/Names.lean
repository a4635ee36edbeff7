import Dbsql.L5Codegen.Expr
import Dbsql.L5Codegen.MinMax
/-!
# FROM lists and names (cg_expr.c:549-815, cg_build.c:2440-2530, cg_auth.c:112-193)

`__lookup_name` finds the column that a name of one, two or three parts means among the items
of the FROM list, the pseudo-tables NEW and OLD of a trigger, the rowids, and for a single name
the aliases of the result columns. An item goes by its alias, or by the name of its table.

`SrcItem` is an item with its table found; `FromItem` is one as it is written. The parser's
action for an alias hands `__str_nappend` a null pointer for the string to be set, so no alias
is ever stored, except the name that `__fill_in_column_list` makes up for a sub-select.

Results:
* `resolveName_fallback`, `resolveName_asked`: a name means its only candidate among the items as
  they are stored, once the authorizer has been asked.
* `asked_isSome`: the authorizer cannot be asked where the name of a table means none.
-/
namespace Dbsql.L5.Names
open Dbsql.L1
open Dbsql.L5.MinMax (tolower)

/-! ## Strings -/

/-- `strcasecmp(a, b) == 0`. -/
def strcasecmp (a b : Bytes) : Bool := a.map tolower = b.map tolower

/-- `__is_row_id` (cg_expr.c:549-559). -/
def isRowId (z : Bytes) : Bool :=
  strcasecmp z (ascii "_ROWID_") || strcasecmp z (ascii "ROWID") || strcasecmp z (ascii "OID")

/-- `__str_nappend` (str.c:174-214): `*result` after it, if `result` is not a null pointer. -/
def strNappend (result : Option (Option Bytes)) (args : List (Bytes × Int)) : Option (Option Bytes) :=
  result.map fun _ => some (args.flatMap fun (tmp, n) => if n ≤ 0 then tmp else tmp.take n.toNat)

/-! ## Tables and FROM lists -/

/-- `column_t`, less what names do not ask for. -/
structure Column where
  zName : Bytes
  sortOrder : BitVec 8

/-- `table_t`, less what names do not ask for. -/
structure Table where
  zName : Option Bytes
  iDb : Nat
  aCol : List Column
  iPKey : Option Nat

/-- `__column_index` (cg_select.c:183-196). -/
def columnIndex (table : Table) (col : Bytes) : Option Nat :=
  table.aCol.findIdx? fun c => strcasecmp c.zName col

/-- `src_list_item`. -/
structure SrcItem where
  zAlias : Option Bytes
  pTab : Option Table
  iCursor : Int
  natural : Bool
  pOn : Bool
  pUsing : Option (List Bytes)

/-- An item as it is written: the table or view, or the columns of a sub-select and its address
as `%p` prints it; and what follows AS, or nothing. -/
structure FromItem where
  table : Table
  pSelect : Option Bytes
  as_ : Bytes
  natural : Bool
  pOn : Bool
  pUsing : Option (List Bytes)

/-- `__src_list_add_alias` (cg_build.c:2518-2529). -/
def srcListAddAlias (zAlias : Option Bytes) (token : Bytes) : Option Bytes :=
  -- the null pointer stands where the address of `zAlias` belongs
  ((strNappend none [(token, token.length)]).getD zAlias).map strUnquote

/-- `"___subquery_%p_"`. -/
def fakeName (address : Bytes) : Bytes := ascii "___subquery_" ++ address ++ ascii "_"

/-- The item that the parser makes (sql_parser.y:367-391), with the table that
`__fill_in_column_list` fills in (cg_select.c:1012-1074). -/
def FromItem.toSrc (f : FromItem) (iCursor : Int) : SrcItem :=
  let zAlias := if f.as_.isEmpty then none else srcListAddAlias none f.as_
  match f.pSelect with
  | none => ⟨zAlias, some f.table, iCursor, f.natural, f.pOn, f.pUsing⟩
  | some address =>
    let zAlias := zAlias.getD (fakeName address)
    ⟨some zAlias, some ⟨some zAlias, 0, f.table.aCol, none⟩, iCursor, f.natural, f.pOn, f.pUsing⟩

/-- The FROM list, with the cursors from `n` on. -/
def srcList (n : Nat) (fs : List FromItem) : List SrcItem := fs.mapIdx fun k f => f.toSrc (n + k : Nat)

/-! ## The context -/

/-- `trigger_stack_t`; an index is -1 where the pseudo-table is not there. -/
structure TrigStack where
  pTab : Table
  newIdx : Int
  oldIdx : Int

/-- The databases' names, the trigger being coded, and the authorizer, which is asked for a
table, a column and a database. -/
structure Ctx where
  aDb : List Bytes
  trigStack : Option TrigStack
  auth : Option (Option Bytes → Bytes → Bytes → CInt)

/-- The tokens `Z`, `Y.Z` or `X.Y.Z`. -/
inductive Ref
  | id (column : Bytes)
  | dot (table column : Bytes)
  | dot3 (db table column : Bytes)

def Ref.db : Ref → Option Bytes
  | .id _ | .dot _ _ => none
  | .dot3 db _ _ => some db

def Ref.table : Ref → Option Bytes
  | .id _ => none
  | .dot table _ | .dot3 _ table _ => some table

def Ref.column : Ref → Bytes
  | .id column | .dot _ column | .dot3 _ _ column => column

/-- What an expression refers to. -/
structure Found where
  iTable : Int
  iDb : Nat
  iColumn : Int
  dataType : BitVec 8
  deriving DecidableEq

/-! ## The authorizer -/

inductive AuthOut
  | silent
  | null
  | denied (zErrMsg : Bytes)
  | misuse (zErrMsg : Bytes)
  deriving DecidableEq

/-- `"access to … is prohibited"`. -/
def deniedMsg (cx : Ctx) (iDb : Nat) (databasename table col : Bytes) : Bytes :=
  let name := table ++ ascii "." ++ col
  ascii "access to " ++ (if 2 < cx.aDb.length ∨ iDb ≠ 0 then databasename ++ ascii "." ++ name else name) ++
    ascii " is prohibited"

/-- `__auth_bad_return_code` (cg_auth.c:98-110). -/
def badReturnMsg (rc : CInt) : Bytes :=
  ascii "illegal return value " ++ ascii "(" ++ fmtD rc ++ ascii ")" ++
    ascii " from the authorization function - " ++
    ascii "should be DBSQL_SUCCESS, DBSQL_IGNORE, or DBSQL_DENY"

/-- The table that `__auth_read` takes a column reference to be in; none where an assertion
fails. -/
def authTable (cx : Ctx) (slist : List SrcItem) (iTable : Int) : Option (Option Table) :=
  match slist.find? fun item => item.iCursor = iTable with
  | some item => some item.pTab
  | none => cx.trigStack.bind fun stack =>
    if iTable = stack.newIdx ∨ iTable = stack.oldIdx then some (some stack.pTab) else none

/-- The name of a column; none where an assertion fails. -/
def authColumn (table : Table) (iColumn : Int) : Option Bytes :=
  if 0 ≤ iColumn then table.aCol[iColumn.toNat]?.map (·.zName)
  else
    match table.iPKey with
    | some k => table.aCol[k]?.map (·.zName)
    | none => some (ascii "ROWID")

/-- `__auth_read` (cg_auth.c:130-193). -/
def authRead (cx : Ctx) (slist : List SrcItem) (expr : Found) : Option AuthOut :=
  match cx.auth with
  | none => some .silent
  | some auth => do
    match ← authTable cx slist expr.iTable with
    | none => some .silent
    | some table =>
      let col ← authColumn table expr.iColumn
      let databasename ← cx.aDb[expr.iDb]?
      let rc := auth table.zName col databasename
      if rc = 2 then some .null
      else if rc = 1 then some (.denied (deniedMsg cx expr.iDb databasename (table.zName.getD []) col))
      else if rc ≠ 0 then some (.misuse (badReturnMsg rc))
      else some .silent

/-! ## `__lookup_name` -/

/-- What the expression refers to, and the counters of matching columns and tables. -/
structure Scan where
  cnt : Nat
  ntables : Nat
  expr : Found

/-- A column of a table; the INTEGER PRIMARY KEY is the rowid. -/
def Table.found (table : Table) (iTable : Int) (j : Nat) : Found where
  iTable := iTable
  iDb := table.iDb
  iColumn := if table.iPKey = some j then -1 else j
  dataType := (table.aCol[j]?.map (·.sortOrder)).getD 0 &&& 6

/-- Whether an item is one that the name of a table means. -/
def named (aDb : List Bytes) (db table : Option Bytes) (item : SrcItem) (t : Table) : Bool :=
  match table with
  | none => true
  | some tableName =>
    match item.zAlias with
    | some tname => strcasecmp tname tableName
    | none =>
      match t.zName with
      | none => false
      | some tname =>
        strcasecmp tname tableName &&
          (match db with
          | none => true
          | some dbName => strcasecmp (aDb.getD t.iDb []) dbName)

/-- One table of the loop over the FROM list, or the pseudo-table. -/
def Scan.look (s : Scan) (iTable : Int) (t : Table) (col : Bytes) : Scan :=
  match columnIndex t col with
  | none => s
  | some j => { s with cnt := s.cnt + 1, expr := t.found iTable j }

/-- The loop over the FROM list. -/
def scanItem (aDb : List Bytes) (db table : Option Bytes) (col : Bytes) (s : Scan) (item : SrcItem) :
    Scan :=
  match item.pTab with
  | none => s
  | some t =>
    if named aDb db table item t then
      let s := if s.ntables = 0 then
        { s with expr := { s.expr with iTable := item.iCursor, iDb := t.iDb } } else s
      { s with ntables := s.ntables + 1 }.look item.iCursor t col
    else s

/-- NEW or OLD, and its cursor. -/
def pseudoTable (trigStack : Option TrigStack) (db table : Option Bytes) : Option (Int × Table) :=
  match db, table, trigStack with
  | none, some tableName, some stack =>
    if stack.newIdx ≠ -1 ∧ strcasecmp (ascii "new") tableName then some (stack.newIdx, stack.pTab)
    else if stack.oldIdx ≠ -1 ∧ strcasecmp (ascii "old") tableName then some (stack.oldIdx, stack.pTab)
    else none
  | _, _, _ => none

/-- What `__lookup_name` does to an expression, and what it returns: a column reference, a copy
of a result column, an expression left as the string it is, or an error. -/
inductive Out
  | column (expr : Found) (auth : AuthOut)
  | as_ (iColumn : Nat)
  | string
  | error (zErrMsg : Bytes) (auth : AuthOut)
  deriving DecidableEq

/-- The scan of the FROM list, the pseudo-tables and the rowids. -/
def scanAll (cx : Ctx) (slist : List SrcItem) (db table : Option Bytes) (col : Bytes) : Scan :=
  let s := slist.foldl (scanItem cx.aDb db table col) ⟨0, 0, ⟨-1, 0, 0, 0⟩⟩
  let s :=
    if s.cnt = 0 then
      match pseudoTable cx.trigStack db table with
      | none => s
      | some (iTable, t) =>
        { s with ntables := s.ntables + 1, expr := { s.expr with iTable := iTable, iDb := t.iDb } }.look
          iTable t col
    else s
  if s.cnt = 0 ∧ s.ntables = 1 ∧ isRowId col then
    { s with cnt := 1, expr := { s.expr with iColumn := -1, dataType := 4 } }
  else s

/-- The result column of that alias. -/
def aliasIndex (elist : List (Option Bytes)) (col : Bytes) : Option Nat :=
  elist.findIdx? fun as_ => (as_.map fun z => strcasecmp z col).getD false

/-- The name in an error message. -/
def dotted (db table : Option Bytes) (col : Bytes) : Bytes :=
  match db, table with
  | some d, some t => d ++ ascii "." ++ t ++ ascii "." ++ col
  | _, some t => t ++ ascii "." ++ col
  | _, none => col

/-- `__lookup_name` (cg_expr.c:601-815); none where an assertion of `__auth_read` fails. `elist`
has the aliases of the result columns, where they may be meant. -/
def lookupName (cx : Ctx) (slist : List SrcItem) (elist : Option (List (Option Bytes))) (r : Ref) :
    Option Out :=
  let db := r.db.map strUnquote
  let table := r.table.map strUnquote
  let col := strUnquote r.column
  let s := scanAll cx slist db table col
  match (if s.cnt = 0 then elist.bind fun elist => aliasIndex elist col else none) with
  | some j => some (.as_ j)
  | none =>
    if s.cnt = 0 ∧ table = none ∧ r.column.head? = some 34 then some .string
    else if s.cnt ≠ 1 then
      let err := if s.cnt = 0 then "no such column: " else "ambiguous column name: "
      (authRead cx slist s.expr).map (.error (ascii err ++ dotted db table col))
    else (authRead cx slist s.expr).map (.column s.expr)

/-- A name in an expression (cg_expr.c:885-923): only a single one may be an alias of a result
column. -/
def resolveName (cx : Ctx) (slist : List SrcItem) (elist : Option (List (Option Bytes))) (r : Ref) :
    Option Out :=
  lookupName cx slist (if r.table = none then elist else none) r

/-! ## What a name means -/

section
variable (cx : Ctx) (slist : List SrcItem) (db table : Option Bytes) (col : Bytes)

/-- The tables that the name of a table means, each with its cursor; all without a name. -/
def namedItems : List (Int × Table) := slist.filterMap fun item =>
  item.pTab.bind fun t => if named cx.aDb db table item t then some (item.iCursor, t) else none

/-- The column of that name. -/
def columnOf (it : Int × Table) : Option Found := (columnIndex it.2 col).map (it.2.found it.1)

def rowidOf (it : Int × Table) : Found := ⟨it.1, it.2.iDb, -1, 4⟩

/-- What the name may mean: the columns of that name, of the items or else of the pseudo-table;
or else, for a rowid name, the rowid of the only table meant. -/
def candidates : List Found :=
  let items := namedItems cx slist db table
  let pseudo := (pseudoTable cx.trigStack db table).toList
  if items.filterMap (columnOf col) ≠ [] then items.filterMap (columnOf col)
  else if pseudo.filterMap (columnOf col) ≠ [] then pseudo.filterMap (columnOf col)
  else
    match items ++ pseudo with
    | [it] => if isRowId col then [rowidOf it] else []
    | _ => []

end

/-- What becomes of a name. -/
inductive Verdict
  | bound (expr : Found)
  | as_ (iColumn : Nat)
  | string
  | error
  deriving DecidableEq

def Out.verdict : Out → Verdict
  | .column expr _ => .bound expr
  | .as_ j => .as_ j
  | .string => .string
  | .error _ _ => .error

/-- The candidates of a reference. -/
def Ref.candidates (r : Ref) (cx : Ctx) (slist : List SrcItem) : List Found :=
  Names.candidates cx slist (r.db.map strUnquote) (r.table.map strUnquote) (strUnquote r.column)

/-- Where a single name has no candidate: the result column of that alias, or the string it is
if it has double quotes. -/
def Ref.fallback (r : Ref) (elist : Option (List (Option Bytes))) : Option Verdict :=
  if r.table ≠ none then none
  else
    match elist.bind fun elist => aliasIndex elist (strUnquote r.column) with
    | some j => some (.as_ j)
    | none => if r.column.head? = some 34 then some .string else none

/-- A name means its only candidate. -/
def meaning (cx : Ctx) (slist : List SrcItem) (elist : Option (List (Option Bytes))) (r : Ref) :
    Verdict :=
  match r.candidates cx slist with
  | [f] => .bound f
  | [] => (r.fallback elist).getD .error
  | _ => .error

/-! ## The scan -/

section
variable {cx : Ctx} {slist : List SrcItem} {db table : Option Bytes} {col : Bytes}

/-- The expression where no column was found: the first table meant. -/
def firstOf (items : List (Int × Table)) : Found :=
  match items.head? with
  | some it => ⟨it.1, it.2.iDb, 0, 0⟩
  | none => ⟨-1, 0, 0, 0⟩

theorem columnOf_eq (it : Int × Table) (s : Scan) : s.look it.1 it.2 col =
    match columnOf col it with
    | none => s
    | some f => { s with cnt := s.cnt + 1, expr := f } := by
  unfold Scan.look columnOf
  cases columnIndex it.2 col <;> rfl

/-- The counters and the expression after the loop. -/
theorem foldl_scanItem (slist : List SrcItem) :
    slist.foldl (scanItem cx.aDb db table col) ⟨0, 0, ⟨-1, 0, 0, 0⟩⟩ =
      ⟨((namedItems cx slist db table).filterMap (columnOf col)).length,
        (namedItems cx slist db table).length,
        (((namedItems cx slist db table).filterMap (columnOf col)).getLast?).getD
          (firstOf (namedItems cx slist db table))⟩ := by
  induction slist using List.reverseRecOn with
  | nil => rfl
  | append_singleton slist item ih =>
    have hitems : namedItems cx (slist ++ [item]) db table = namedItems cx slist db table ++
        (item.pTab.bind fun t =>
          if named cx.aDb db table item t then some (item.iCursor, t) else none).toList := by
      simp only [namedItems, List.filterMap_append]
      cases h : (item.pTab.bind fun t =>
        if named cx.aDb db table item t then some (item.iCursor, t) else none) <;>
        simp [h]
    rw [List.foldl_append, List.foldl_cons, List.foldl_nil, ih, hitems, scanItem]
    cases item.pTab with
    | none => simp
    | some t =>
      dsimp only [Option.bind_some]
      cases named cx.aDb db table item t with
      | false => simp
      | true =>
        rw [if_pos rfl, if_pos rfl, Option.toList_some, List.filterMap_append]
        have hlook := @columnOf_eq col (item.iCursor, t)
        dsimp only at hlook ⊢
        rw [hlook]
        cases hcol : columnOf col (item.iCursor, t) with
        | some f => cases namedItems cx slist db table <;> simp [hcol]
        | none =>
          cases hlist : namedItems cx slist db table with
          | nil => simp [hcol, firstOf]
          | cons it items => simp [hcol, firstOf]

/-- The scan counts the candidates, and the expression is the last. -/
theorem scanAll_eq : (scanAll cx slist db table col).cnt = (candidates cx slist db table col).length ∧
    (scanAll cx slist db table col).expr = ((candidates cx slist db table col).getLast?).getD
      (firstOf ((pseudoTable cx.trigStack db table).toList ++ namedItems cx slist db table)) := by
  unfold scanAll candidates
  rw [foldl_scanItem]
  generalize namedItems cx slist db table = items
  dsimp only
  cases hcols : items.filterMap (columnOf col) with
  | cons f fs => simp [List.getLast?_eq_some_getLast (List.cons_ne_nil f fs)]
  | nil =>
    cases pseudoTable cx.trigStack db table with
    | none =>
      rcases items with _ | ⟨it, _ | ⟨it', items⟩⟩
      · simp
      · cases isRowId col <;> simp [firstOf, rowidOf]
      · simp [firstOf]
    | some it =>
      have hlook := fun s => @columnOf_eq col it s
      simp only [hlook]
      cases hcol : columnOf col it with
      | some f => simp [hcol]
      | none =>
        rcases items with _ | ⟨it', items⟩
        · cases isRowId col <;> simp [hcol, firstOf, rowidOf]
        · simp [hcol, firstOf]

end

/-! ## The lookup -/

section
variable {cx : Ctx} {slist : List SrcItem} {elist : Option (List (Option Bytes))} {r : Ref}

/-- The tables that the name of the table means, NEW or OLD first. -/
def Ref.tables (r : Ref) (cx : Ctx) (slist : List SrcItem) : List (Int × Table) :=
  (pseudoTable cx.trigStack (r.db.map strUnquote) (r.table.map strUnquote)).toList ++
    namedItems cx slist (r.db.map strUnquote) (r.table.map strUnquote)

/-- What the authorizer is asked about. -/
def Ref.asked (r : Ref) (cx : Ctx) (slist : List SrcItem) : Found :=
  (r.candidates cx slist).getLast?.getD (firstOf (r.tables cx slist))

/-- A name without candidates that is an alias or a string. -/
theorem resolveName_fallback {v : Verdict} (h : r.candidates cx slist = [])
    (hv : r.fallback elist = some v) : (resolveName cx slist elist r).map Out.verdict = some v := by
  obtain ⟨hcnt, -⟩ := @scanAll_eq cx slist (r.db.map strUnquote) (r.table.map strUnquote)
    (strUnquote r.column)
  rw [Ref.candidates] at h
  rw [h, List.length_nil] at hcnt
  unfold Ref.fallback at hv
  split at hv
  · cases hv
  · rename_i hid
    rw [not_not] at hid
    unfold resolveName lookupName
    dsimp only
    rw [if_pos hid, if_pos hcnt]
    cases halias : elist.bind fun elist => aliasIndex elist (strUnquote r.column) with
    | some j =>
      rw [halias] at hv
      cases hv
      rfl
    | none =>
      rw [halias] at hv
      dsimp only at hv ⊢
      split at hv
      · rename_i hq
        cases hv
        rw [if_pos ⟨hcnt, by rw [hid]; rfl, hq⟩]
        rfl
      · cases hv

/-- Otherwise the authorizer is asked, and what it says does not change what the name means. -/
theorem resolveName_asked (h : r.candidates cx slist = [] → r.fallback elist = none) :
    (resolveName cx slist elist r).map Out.verdict =
      (authRead cx slist (r.asked cx slist)).map fun _ => meaning cx slist elist r := by
  obtain ⟨hcnt, hexpr⟩ := @scanAll_eq cx slist (r.db.map strUnquote) (r.table.map strUnquote)
    (strUnquote r.column)
  change _ = (r.candidates cx slist).length at hcnt
  change _ = r.asked cx slist at hexpr
  unfold resolveName lookupName meaning
  dsimp only
  cases hc : r.candidates cx slist with
  | nil =>
    have hf := h hc
    rw [hc, List.length_nil] at hcnt
    unfold Ref.fallback at hf
    rw [hcnt, if_pos rfl, hexpr]
    by_cases hid : r.table = none
    · rw [if_neg (not_not.2 hid)] at hf
      rw [if_pos hid]
      cases halias : elist.bind fun elist => aliasIndex elist (strUnquote r.column) with
      | some j =>
        rw [halias] at hf
        cases hf
      | none =>
        rw [halias] at hf
        dsimp only at hf ⊢
        split at hf
        · cases hf
        · rename_i hq
          rw [if_neg fun h => hq h.2.2, if_pos (by decide)]
          simp [Ref.fallback, hid, halias, hq, Function.comp_def, Out.verdict]
    · have hmap : r.table.map strUnquote ≠ none := fun h => hid (Option.map_eq_none_iff.1 h)
      rw [if_neg hid]
      dsimp only [Option.bind_none]
      rw [if_neg fun h => hmap h.2.1, if_pos (by decide)]
      simp [Ref.fallback, hid, Function.comp_def, Out.verdict]
  | cons f fs =>
    rw [hc, List.length_cons] at hcnt
    rw [hcnt, if_neg (by omega), hexpr]
    dsimp only
    rw [if_neg (by omega)]
    cases fs with
    | nil =>
      have hf : r.asked cx slist = f := by
        rw [Ref.asked, hc]
        rfl
      rw [if_neg (by simp), hf]
      simp [Function.comp_def, Out.verdict]
    | cons g fs =>
      rw [if_pos (by simp)]
      simp [Function.comp_def, Out.verdict]

end

/-! ## The authorizer is asked about a table -/

structure Table.Wf (cx : Ctx) (t : Table) : Prop where
  cols : 0 < t.aCol.length
  pkey : ∀ k, t.iPKey = some k → k < t.aCol.length
  db : t.iDb < cx.aDb.length

/-- Tables have columns and a database, and the cursors of NEW and OLD are older than those of
the FROM list. -/
structure Wf (cx : Ctx) (n : Nat) (fs : List FromItem) : Prop where
  tables : ∀ f ∈ fs, f.table.Wf cx
  trigger : ∀ stack, cx.trigStack = some stack →
    stack.pTab.Wf cx ∧ stack.newIdx < n ∧ stack.oldIdx < n

section
variable {cx : Ctx} {n : Nat} {fs : List FromItem} {r : Ref}

theorem mem_srcList {item : SrcItem} :
    item ∈ srcList n fs ↔ ∃ (k : Nat) (f : FromItem), fs[k]? = some f ∧
      item = f.toSrc (n + k : Nat) := by
  rw [srcList, List.mem_mapIdx]
  constructor
  · rintro ⟨k, hk, rfl⟩
    exact ⟨k, _, List.getElem?_eq_getElem hk, rfl⟩
  · rintro ⟨k, f, hk, rfl⟩
    obtain ⟨hlt, rfl⟩ := List.getElem?_eq_some_iff.1 hk
    exact ⟨k, hlt, rfl⟩

theorem toSrc_iCursor (f : FromItem) (i : Int) : (f.toSrc i).iCursor = i := by
  unfold FromItem.toSrc
  cases f.pSelect <;> rfl

/-- The table of an item, and its columns. -/
theorem toSrc_pTab (f : FromItem) (i : Int) : ∃ t, (f.toSrc i).pTab = some t ∧
    t.aCol = f.table.aCol ∧ ∀ cx, f.table.Wf cx → t.Wf cx := by
  unfold FromItem.toSrc
  cases f.pSelect with
  | none => exact ⟨_, rfl, rfl, fun _ => id⟩
  | some _ => exact ⟨_, rfl, rfl, fun cx h => ⟨h.cols, fun k hk => (by cases hk), Nat.zero_lt_of_lt h.db⟩⟩

/-- An item is found by its cursor. -/
theorem find_srcList {item : SrcItem} (h : item ∈ srcList n fs) :
    (srcList n fs).find? (fun item' => item'.iCursor = item.iCursor) = some item := by
  obtain ⟨k, f, hk, rfl⟩ := mem_srcList.1 h
  cases hfind : (srcList n fs).find? fun item' => item'.iCursor = (f.toSrc (n + k : Nat)).iCursor with
  | none => simpa using List.find?_eq_none.1 hfind _ h
  | some item' =>
    obtain ⟨k', f', hk', rfl⟩ := mem_srcList.1 (List.mem_of_find?_eq_some hfind)
    have hcur := List.find?_some hfind
    rw [decide_eq_true_eq, toSrc_iCursor, toSrc_iCursor] at hcur
    have hkk : k' = k := by omega
    subst hkk
    rw [hk] at hk'
    cases hk'
    rfl

theorem mem_namedItems {slist : List SrcItem} {db table : Option Bytes} {it : Int × Table}
    (h : it ∈ namedItems cx slist db table) : ∃ item ∈ slist, item.iCursor = it.1 ∧
      item.pTab = some it.2 ∧ named cx.aDb db table item it.2 = true := by
  obtain ⟨item, hitem, hb⟩ := List.mem_filterMap.1 h
  obtain ⟨t, ht, hif⟩ := Option.bind_eq_some_iff.1 hb
  split at hif
  · rename_i hn
    cases hif
    exact ⟨item, hitem, rfl, ht, hn⟩
  · cases hif

theorem mem_pseudoTable {db table : Option Bytes} {it : Int × Table}
    (h : pseudoTable cx.trigStack db table = some it) : ∃ stack, cx.trigStack = some stack ∧
      stack.pTab = it.2 ∧ (it.1 = stack.newIdx ∨ it.1 = stack.oldIdx) := by
  unfold pseudoTable at h
  split at h
  · rename_i stack hstack
    refine ⟨stack, hstack, ?_⟩
    split at h
    · cases h
      exact ⟨rfl, .inl rfl⟩
    · split at h
      · cases h
        exact ⟨rfl, .inr rfl⟩
      · cases h
  · cases h

/-- A table meant is the one that the authorizer's question is about. -/
theorem authTable_tables (hw : Wf cx n fs) {it : Int × Table}
    (h : it ∈ r.tables cx (srcList n fs)) :
    authTable cx (srcList n fs) it.1 = some (some it.2) ∧ it.2.Wf cx := by
  rcases List.mem_append.1 h with h | h
  · obtain ⟨stack, hstack, ht, hidx⟩ := mem_pseudoTable (Option.mem_toList.1 h)
    obtain ⟨htw, hnew, hold⟩ := hw.trigger stack hstack
    have hnone : (srcList n fs).find? (fun item => item.iCursor = it.1) = none := by
      rw [List.find?_eq_none]
      intro item hitem
      obtain ⟨k, f, -, rfl⟩ := mem_srcList.1 hitem
      rw [toSrc_iCursor, decide_eq_true_eq]
      omega
    refine ⟨?_, ht ▸ htw⟩
    rw [authTable, hnone, hstack, ← ht]
    exact if_pos hidx
  · obtain ⟨item, hitem, hcur, htab, -⟩ := mem_namedItems h
    obtain ⟨k, f, hk, rfl⟩ := mem_srcList.1 hitem
    obtain ⟨t, ht, -, hwf⟩ := toSrc_pTab f (n + k : Nat)
    rw [ht] at htab
    cases htab
    refine ⟨?_, hwf cx (hw.tables f (List.mem_of_getElem? hk))⟩
    rw [authTable, ← hcur, find_srcList hitem]
    exact congrArg some ht

theorem authRead_isSome (hw : Wf cx n fs) {it : Int × Table} (h : it ∈ r.tables cx (srcList n fs))
    {e : Found} (ht : e.iTable = it.1) (hd : e.iDb = it.2.iDb)
    (hc : e.iColumn < it.2.aCol.length) : (authRead cx (srcList n fs) e).isSome = true := by
  obtain ⟨htable, hwf⟩ := authTable_tables hw h
  obtain ⟨col, hcol⟩ : ∃ col, authColumn it.2 e.iColumn = some col := by
    unfold authColumn
    split
    · rename_i hpos
      rw [List.getElem?_eq_getElem (by omega)]
      exact ⟨_, rfl⟩
    · cases hk : it.2.iPKey with
      | none => exact ⟨_, rfl⟩
      | some k =>
        dsimp only
        rw [List.getElem?_eq_getElem (hwf.pkey k hk)]
        exact ⟨_, rfl⟩
  unfold authRead
  cases cx.auth with
  | none => rfl
  | some auth =>
    obtain ⟨databasename, hdb⟩ : ∃ databasename, cx.aDb[e.iDb]? = some databasename := by
      rw [hd]
      exact ⟨_, List.getElem?_eq_getElem hwf.db⟩
    simp only [ht, htable, hcol, hdb, Option.bind_eq_bind, Option.bind_some]
    repeat' split
    all_goals rfl

theorem columnIndex_lt {t : Table} {col : Bytes} {j : Nat} (h : columnIndex t col = some j) :
    j < t.aCol.length := (List.findIdx?_eq_some_iff_getElem.1 h).1

theorem of_columnOf {col : Bytes} {it : Int × Table} {f : Found} (h : columnOf col it = some f) :
    f.iTable = it.1 ∧ f.iDb = it.2.iDb ∧ f.iColumn < it.2.aCol.length := by
  obtain ⟨j, hj, rfl⟩ := Option.map_eq_some_iff.1 h
  have hlt := columnIndex_lt hj
  refine ⟨rfl, rfl, ?_⟩
  unfold Table.found
  dsimp only
  split
  · omega
  · exact_mod_cast hlt

/-- A candidate is a column or the rowid of a table meant. -/
theorem of_mem_candidates {slist : List SrcItem} {f : Found} (h : f ∈ r.candidates cx slist) :
    ∃ it ∈ r.tables cx slist, f.iTable = it.1 ∧ f.iDb = it.2.iDb ∧
      f.iColumn < it.2.aCol.length := by
  unfold Ref.candidates candidates at h
  unfold Ref.tables
  dsimp only at h
  split at h
  · obtain ⟨it, hit, hf⟩ := List.mem_filterMap.1 h
    exact ⟨it, List.mem_append_right _ hit, of_columnOf hf⟩
  · split at h
    · obtain ⟨it, hit, hf⟩ := List.mem_filterMap.1 h
      exact ⟨it, List.mem_append_left _ hit, of_columnOf hf⟩
    · split at h
      · rename_i it hit
        split at h
        · rw [List.mem_singleton.1 h]
          refine ⟨it, ?_, rfl, rfl, ?_⟩
          · rw [List.mem_append, or_comm, ← List.mem_append, hit]
            exact List.mem_singleton_self it
          · dsimp only [rowidOf]
            omega
        · cases h
      · cases h

/-- The authorizer can be asked: there is none, or some table is meant, or a trigger lacks NEW or
OLD, whose cursor is then that of no table. -/
def Ref.Asks (r : Ref) (cx : Ctx) (slist : List SrcItem) : Prop :=
  cx.auth = none ∨ r.tables cx slist ≠ [] ∨
    ∃ stack, cx.trigStack = some stack ∧ (stack.newIdx = -1 ∨ stack.oldIdx = -1)

theorem asked_isSome (hw : Wf cx n fs) : (authRead cx (srcList n fs) (r.asked cx (srcList n fs))).isSome =
    true ↔ r.Asks cx (srcList n fs) := by
  cases htab : r.tables cx (srcList n fs) with
  | cons it its =>
    refine ⟨fun _ => .inr (.inl (by simp [htab])), fun _ => ?_⟩
    cases hc : (r.candidates cx (srcList n fs)).getLast? with
    | none =>
      have hasked : r.asked cx (srcList n fs) = ⟨it.1, it.2.iDb, 0, 0⟩ := by
        rw [Ref.asked, hc, htab]
        rfl
      have hit : it ∈ r.tables cx (srcList n fs) := htab ▸ List.mem_cons_self ..
      have hcols := (authTable_tables hw hit).2.cols
      rw [hasked]
      exact authRead_isSome hw hit rfl rfl (by dsimp only; omega)
    | some f =>
      have hasked : r.asked cx (srcList n fs) = f := by
        rw [Ref.asked, hc]
        rfl
      obtain ⟨it, hit, ht, hd, hcol⟩ := of_mem_candidates (List.mem_of_getLast? hc)
      rw [hasked]
      exact authRead_isSome hw hit ht hd hcol
  | nil =>
    have hnone : r.candidates cx (srcList n fs) = [] := by
      rw [List.eq_nil_iff_forall_not_mem]
      intro f hf
      obtain ⟨it, hit, -⟩ := of_mem_candidates hf
      rw [htab] at hit
      cases hit
    have hasked : r.asked cx (srcList n fs) = ⟨-1, 0, 0, 0⟩ := by
      rw [Ref.asked, hnone, htab]
      rfl
    have hfind : (srcList n fs).find? (fun item => item.iCursor = -1) = none := by
      rw [List.find?_eq_none]
      intro item hitem
      obtain ⟨k, f, -, rfl⟩ := mem_srcList.1 hitem
      rw [toSrc_iCursor, decide_eq_true_eq]
      omega
    rw [hasked, authRead, Ref.Asks, htab]
    cases cx.auth with
    | none => simp
    | some auth =>
      dsimp only [authTable]
      rw [hfind]
      cases hstack : cx.trigStack with
      | none => simp
      | some stack =>
        obtain ⟨htw, -⟩ := hw.trigger stack hstack
        obtain ⟨col, hcol⟩ : ∃ col, authColumn stack.pTab 0 = some col := by
          unfold authColumn
          rw [if_pos (le_refl 0), Int.toNat_zero, List.getElem?_eq_getElem htw.cols]
          exact ⟨_, rfl⟩
        obtain ⟨databasename, hdb⟩ : ∃ databasename, cx.aDb[0]? = some databasename :=
          ⟨_, List.getElem?_eq_getElem (Nat.zero_lt_of_lt htw.db)⟩
        rw [Option.bind_some]
        by_cases hidx : -1 = stack.newIdx ∨ -1 = stack.oldIdx
        · rw [if_pos hidx]
          simp only [hcol, hdb, Option.bind_eq_bind, Option.bind_some]
          refine ⟨fun _ => .inr (.inr ⟨stack, rfl, ?_⟩), fun _ => ?_⟩
          · omega
          · repeat' split
            all_goals rfl
        · rw [if_neg hidx]
          constructor
          · intro h
            cases h
          · rintro (h | h | ⟨stack', h, hidx'⟩)
            · cases h
            · exact absurd rfl h
            · cases h
              omega

end
end Dbsql.L5.Names
