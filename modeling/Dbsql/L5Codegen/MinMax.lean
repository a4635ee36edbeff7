import Dbsql.L3Vdbe.Decimal
import Dbsql.L3Vdbe.NumericOrder
import Dbsql.L3Vdbe.Table
import Dbsql.L5Codegen.Deliver
import Mathlib.Data.List.ReduceOption
/-!
# `SELECT min(c) FROM t` by a seek (cg_select.c:2230-2350, sql_fns.c:640-727)

`__min_max_query` answers a `min` or `max` over one column by the first or the last entry of
an index, or of the table for the rowid. The general code goes over the table with
`__min_step` or `__max_step`. A string that reaches a function or the callback is a C string.

The cursors of the fast code may stand on no entry. What `OP_IdxRecno`, `OP_Recno` and
`OP_Column` then take for a size, a rowid and a record was never written; it is `Junk`.

Results:
* `min_max_query`: the fast code delivers the row of the general code if the entry it reads
  belongs to a row with the first best value, or all values are NULL, or no row is delivered;
  and only then if no value reads as a NaN.
* `min_null_first`: for `min` and an index this fails when some value is NULL and not all are.
-/
namespace Dbsql.L5.MinMax
open Dbsql.Core Dbsql.L1 Dbsql.L2 Dbsql.L3
open Dbsql.L5.Query (Row Limits Ctl Select countRow computeLimitRegisters selectOne gate dedup opSort)

/-! ## The query -/

inductive Extremum | min | max
  deriving DecidableEq, Repr

/-- An expression of the result: `TK_AGG_FUNCTION` with the `iColumn` of each argument that is
a `TK_COLUMN`, or another one. -/
inductive ResultExpr
  | aggFunction (token : Bytes) (pList : List (Option Int))
  | other
  deriving DecidableEq, Repr

/-- `select_t` over tables. -/
structure Query where
  pEList : List ResultExpr
  nSrc : Nat
  pWhere : Bool
  pGroupBy : Bool
  pHaving : Bool
  isDistinct : Bool
  orderBy : Option (Bytes → Bytes)
  nLimit : CInt
  nOffset : CInt

def tolower (c : UInt8) : UInt8 := if 65 ≤ c && c ≤ 90 then c + 32 else c

/-- `token.n != 3`, and `strncasecmp` with the two names. -/
def Extremum.ofToken (token : Bytes) : Option Extremum :=
  if token.length ≠ 3 then none
  else if token.map tolower = ascii "min" then some .min
  else if token.map tolower = ascii "max" then some .max
  else none

/-! ## The guards -/

section
variable {L : Type} {ar : Arith L}

/-- What the fast code reads. -/
inductive Plan (ar : Arith L) (tab : Table)
  | rowid
  | index (col : Nat) (index : TableIndex ar tab)

/-- The guards of `__min_max_query` (cg_select.c:2246-2301). -/
def minMaxQuery {tab : Table} (pIndex : List (TableIndex ar tab)) (q : Query) :
    Option (Extremum × Plan ar tab) :=
  if q.pGroupBy || q.pHaving || q.pWhere then none
  else if q.nSrc ≠ 1 then none
  else
    match q.pEList with
    | [.aggFunction token [some col]] =>
      (Extremum.ofToken token).bind fun m =>
        if col < 0 then some (m, .rowid)
        else
          (pIndex.find? fun index => index.aiColumn.head? = some col.toNat).map
            fun index => (m, .index col.toNat index)
    | _ => none

/-! ## The general code -/

/-- Whether a step function takes the argument in place of the best so far. -/
def Extremum.better (ar : Arith L) (m : Extremum) (arg z : Bytes) : Bool :=
  match m with
  | .min => (strNumericCmp ar arg z).toInt < 0
  | .max => 0 < (strNumericCmp ar arg z).toInt

/-- `__min_step` and `__max_step` (sql_fns.c:652-712): `p->z` before and after. -/
def Extremum.step (ar : Arith L) (m : Extremum) (z arg : Option Bytes) : Option Bytes :=
  match arg with
  | none => z
  | some a => keepBetter (m.better ar) z a

/-- A string as an argument. -/
def argOf : ColumnOut → Option (Option Bytes)
  | .null => some none
  | .str z => some (some (cstr z))
  | .corrupt => none

/-- The argument of the function in a row: `OP_Recno` or `OP_Column`. -/
def Plan.arg {tab : Table} (plan : Plan ar tab) (aHdr : Bytes) (e : Dbt × Bytes) :
    Option (Option Bytes) :=
  match plan with
  | .rowid => some (some (fmtD (keyRowid e.1.data)))
  | .index col _ => argOf (opColumn e.2 col aHdr)

/-- The one column of a row at the callback: a null pointer, or a string. -/
def imageOf (v : Option Bytes) : Bytes :=
  match v with
  | none => []
  | some z => z ++ [0]

/-- The one group of the aggregate as a SELECT. -/
def Query.toSelect (q : Query) (v : Option Bytes) : Select where
  scan := ⟨[⟨imageOf v, imageOf v, (q.orderBy.getD fun _ => []) (imageOf v)⟩], fun _ => true,
    q.isDistinct⟩
  nExpr := 1
  orderBy := q.orderBy
  nLimit := q.nLimit
  nOffset := q.nOffset

/-- The rows delivered by the aggregate; `none` is an error. -/
def general (le : Bytes → Bytes → Bool) {tab : Table} (m : Extremum) (plan : Plan ar tab) (q : Query)
    (aHdr : Bytes) : Option (List Bytes) := do
  let args ← tab.t.entries.mapM (plan.arg aHdr)
  let (_, o) ← selectOne le (q.toSelect (args.foldl (m.step ar) none)) .callback q.orderBy.isSome
    q.nLimit q.nOffset .none .empty
  some o.rows

/-! ## The fast code -/

/-- What is read where nothing was written. -/
structure Junk where
  sz : CInt
  v : CInt
  payload : Bytes
  aHdr : Bytes

/-- `seek_op` with no P2. -/
def Extremum.seek (m : Extremum) (t : Btree) (pC : Cursor) : Cursor :=
  match m with
  | .min => opRewind t pC
  | .max => opLast t pC

/-- `OP_IdxRecno` (vdbe.c:3659-3690); `sz` is compared as unsigned. -/
def opIdxRecno (t : Btree) (pC : Cursor) (junk : Junk) : Val :=
  let sz := (smKeySize t pC.pos junk.sz.toNat).2
  if sz < 4 then .null
  else
    let key := smKey t pC.pos (sz - 4) 4
    .int (keyRowid (key ++ (store .big junk.v).drop key.length)) none

/-- The top of the stack for `OP_MoveTo`. -/
def moveKey : Val → Key
  | .int i _ => .int i
  | v => .str v.text

/-- `OP_Column` of a cursor (vdbe.c:3263-3370). -/
def opCursorColumn (t : Btree) (pC : Cursor) (p2 : Nat) (junk : Junk) : ColumnOut :=
  let pC := vdbeCursorMoveto t pC
  let payload :=
    if pC.nullRow then []
    else
      match (cGet t pC.pos ⟨[]⟩ .current).entry with
      | some e => e.2
      | none => junk.payload
  opColumn payload p2 junk.aHdr

/-- An integer or NULL as an argument. -/
def argOfOut : L3.Out → Option Bytes
  | .int v => some (fmtD v)
  | _ => none

/-- The column that the fast code codes (cg_select.c:2328-2345). -/
def Plan.fastColumn {tab : Table} (m : Extremum) (plan : Plan ar tab) (junk : Junk) :
    Option (Option Bytes) :=
  match plan with
  | .rowid => some (argOfOut (opRecno tab.t (m.seek tab.t .opened) (store .big junk.v)).2)
  | .index col ix =>
    let pTos := opIdxRecno ix.t (m.seek ix.t .opened) junk
    argOf (opCursorColumn tab.t (opMoveTo tab.t .opened false 0 (moveKey pTos)).1 col junk)

/-- The rows delivered by the fast code: `__select_inner_loop` once, without sorter and
DISTINCT table. The counters come before the column. -/
def fast {tab : Table} (m : Extremum) (plan : Plan ar tab) (q : Query) (junk : Junk) :
    Option (List Bytes) := do
  let (c, _) ← countRow (computeLimitRegisters q.nLimit q.nOffset true .none)
  if c = Ctl.pass then
    let v ← plan.fastColumn m junk
    some [imageOf v]
  else some []

/-! ## When they agree -/

/-- A row is delivered: the limit is not 0, and there is no offset. -/
def Query.Delivers (q : Query) : Prop := q.nLimit ≠ 0 ∧ q.nOffset.toInt ≤ 0

/-- The first or the last key. -/
def Extremum.pick (m : Extremum) (t : Btree) : Option Dbt :=
  match m with
  | .min => t.first.map Prod.fst
  | .max => t.last.map Prod.fst

section
variable {tab : Table}

/-- The value in a row. -/
def Plan.valueOf (plan : Plan ar tab) (k : Dbt) : Option Bytes :=
  match plan with
  | .rowid => some (fmtD (keyRowid k.data))
  | .index col _ => tab.value k col

/-- The values in the order of a full scan. -/
def Plan.values (plan : Plan ar tab) : List (Option Bytes) := tab.t.keys.map plan.valueOf

/-- The row that the fast code reads. -/
def Plan.reads (m : Extremum) : Plan ar tab → Option Dbt
  | .rowid => m.pick tab.t
  | .index _ ix => (m.pick ix.t).map rowKey

/-- No value, if all are NULL, or else the first that no value is better than and that is
better than those before. -/
def IsFirstBest (ar : Arith L) (m : Extremum) (vs : List (Option Bytes)) : Option Bytes → Prop
  | none => ∀ v ∈ vs, v = none
  | some z => FirstBest (m.better ar) vs.reduceOption z

/-- The row read has the first best value, or no rowid is read from an empty table. -/
def Plan.ReadsBest (m : Extremum) (plan : Plan ar tab) : Prop :=
  match plan.reads m with
  | some k => IsFirstBest ar m plan.values (plan.valueOf k)
  | none => plan = .rowid

/-- No string among the values reads as a NaN. -/
def NoNan (ar : Arith L) (vs : List (Option Bytes)) : Prop :=
  ∀ z, some z ∈ vs → rank ar z ≠ .num .nan

/-- The least or the greatest value, or NULL when there is none. -/
def IsBest (ar : Arith L) (m : Extremum) (vs : List (Option Bytes)) : Option Bytes → Prop
  | none => ∀ v ∈ vs, v = none
  | some z => some z ∈ vs ∧ ∀ w, some w ∈ vs → m.better ar w z = false

/-- The fast code delivers what the general code does: exactly one row, with the best value,
unless LIMIT or OFFSET drops it. -/
structure Agrees (le : Bytes → Bytes → Bool) (m : Extremum) (plan : Plan ar tab) (q : Query) :
    Prop where
  same : ∀ junk, fast m plan q junk = general le m plan q junk.aHdr
  best : q.Delivers → ∀ junk, ∃ v, fast m plan q junk = some [imageOf v] ∧ IsBest ar m plan.values v

/-! ## The order of the step functions -/

theorem better_min {a b : Bytes} :
    Extremum.min.better ar a b = true ↔ (rank ar a).lt (rank ar b) = true :=
  decide_eq_true_iff.trans (strNumericCmp_lt ar a b)

theorem better_max {a b : Bytes} :
    Extremum.max.better ar a b = true ↔ (rank ar b).lt (rank ar a) = true :=
  decide_eq_true_iff.trans (strNumericCmp_gt ar a b)

theorem better_asymm (m : Extremum) (a b : Bytes) (h : m.better ar a b = true) :
    m.better ar b a = false := by
  rw [Bool.eq_false_iff]
  intro h'
  cases m with
  | min =>
    rw [better_min] at h h'
    rw [Rank.lt_asymm h] at h'
    cases h'
  | max =>
    rw [better_max] at h h'
    rw [Rank.lt_asymm h] at h'
    cases h'

theorem better_split (m : Extremum) {a b c : Bytes} (hc : rank ar c ≠ .num .nan)
    (h : m.better ar a b = true) : m.better ar a c = true ∨ m.better ar c b = true := by
  cases m with
  | min =>
    rw [better_min] at h
    exact (Rank.lt_split h hc).imp better_min.2 better_min.2
  | max =>
    rw [better_max] at h
    exact (Rank.lt_split h hc).symm.imp better_max.2 better_max.2

/-- What the step functions leave of the values. -/
theorem foldl_step (m : Extremum) (vs : List (Option Bytes)) (z : Option Bytes) :
    vs.foldl (m.step ar) z = vs.reduceOption.foldl (keepBetter (m.better ar)) z := by
  induction vs generalizing z with
  | nil => rfl
  | cons v vs ih =>
    cases v with
    | none => exact ih z
    | some a =>
      rw [List.foldl_cons, List.reduceOption_cons_of_some, List.foldl_cons]
      exact ih _

theorem reduceOption_eq_nil {vs : List (Option Bytes)} : vs.reduceOption = [] ↔ ∀ v ∈ vs, v = none := by
  rw [List.eq_nil_iff_forall_not_mem]
  simp only [List.reduceOption_mem_iff]
  constructor
  · intro h v hv
    cases v with
    | none => rfl
    | some a => exact absurd hv (h a)
  · intro h a ha
    cases h _ ha

/-- The aggregate of values of which one is the first best. -/
theorem IsFirstBest.foldl_step {m : Extremum} {vs : List (Option Bytes)} {v : Option Bytes}
    (h : IsFirstBest ar m vs v) : vs.foldl (m.step ar) none = v := by
  rw [MinMax.foldl_step]
  cases v with
  | none =>
    rw [reduceOption_eq_nil.2 h]
    rfl
  | some z => exact h.runningBest

/-- The aggregate is the first best value, if none reads as a NaN. -/
theorem isFirstBest_foldl_step {m : Extremum} {vs : List (Option Bytes)} (hn : NoNan ar vs) :
    IsFirstBest ar m vs (vs.foldl (m.step ar) none) := by
  rw [MinMax.foldl_step]
  have hs : StrictWeakOn (m.better ar) vs.reduceOption :=
    ⟨fun a _ b _ => better_asymm m a b,
      fun a _ b _ c hc => better_split m (hn c (List.reduceOption_mem_iff.1 hc))⟩
  cases h : runningBest (m.better ar) vs.reduceOption with
  | none =>
    change IsFirstBest ar m vs (runningBest (m.better ar) vs.reduceOption)
    rw [h]
    exact reduceOption_eq_nil.1 (runningBest_eq_none.1 h)
  | some z =>
    change IsFirstBest ar m vs (runningBest (m.better ar) vs.reduceOption)
    rw [h]
    exact firstBest_of_runningBest hs h

theorem IsFirstBest.isBest {m : Extremum} {vs : List (Option Bytes)} {v : Option Bytes}
    (h : IsFirstBest ar m vs v) : IsBest ar m vs v := by
  cases v with
  | none => exact h
  | some z =>
    exact ⟨List.reduceOption_mem_iff.1 h.mem,
      fun w hw => h.unbeaten (better_asymm m) (List.reduceOption_mem_iff.2 hw)⟩

/-! ## The general code -/

section
variable {tab : Table}

theorem argOf_column (k : Dbt) (c : Nat) : argOf (tab.column k c) = some (tab.value k c) := by
  unfold Table.value
  rcases tab.column_cases k c with h | ⟨z, h⟩ <;> rw [h] <;> rfl

/-- The column is the first of the index. -/
def Plan.Leads : Plan ar tab → Prop
  | .rowid => True
  | .index col ix => ix.aiColumn.head? = some col

theorem Plan.Leads.inRange {col : Nat} {ix : TableIndex ar tab} (h : (Plan.index col ix).Leads) :
    col < tab.nCol := ix.inRange col (List.mem_of_head? h)

theorem arg_values {plan : Plan ar tab} (hp : plan.Leads) (aHdr : Bytes) {e : Dbt × Bytes}
    (he : e ∈ tab.t.entries) : plan.arg aHdr e = some (plan.valueOf e.1) := by
  cases plan with
  | rowid => rfl
  | index col ix =>
    rw [Plan.arg, opColumn_row he hp.inRange, argOf_column]
    rfl

theorem mapM_eq_map {α β : Type} {f : α → Option β} {g : α → β} {l : List α}
    (h : ∀ x ∈ l, f x = some (g x)) : l.mapM f = some (l.map g) := by
  induction l with
  | nil => rfl
  | cons x l ih =>
    rw [List.mapM_cons, h x List.mem_cons_self, ih fun y hy => h y (List.mem_cons_of_mem _ hy)]
    rfl

/-- The counters of one row. -/
theorem gate_one {α : Type} (x : α) (l : Limits) :
    gate [x] l = (countRow l).map fun r => (if r.1 = Ctl.pass then [x] else [], r.2) := by
  rw [gate]
  cases countRow l with
  | none => rfl
  | some r =>
    obtain ⟨c, l'⟩ := r
    cases c <;> rfl

theorem dedup_one (distinct : Bool) (r : Row) : dedup distinct .empty [r] = [r] := by
  cases distinct with
  | false => exact Query.dedup_false _ _
  | true => simp [dedup, Query.alreadyExists_empty]

theorem opSort_one (le : Bytes → Bytes → Bool) (r : Row) : opSort le [r] = [r] :=
  List.perm_singleton.1 (Query.opSort_perm le [r])

theorem selectOne_one (le : Bytes → Bytes → Bool) (q : Query) (v : Option Bytes) :
    ((selectOne le (q.toSelect v) .callback q.orderBy.isSome q.nLimit q.nOffset .none .empty).map
        fun r => r.2.rows) =
      (countRow (computeLimitRegisters q.nLimit q.nOffset true .none)).map fun r =>
        if r.1 = Ctl.pass then [imageOf v] else [] := by
  have htested : (q.toSelect v).scan.tested = (q.toSelect v).scan.rows := List.filter_true _
  rw [selectOne, if_neg (by decide)]
  cases q.orderBy.isSome with
  | false =>
    rw [Query.scan_eq_gate, htested, Query.toSelect, gate_one, Option.map_map, Option.map_map]
    congr 1
    funext r
    obtain ⟨c, l⟩ := r
    cases c with
    | pass =>
      change (Query.send .callback .empty ((dedup _ .empty [_]).map (·.image))).rows = _
      rw [dedup_one]
      rfl
    | cont | brk => rfl
  | true =>
    rw [Query.scan_eq_sort, htested, Query.toSelect, dedup_one, List.reverse_singleton, opSort_one,
      gate_one, Option.map_map, Option.map_map]
    congr 1
    funext r
    obtain ⟨c, l⟩ := r
    cases c <;> rfl

theorem general_eq (le : Bytes → Bytes → Bool) (m : Extremum) {plan : Plan ar tab}
    (hp : plan.Leads) (q : Query) (aHdr : Bytes) :
    general le m plan q aHdr =
      (countRow (computeLimitRegisters q.nLimit q.nOffset true .none)).map fun r =>
        if r.1 = Ctl.pass then [imageOf (plan.values.foldl (m.step ar) none)] else [] := by
  have hargs : tab.t.entries.mapM (plan.arg aHdr) = some plan.values := by
    rw [mapM_eq_map fun e he => arg_values hp aHdr he, Plan.values, SortedMap.keys, List.map_map]
    rfl
  rw [← selectOne_one le, general, hargs, Option.bind_eq_bind, Option.bind_some]
  cases selectOne le _ .callback q.orderBy.isSome q.nLimit q.nOffset .none .empty <;> rfl

end

/-! ## The fast code -/

theorem pick_mem {m : Extremum} {t : Btree} {k : Dbt} (h : m.pick t = some k) : k ∈ t := by
  cases m with
  | min =>
    obtain ⟨e, he, rfl⟩ := Option.map_eq_some_iff.1 h
    exact SortedMap.mem_of_entry (List.mem_of_head? he)
  | max =>
    obtain ⟨e, he, rfl⟩ := Option.map_eq_some_iff.1 h
    exact SortedMap.mem_of_entry (SortedMap.last_some he).1

theorem pick_eq_none {m : Extremum} {t : Btree} : m.pick t = none ↔ ∀ k, k ∉ t := by
  cases m with
  | min => exact Option.map_eq_none_iff.trans SortedMap.first_eq_none
  | max => exact Option.map_eq_none_iff.trans SortedMap.last_eq_none

theorem seek_opened (m : Extremum) (t : Btree) : m.seek t .opened =
    { Cursor.opened with pos := m.pick t, nullRow := (m.pick t).isNone } := by
  cases m with
  | min =>
    unfold Extremum.seek Extremum.pick opRewind
    cases h : t.first with
    | none => rw [smFirst_none h]; rfl
    | some e => rw [smFirst_some h]; rfl
  | max =>
    unfold Extremum.seek Extremum.pick opLast
    cases h : t.last with
    | none => rw [smLast_none h]; rfl
    | some e => rw [smLast_some h]; rfl

/-- On an entry `OP_IdxRecno` pushes its rowid. -/
theorem opIdxRecno_on {t : Btree} {p3 : Option Bytes} {n : Nat} (e : Entry ar.ld p3 n)
    (hk : e.key ∈ t) {pC : Cursor} (hc : pC.pos = some e.key) (junk : Junk) :
    opIdxRecno t pC junk = .int e.rowid none := by
  have hsize : ¬ e.key.data.length < 4 := by simp [Entry.key, makeIdxKey]
  have hdrop : e.key.data.drop (e.key.data.length - 4) = rowidKey e.rowid :=
    congrArg Dbt.data (rowKey_key e)
  have htake : (rowidKey e.rowid).take 4 = rowidKey e.rowid :=
    List.take_of_length_le (rowidKey_length _).le
  rw [opIdxRecno, hc, smKeySize_on hk, smKey_on hk]
  dsimp only
  rw [if_neg hsize, hdrop, htake, List.drop_of_length_le (by rfl), List.append_nil,
    keyRowid_rowidKey]

/-- Behind a deferred move to a row `OP_Column` reads that row. -/
theorem opCursorColumn_moveTo {i : CInt} (h : (⟨rowidKey i⟩ : Dbt) ∈ tab.t) {c : Nat}
    (hc : c < tab.nCol) (junk : Junk) :
    opCursorColumn tab.t (opMoveTo tab.t .opened false 0 (.int i)).1 c junk =
      tab.column ⟨rowidKey i⟩ c := by
  obtain ⟨e, he⟩ := Option.isSome_iff_exists.1 (SortedMap.find?_isSome.2 h)
  obtain ⟨hmem, hkey⟩ := SortedMap.find?_some he
  rw [← hkey, ← opColumn_row hmem hc junk.aHdr]
  simp [opCursorColumn, opMoveTo, Cursor.opened, vdbeCursorMoveto, smMoveto_mem h, cGet, he]

/-- In an empty table `OP_Column` reads what was never written. -/
theorem opCursorColumn_empty (h : ∀ k, k ∉ tab.t) (v : Val) (c : Nat) (junk : Junk) :
    opCursorColumn tab.t (opMoveTo tab.t .opened false 0 (moveKey v)).1 c junk =
      opColumn junk.payload c junk.aHdr := by
  have hlast : tab.t.last = none := SortedMap.last_eq_none.2 h
  have hnext : ∀ result, smNext tab.t none result = ⟨.success, 1, none⟩ := fun result => by
    simp only [smNext, cGet, advanced_moved, SortedMap.first_eq_none.2 h]
  unfold moveKey
  split
  · simp [opCursorColumn, opMoveTo, Cursor.opened, vdbeCursorMoveto, smMoveto_empty hlast, hnext, cGet]
  · simp [opCursorColumn, opMoveTo, Cursor.opened, vdbeCursorMoveto, smMoveto_empty hlast, hnext, cGet,
      moveFinish]


/-- The fast code reads the value of its row. -/
theorem fastColumn_reads {m : Extremum} {plan : Plan ar tab} (hp : plan.Leads) {k : Dbt}
    (h : plan.reads m = some k) (junk : Junk) : plan.fastColumn m junk = some (plan.valueOf k) := by
  cases plan with
  | rowid =>
    have hk := pick_mem h
    obtain ⟨r, rfl⟩ := tab.isTable k hk
    have hpick : m.pick tab.t = some ⟨rowidKey r⟩ := h
    have hread := readRowid_on hk (store .big junk.v) rfl
    rw [Plan.fastColumn, seek_opened, hpick]
    simp [opRecno, vdbeCursorMoveto, Cursor.opened, hread, argOfOut, Plan.valueOf]
  | index col ix =>
    obtain ⟨k', hpick, rfl⟩ := Option.map_eq_some_iff.1 h
    have hk := pick_mem hpick
    obtain ⟨e, rfl, hrow, -⟩ := ix.entry k' hk
    rw [rowKey_key] at hrow ⊢
    have hpos : (m.seek ix.t .opened).pos = some e.key := by rw [seek_opened, hpick]
    have hidx := opIdxRecno_on e hk hpos junk
    rw [Plan.fastColumn, hidx]
    exact (congrArg argOf (opCursorColumn_moveTo hrow hp.inRange junk)).trans (argOf_column _ _)

/-- From an empty table no rowid is read. -/
theorem fastColumn_rowid {m : Extremum} (h : (Plan.rowid : Plan ar tab).reads m = none) (junk : Junk) :
    (Plan.rowid : Plan ar tab).fastColumn m junk = some none := by
  have hpick : m.pick tab.t = none := h
  rw [Plan.fastColumn, seek_opened, hpick]
  simp [opRecno, vdbeCursorMoveto, Cursor.opened, argOfOut]

/-- An index on no entry has the table read where nothing was written, as a record cut short. -/
theorem fastColumn_index {m : Extremum} {col : Nat} {ix : TableIndex ar tab}
    (h : (Plan.index col ix).reads m = none) :
    (Plan.index col ix).fastColumn m ⟨0, 0, [0], [2]⟩ = none := by
  have hempty : ∀ k, k ∉ tab.t := fun k hk => by
    obtain ⟨k', hk', -⟩ := ix.complete k hk
    exact pick_eq_none.1 (Option.map_eq_none_iff.1 h) k' hk'
  have hcorrupt : opColumn [0] col [2] = .corrupt := by
    cases col with
    | zero => rfl
    | succ c => simp [opColumn, decodeWidth]
  rw [Plan.fastColumn, opCursorColumn_empty hempty, hcorrupt]
  rfl

/-- Where the fast code reads the first best value it does so whatever was never written. -/
theorem Plan.ReadsBest.fastColumn {m : Extremum} {plan : Plan ar tab} (h : plan.ReadsBest m)
    (hp : plan.Leads) : ∃ v, (∀ junk, plan.fastColumn m junk = some v) ∧
      IsFirstBest ar m plan.values v := by
  unfold Plan.ReadsBest at h
  split at h
  · rename_i k hk
    exact ⟨plan.valueOf k, fastColumn_reads hp hk, h⟩
  · rename_i hnone
    subst h
    have hempty := pick_eq_none.1 hnone
    refine ⟨none, fastColumn_rowid hnone, fun v hv => ?_⟩
    obtain ⟨k, hk, -⟩ := List.mem_map.1 hv
    exact absurd hk (hempty k)

/-! ## The counters of the one row -/

theorem countRow_delivers {q : Query} (h : q.Delivers) :
    ∃ l, countRow (computeLimitRegisters q.nLimit q.nOffset true .none) = some (.pass, l) := by
  obtain ⟨hn, ho⟩ := h
  have hoff : (computeLimitRegisters q.nLimit q.nOffset true .none).iOffset = none := by
    rw [computeLimitRegisters]
    exact if_neg (Int.not_lt.2 ho)
  rw [Query.countRow_eq (Query.countOffset_none hoff), if_neg Bool.false_ne_true]
  by_cases hpos : 0 ≤ q.nLimit.toInt
  · have hlim : (computeLimitRegisters q.nLimit q.nOffset true .none).iLimit = some (some (-q.nLimit)) := by
      rw [computeLimitRegisters, if_pos hpos]
      rfl
    have hne : q.nLimit.toInt ≠ 0 := BitVec.toInt_ne.2 hn
    have hneg := Query.toInt_neg hpos
    have hsucc := Query.toInt_succ (i := -q.nLimit) (by omega)
    rw [Query.countLimit_some hlim, if_neg (by omega)]
    exact ⟨_, rfl⟩
  · have hlim : (computeLimitRegisters q.nLimit q.nOffset true .none).iLimit = none := by
      rw [computeLimitRegisters, if_neg hpos]
      rfl
    exact ⟨_, Query.countLimit_none hlim⟩

theorem countRow_drops {q : Query} (h : ¬ q.Delivers) : ∃ c l,
    countRow (computeLimitRegisters q.nLimit q.nOffset true .none) = some (c, l) ∧ c ≠ .pass := by
  by_cases ho : 0 < q.nOffset.toInt
  · have hoff : (computeLimitRegisters q.nLimit q.nOffset true .none).iOffset =
        some (some (-q.nOffset)) := by
      rw [computeLimitRegisters, if_pos ho]
      rfl
    have hneg := Query.toInt_neg ho.le
    have hsucc := Query.toInt_succ (i := -q.nOffset) (by omega)
    have hskip : (!decide (0 < (-q.nOffset + 1).toInt)) = true := by
      rw [hsucc, hneg, Bool.not_eq_true', decide_eq_false_iff_not]
      omega
    rw [Query.countRow_eq (Query.countOffset_some hoff), if_pos hskip]
    exact ⟨_, _, rfl, by decide⟩
  · have hn : q.nLimit = 0 := by
      by_contra hn
      exact h ⟨hn, Int.not_lt.1 ho⟩
    have hoff : (computeLimitRegisters q.nLimit q.nOffset true .none).iOffset = none := by
      rw [computeLimitRegisters, if_neg ho]
      rfl
    have hlim : (computeLimitRegisters q.nLimit q.nOffset true .none).iLimit = some (some 0) := by
      rw [hn]
      rfl
    rw [Query.countRow_eq (Query.countOffset_none hoff), if_neg Bool.false_ne_true,
      Query.countLimit_some hlim, if_pos (by decide)]
    exact ⟨_, _, rfl, by decide⟩

theorem imageOf_inj {v w : Option Bytes} (h : imageOf v = imageOf w) : v = w := by
  cases v with
  | none =>
    cases w with
    | none => rfl
    | some z => simp [imageOf] at h
  | some z =>
    cases w with
    | none => simp [imageOf] at h
    | some z' => exact congrArg some (List.append_cancel_right h)

/-- The column of the chosen index is the one asked for. -/
theorem minMaxQuery_leads {pIndex : List (TableIndex ar tab)} {q : Query} {m : Extremum}
    {plan : Plan ar tab} (h : minMaxQuery pIndex q = some (m, plan)) : plan.Leads := by
  unfold minMaxQuery at h
  split at h
  · cases h
  · split at h
    · cases h
    · split at h
      · obtain ⟨m', -, h⟩ := Option.bind_eq_some_iff.1 h
        split at h
        · cases h
          trivial
        · obtain ⟨ix, hix, h⟩ := Option.map_eq_some_iff.1 h
          cases h
          have hhead := List.find?_some hix
          rw [decide_eq_true_eq] at hhead
          exact hhead
      · cases h

/-! ## NULLs come first -/

/-- The first byte of a key is 97 for NULL, and greater otherwise. -/
theorem key_head {p3 : Option Bytes} {n : Nat} (e : Entry ar.ld p3 n) {v : StackVal}
    (hv : e.vs.head? = some v) : ∃ b x, e.key.data = b :: x ∧
      if v.flags.null then b = 97 else 97 < b := by
  obtain ⟨vs, hvs⟩ : ∃ vs, e.vs = v :: vs := List.head?_eq_some_iff.1 hv
  have hkey : e.key.data = ((colOf ar.ld (isTextCol p3 0) v.toMem).body ++ [0]) ++
      (((colsOf ar.ld p3 e.vs).tail.flatMap fun c => c.body ++ [0]) ++ rowidKey e.rowid) := by
    rw [Entry.key, makeIdxKey, makeKey_eq, hvs, ← List.append_assoc, colsOf, List.mapIdx_cons]
    rfl
  rw [hkey, colOf]
  split
  · exact ⟨97, _, rfl, rfl⟩
  · split
    · exact ⟨99, _, rfl, by decide⟩
    · split
      · exact ⟨98, _, rfl, by decide⟩
      · split
        · exact ⟨98, _, rfl, by decide⟩
        · split
          · exact ⟨98, _, rfl, by decide⟩
          · exact ⟨99, _, rfl, by decide⟩

theorem value_eq_none {k : Dbt} {c : Nat} {e : List StackVal} {v : StackVal} (hv : e.head? = some v)
    (h : (e.map StackVal.column).getD 0 .null = tab.column k c) :
    tab.value k c = none ↔ v.flags.null = true := by
  obtain ⟨vs, rfl⟩ : ∃ vs, e = v :: vs := List.head?_eq_some_iff.1 hv
  rw [Table.value, ← h, List.map_cons, List.getD_cons_zero, StackVal.column]
  cases v.flags.null <;> simp

theorem pick_min_le {t : Btree} {k k' : Dbt} (h : Extremum.min.pick t = some k) (hk' : k' ∈ t) :
    k ≤ k' := by
  obtain ⟨e, he, rfl⟩ := Option.map_eq_some_iff.1 h
  obtain ⟨x, hx, rfl⟩ := SortedMap.mem_iff.1 hk'
  obtain ⟨es, hes⟩ := List.head?_eq_some_iff.1 he
  have hs := t.sorted
  rw [hes] at hs hx
  rcases List.mem_cons.1 hx with rfl | hx
  · exact le_rfl
  · exact ((List.pairwise_cons.1 hs).1 x hx).le

/-- The first field of an index key, and the row. -/
theorem first_field {col : Nat} {ix : TableIndex ar tab} (hp : (Plan.index col ix).Leads)
    (hkey : some col ≠ tab.iPKey) {k : Dbt} (hk : k ∈ ix.t) : ∃ b x, k.data = b :: x ∧
      if tab.value (rowKey k) col = none then b = 97 else 97 < b := by
  obtain ⟨e, rfl, -, hcol⟩ := ix.entry k hk
  obtain ⟨cs, hcs⟩ : ∃ cs, ix.aiColumn = col :: cs := List.head?_eq_some_iff.1 hp
  obtain ⟨v, hv⟩ : ∃ v, e.vs.head? = some v := by
    have hlen := e.length.trans (congrArg List.length hcs)
    cases hvs : e.vs with
    | nil =>
      rw [hvs] at hlen
      cases hlen
    | cons v vs => exact ⟨v, rfl⟩
  simp only [value_eq_none hv (hcol 0 col (by rw [hcs]; rfl) hkey)]
  exact key_head e hv

/-- **With an index, `min` reads a NULL if there is one**: it meets the aggregate only if all
values are NULL. -/
theorem min_null_first {col : Nat} {ix : TableIndex ar tab} (hp : (Plan.index col ix).Leads)
    (hkey : some col ≠ tab.iPKey) (hnull : none ∈ (Plan.index col ix).values)
    (h : (Plan.index col ix).ReadsBest .min) : ∀ v ∈ (Plan.index col ix).values, v = none := by
  obtain ⟨k, hk, hknull⟩ := List.mem_map.1 hnull
  obtain ⟨k', hk', rfl⟩ := ix.complete k hk
  change tab.value (rowKey k') col = none at hknull
  obtain ⟨k₀, hpick⟩ : ∃ k₀, Extremum.min.pick ix.t = some k₀ :=
    Option.ne_none_iff_exists'.1 fun hnone => pick_eq_none.1 hnone k' hk'
  have hreads : (Plan.index col ix).reads .min = some (rowKey k₀) := congrArg (Option.map rowKey) hpick
  have hfirst : tab.value (rowKey k₀) col = none := by
    obtain ⟨b, x, hb, hnot⟩ := first_field hp hkey (pick_mem hpick)
    obtain ⟨b', x', hb', hnull'⟩ := first_field hp hkey hk'
    rw [if_pos hknull] at hnull'
    by_contra hne
    rw [if_neg hne] at hnot
    have hlt : k' < k₀ := by
      rw [Dbt.lt_iff, hb, hb', List.compareLex_cons_cons, hnull', compare_byte_lt_iff.2 hnot]
      rfl
    exact absurd (pick_min_le hpick hk') (not_le.2 hlt)
  unfold Plan.ReadsBest at h
  rw [hreads] at h
  dsimp only at h
  rw [Plan.valueOf, hfirst] at h
  exact h

/-! ## Rowids -/

/-- The text of the rowid of a row. -/
def rowidText (k : Dbt) : Bytes := fmtD (keyRowid k.data)

/-- `__dbsql_atof` reads the text of an int as that int. -/
def ReadsInts (ar : Arith L) : Prop := ∀ i : CInt, rank ar (fmtD i) = .num (.fin i.toInt)

theorem readsInts_exact : ReadsInts exactMachine := fun i => by
  have h : dbsqlAtof exactMachine.ld (fmtD i) = .fin i.toInt := dbsqlAtof_fmtD i
  rw [rank, cstr_fmtD, if_pos (strIsNumeric_fmtD i), h]

theorem rowidText_lt (hread : ReadsInts ar) {k k' : Dbt} (hk : k ∈ tab.t) (hk' : k' ∈ tab.t)
    (h : k < k') : (rank ar (rowidText k)).lt (rank ar (rowidText k')) = true := by
  obtain ⟨r, rfl⟩ := tab.isTable k hk
  obtain ⟨r', rfl⟩ := tab.isTable k' hk'
  have hlt : (r.toInt : ℚ) < r'.toInt := by exact_mod_cast rowidKey_lt.1 h
  rw [rowidText, rowidText, keyRowid_rowidKey, keyRowid_rowidKey, hread, hread]
  exact decide_eq_true hlt

/-- **The least and the greatest rowid are found.** -/
theorem rowid_readsBest (m : Extremum) (hread : ReadsInts ar) :
    (Plan.rowid : Plan ar tab).ReadsBest m := by
  have hvalues : (Plan.rowid : Plan ar tab).values.reduceOption =
      tab.t.entries.map fun e => rowidText e.1 := by
    rw [Plan.values, SortedMap.keys, List.map_map, List.reduceOption, List.filterMap_map]
    exact congrFun List.filterMap_eq_map _
  have hmem : ∀ e ∈ tab.t.entries, e.1 ∈ tab.t := fun e he => SortedMap.mem_of_entry he
  unfold Plan.ReadsBest
  split
  · rename_i k hk
    change FirstBest (m.better ar) _ (rowidText k)
    rw [hvalues]
    have hs := tab.t.sorted
    cases m with
    | min =>
      obtain ⟨e, he, rfl⟩ := Option.map_eq_some_iff.1 hk
      obtain ⟨es, hes⟩ := List.head?_eq_some_iff.1 he
      rw [hes] at hs hmem ⊢
      rw [List.map_cons]
      refine .of_head fun y hy => ?_
      obtain ⟨x, hx, rfl⟩ := List.mem_map.1 hy
      have hlt := rowidText_lt hread (hmem e List.mem_cons_self) (hmem x (List.mem_cons_of_mem _ hx))
        ((List.pairwise_cons.1 hs).1 x hx)
      exact better_asymm .min _ _ (better_min.2 hlt)
    | max =>
      obtain ⟨e, he, rfl⟩ := Option.map_eq_some_iff.1 hk
      obtain ⟨es, hes⟩ := List.getLast?_eq_some_iff.1 he
      rw [hes] at hs hmem ⊢
      rw [List.map_append, List.map_singleton]
      refine .of_last fun y hy => ?_
      obtain ⟨x, hx, rfl⟩ := List.mem_map.1 hy
      have hlt := rowidText_lt hread (hmem x (List.mem_append_left _ hx)) (hmem e List.mem_concat_self)
        ((List.pairwise_append.1 hs).2.2 x hx e (List.mem_singleton_self e))
      exact better_max.2 hlt
  · rfl

/-! ## The two codes -/

/-- **A `min` or `max` by a seek.** It delivers the row of the aggregate if no row is delivered at
all, or the row it reads has the first best value, or no rowid is read from an empty table; and
where no value reads as a NaN, only then. Beside a NaN nothing is better than all before it, though
`max` of 3, `0e9999` and 7 is 7 both ways. -/
theorem min_max_query (le : Bytes → Bytes → Bool) (pIndex : List (TableIndex ar tab)) (q : Query)
    {m : Extremum} {plan : Plan ar tab} (h : minMaxQuery pIndex q = some (m, plan)) :
    (¬ q.Delivers ∨ plan.ReadsBest m → Agrees le m plan q) ∧
      (NoNan ar plan.values → Agrees le m plan q → ¬ q.Delivers ∨ plan.ReadsBest m) := by
  have hp := minMaxQuery_leads h
  by_cases hd : q.Delivers
  · obtain ⟨l, hc⟩ := countRow_delivers hd
    have hfast : ∀ junk, fast m plan q junk = (plan.fastColumn m junk).map fun v => [imageOf v] := by
      intro junk
      rw [fast, hc]
      cases plan.fastColumn m junk <;> rfl
    have hgeneral : ∀ aHdr, general le m plan q aHdr =
        some [imageOf (plan.values.foldl (m.step ar) none)] := fun aHdr => by
      rw [general_eq le m hp, hc]
      rfl
    constructor
    · rintro (hnd | hr)
      · exact absurd hd hnd
      · obtain ⟨v, hv, hbest⟩ := hr.fastColumn hp
        refine ⟨fun junk => ?_, fun _ junk => ⟨v, ?_, hbest.isBest⟩⟩
        · rw [hfast, hgeneral, hv, hbest.foldl_step]
          rfl
        · rw [hfast, hv]
          rfl
    · intro hn ha
      right
      have hbest := isFirstBest_foldl_step (m := m) hn
      unfold Plan.ReadsBest
      cases hr : plan.reads m with
      | some k =>
        have hsame := ha.same ⟨0, 0, [], []⟩
        rw [hfast, hgeneral, fastColumn_reads hp hr, Option.map_some, Option.some_inj] at hsame
        rw [← imageOf_inj (List.singleton_inj.1 hsame)] at hbest
        exact hbest
      | none =>
        cases plan with
        | rowid => rfl
        | index col ix =>
          have hsame := ha.same ⟨0, 0, [0], [2]⟩
          rw [hfast, hgeneral, fastColumn_index hr] at hsame
          cases hsame
  · obtain ⟨c, l, hc, hne⟩ := countRow_drops hd
    refine ⟨fun _ => ⟨fun junk => ?_, fun h => absurd h hd⟩, fun _ _ => .inl hd⟩
    rw [general_eq le m hp, fast, hc]
    simp [hne]


end

end

/-! ### A column with a NULL and a text -/

def nullVal : StackVal where
  i := 0
  flags := { null := true }
  r := .nan
  z := []
  kind := .inl rfl
  terminated h := by cases h

/-- The text `'1'`. -/
def oneVal : StackVal where
  i := 0
  flags := { str := true, short := true }
  r := .nan
  z := [49, 0]
  kind := .inr (.inl rfl)
  terminated _ := ⟨[49], rfl⟩

/-- The rows of `t(c TEXT)`: NULL and `'1'`. -/
def twoRows : Table where
  t := ⟨[(⟨rowidKey 1⟩, (opMakeRecord .little 0 0 [nullVal.toMem]).1.z),
    (⟨rowidKey 2⟩, (opMakeRecord .little 0 0 [oneVal.toMem]).1.z)],
    List.pairwise_pair.2 (rowidKey_lt.2 (by decide))⟩
  isTable k hk := by
    rcases List.mem_pair.1 hk with rfl | rfl
    · exact ⟨1, rfl⟩
    · exact ⟨2, rfl⟩
  nCol := 1
  iPKey := none
  row k := if k = ⟨rowidKey 1⟩ then [nullVal] else [oneVal]
  record e he := by
    rcases List.mem_pair.1 he with rfl | rfl
    · exact ⟨rfl, (record_iff .little 0 [nullVal]).2 (by decide)⟩
    · exact ⟨rfl, (record_iff .little 0 [oneVal]).2 (by decide)⟩

/-- The entry of a row in an index on a text column. -/
def nullEntry : Entry exactMachine.ld (some [116]) 1 where
  vs := [nullVal]
  rowid := 1
  length := rfl
  nulFree c hc := by
    rw [List.mem_singleton.1 hc]
    trivial

def oneEntry : Entry exactMachine.ld (some [116]) 1 where
  vs := [oneVal]
  rowid := 2
  length := rfl
  nulFree c hc := by
    rw [List.mem_singleton.1 hc]
    exact (by decide : (0 : UInt8) ∉ ([49] : Bytes))

/-- The index on the column. -/
def twoRowsIndex : TableIndex exactMachine twoRows where
  aiColumn := [0]
  inRange c hc := by
    rw [List.mem_singleton.1 hc]
    exact Nat.one_pos
  p3 := some [116]
  t := ⟨[(nullEntry.key, []), (oneEntry.key, [])], List.pairwise_pair.2 (by decide)⟩
  entry k hk := by
    rcases List.mem_pair.1 hk with rfl | rfl
    · refine ⟨nullEntry, rfl, (by decide), fun j c hj _ => ?_⟩
      cases j with
      | zero =>
        cases hj
        rfl
      | succ j => cases hj
    · refine ⟨oneEntry, rfl, (by decide), fun j c hj _ => ?_⟩
      cases j with
      | zero =>
        cases hj
        rfl
      | succ j => cases hj
  complete k hk := by
    rcases List.mem_pair.1 hk with rfl | rfl
    · exact ⟨nullEntry.key, (by decide), rfl⟩
    · exact ⟨oneEntry.key, (by decide), rfl⟩
  unique k hk k' hk' h := by
    rcases List.mem_pair.1 hk with rfl | rfl <;> rcases List.mem_pair.1 hk' with rfl | rfl
    · rfl
    · exact absurd h (by decide)
    · exact absurd h (by decide)
    · rfl

/-- `SELECT f(c) FROM t`. -/
def selectOf (f : String) : Query :=
  ⟨[.aggFunction (ascii f) [some 0]], 1, false, false, false, false, none, -1, 0⟩

theorem min_max_query_max : NoNan exactMachine (Plan.index 0 twoRowsIndex).values ∧
    Agrees (fun _ _ => true) .max (.index 0 twoRowsIndex) (selectOf "max") := by
  have hbest : FirstBest (Extremum.max.better exactMachine) [[49]] [49] :=
    .of_head fun _ hy => (by cases hy)
  refine ⟨fun z hz => ?_,
    (min_max_query (fun _ _ => true) [twoRowsIndex] (selectOf "max") rfl).1 (.inr hbest)⟩
  rcases List.mem_pair.1 hz with h | h
  · cases h
  · cases h
    have hrank : rank exactMachine (cstr oneVal.text) = .num (.fin (0 * 10 + (49 - 48))) := rfl
    rw [hrank]
    nofun

/-- `SELECT min(c)` delivers the NULL. -/
theorem min_max_query_fails : ¬ ∀ (tab : Table) (pIndex : List (TableIndex exactMachine tab)) (q : Query)
    (m : Extremum) (plan : Plan exactMachine tab), minMaxQuery pIndex q = some (m, plan) →
    Agrees (fun _ _ => true) m plan q := by
  intro h
  have ha := h twoRows [twoRowsIndex] (selectOf "min") .min (.index 0 twoRowsIndex) rfl
  obtain ⟨v, hv, hbest⟩ := ha.best ⟨by decide, by decide⟩ ⟨0, 0, [], []⟩
  have hfast : fast .min (.index 0 twoRowsIndex) (selectOf "min") ⟨0, 0, [], []⟩ =
      some [imageOf none] := by decide
  rw [hfast, Option.some_inj, List.singleton_inj] at hv
  rw [← imageOf_inj hv] at hbest
  cases hbest (some [49]) (by decide)

end Dbsql.L5.MinMax
