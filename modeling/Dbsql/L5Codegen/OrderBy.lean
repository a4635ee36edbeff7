import Dbsql.L3Vdbe.RowMachine
import Dbsql.L5Codegen.ExprCompare
import Dbsql.L5Codegen.Names
import Dbsql.L5Codegen.SetOps
import Dbsql.L5Codegen.Sorter
/-!
# ORDER BY at the end of a compound SELECT (cg_select.c:1271-1460)

Before the SELECTs of a compound are coded, `__match_orderby_to_column` looks for each ORDER BY term
among the columns of the results: it goes to the leftmost SELECT and comes back, and a term stays
with the first column it matches. A term that is an integer is the place of a column, which must be
there in every SELECT. Once the SELECTs are coded `__multi_select_sort_order` says whether a term
sorts as text or as numbers, and `__push_onto_sorter` makes the key of a record from its columns.

Results:
* `matchOrderbyToColumn_eq`: each term comes to its place, or one of them is an error.
* `Compound.sorts_of_sorts`: by the keys, the records are in the order of their columns.
* `chain_delivers`: what a compound delivers.
-/
namespace Dbsql.L5.Query
open Dbsql.Core Dbsql.L1 Dbsql.L2 Dbsql.L3
open Dbsql.L5.Names (strcasecmp)
open Dbsql.L5.Tree (Node exprCompare)

/-! ## SELECTs and their columns -/

/-- A column of a result, `*` expanded. -/
structure ResultCol where
  zName : Option Bytes
  /-- before its names are resolved -/
  pExpr : Node
  /-- `__expr_type` when they are -/
  dataType : So

/-- A term of ORDER BY. -/
structure OrderTerm where
  pExpr : Node
  /-- the type in `sortOrder`, if there is one -/
  collate : So
  desc : Bool
  /-- of a term that is done: it is a `TK_COLUMN` then -/
  iColumn : Option Nat

/-- A `select_t` without its `pPrior`. -/
structure OneSelect where
  scan : Scan
  pEList : List ResultCol
  pOrderBy : Option (List OrderTerm)
  nLimit : CInt
  nOffset : CInt

/-- A SELECT, or one with its `pPrior`. -/
inductive Compound
  | one (s : OneSelect)
  | compound (prior : Compound) (op : SetOp) (s : OneSelect)

def Compound.last : Compound → OneSelect
  | .one s => s
  | .compound _ _ s => s

/-- The result columns of the SELECTs, from the left. -/
def Compound.lists : Compound → List (List ResultCol)
  | .one s => [s.pEList]
  | .compound prior _ s => prior.lists ++ [s.pEList]

/-- A SELECT that is coded, with the sort key of a record. -/
def OneSelect.coded (key : Bytes → Bytes) (s : OneSelect) : Select :=
  ⟨s.scan, s.pEList.length, s.pOrderBy.map fun _ => key, s.nLimit, s.nOffset⟩

/-- The rows that a SELECT delivers alone. -/
def OneSelect.images (s : OneSelect) : List Bytes := (s.coded fun _ => []).images

/-- ORDER BY of a SELECT to the left is an error, whatever its key. -/
def Compound.chain (key : Bytes → Bytes) : Compound → Chain
  | .one s => .one (s.coded key)
  | .compound prior op s => .compound (prior.chain key) op (s.coded key)

/-! ## Terms -/

/-- `__expr_is_integer` (cg_expr.c:496-540). -/
def exprIsInteger : Node → Option CInt
  | .null => none
  | .node d pLeft _ _ _ =>
    match d.op with
    | .lit .integer => d.token.bind fun z =>
      if strIntIn32b z then some (BitVec.ofInt 32 (leadingInt z)) else none
    | .lit .string => d.token.bind fun z =>
      if (if peek z = 45 then z.tail else z).all isdigit && strIntIn32b z then
        some (BitVec.ofInt 32 (leadingInt z))
      else none
    | .uplus => exprIsInteger pLeft
    | .uminus => (exprIsInteger pLeft).map fun v => -v
    | _ => none

/-- The test of a column: its name, or its expression. -/
def columnMatches (e : Node) (col : ResultCol) : Bool :=
  (match col.zName, e with
    | some name, .node d _ _ _ _ =>
      (d.op = .id || d.op = .lit .string) && d.token.any fun z => strcasecmp name (strUnquote z)
    | _, _ => false) || exprCompare e col.pExpr

/-- A term that is done. -/
def OrderTerm.atColumn (t : OrderTerm) (iColumn : Option Nat) : OrderTerm := { t with iColumn := iColumn }

/-- The body of the loop of `__match_orderby_to_column`, at the `i`-th term. -/
def matchTerm (mustComplete : Bool) (elist : List ResultCol) (i : Nat) (t : OrderTerm) : Except String OrderTerm :=
  if t.iColumn.isSome then .ok t
  else
    match exprIsInteger t.pExpr with
    | some col =>
      if col.toInt ≤ 0 ∨ (elist.length : Int) < col.toInt then
        .error s!"ORDER BY position {col.toInt} should be between 1 and {elist.length}"
      else if mustComplete then .ok (t.atColumn (some (col.toInt - 1).toNat))
      else .ok t
    | none =>
      match elist.findIdx? (columnMatches t.pExpr) with
      | some j => .ok (t.atColumn (some j))
      | none =>
        if mustComplete then .error s!"ORDER BY term number {i + 1} does not match any result column"
        else .ok t

/-- The loop, from the `i`-th term on. -/
def matchTerms (mustComplete : Bool) (elist : List ResultCol) :
    Nat → List OrderTerm → Except String (List OrderTerm)
  | _, [] => .ok []
  | i, t :: ts =>
    match matchTerm mustComplete elist i t with
    | .error msg => .error msg
    | .ok t => (matchTerms mustComplete elist (i + 1) ts).map (t :: ·)

/-- `__match_orderby_to_column` (cg_select.c:1302-1379). -/
def matchOrderbyToColumn (mustComplete : Bool) : Compound → List OrderTerm → Except String (List OrderTerm)
  | .one s, ts => matchTerms mustComplete s.pEList 0 (if mustComplete then ts.map (·.atColumn none) else ts)
  | .compound prior _ s, ts =>
    match matchOrderbyToColumn false prior (if mustComplete then ts.map (·.atColumn none) else ts) with
    | .error msg => .error msg
    | .ok ts => matchTerms mustComplete s.pEList 0 ts

/-! ## Sort keys -/

/-- `__multi_select_sort_order` (cg_select.c:1430-1461) for a term that is the column `iColumn`. -/
def multiSelectSortOrder (iColumn : Nat) : Compound → So
  | .one s => (s.pEList[iColumn]?.map (·.dataType)).getD .text
  | .compound prior _ s =>
    match multiSelectSortOrder iColumn prior with
    | .num => .num
    | dataType => (s.pEList[iColumn]?.map (·.dataType)).getD dataType

/-- The letter that `__push_onto_sorter` (cg_select.c:423-463) chooses for a term. -/
def Compound.sortDir (c : Compound) (t : OrderTerm) : SortDir :=
  let type := if t.collate = .unk then multiSelectSortOrder (t.iColumn.getD 0) c else t.collate
  if t.desc then if type = .text then .textDesc else .numDesc
  else if type = .text then .textAsc else .numAsc

/-- `OP_Column` of a record; one that `OP_MakeRecord` has made is not corrupt. -/
def column (image : Bytes) (i : Nat) : Val := (Row.pushedVal (opColumn image i [])).getD .null

/-- The columns of the ORDER BY terms. -/
def sortRow (ts : List OrderTerm) (image : Bytes) : List Val := ts.map fun t => column image (t.iColumn.getD 0)

/-- The key of a record that `OP_SortMakeKey` makes. -/
def Compound.pushOntoSorter (c : Compound) (ts : List OrderTerm) (image : Bytes) : Bytes :=
  sortKey (ts.map c.sortDir) (sortRow ts image)

/-- The ORDER BY terms, if there are any, matched. -/
def Compound.matched (c : Compound) : Except String (List OrderTerm) :=
  match c.last.pOrderBy with
  | none => .ok []
  | some ts => matchOrderbyToColumn true c ts

/-- A whole statement. `__multi_select` looks at the clauses of the SELECT to its left and at its ORDER
BY before it codes the SELECTs; the rows of a SELECT alone have their sort keys. -/
def Compound.run {L : Type} (ar : Arith L) (c : Compound) (dest : Dest) : Except Failure (List Bytes) :=
  match c with
  | .one _ => (c.chain fun _ => []).run (strCmpLe ar) dest
  | .compound prior op _ =>
    if prior.last.pOrderBy.isSome then
      .error (.error s!"ORDER BY clause should come after {op.name} not before")
    else if 0 ≤ prior.last.nLimit.toInt ∨ 0 < prior.last.nOffset.toInt then
      .error (.error s!"LIMIT clause should come after {op.name} not before")
    else
      match c.matched with
      | .error msg => .error (.error msg)
      | .ok ts => (c.chain (c.pushOntoSorter ts)).run (strCmpLe ar) dest

/-! ## The places of the terms -/

/-- The integer is a position in each of the SELECTs. -/
def inRange (p : CInt) (lists : List (List ResultCol)) : Bool :=
  lists.all fun elist => 0 < p.toInt ∧ p.toInt ≤ elist.length

/-- The first column that a term matches, in the first SELECT that has one. -/
def firstMatch (e : Node) (lists : List (List ResultCol)) : Option Nat :=
  lists.findSome? fun elist => elist.findIdx? (columnMatches e)

/-- The place of a term among the columns. -/
def place (e : Node) (lists : List (List ResultCol)) : Option Nat :=
  match exprIsInteger e with
  | some p => if inRange p lists then some (p.toInt - 1).toNat else none
  | none => firstMatch e lists

/-- Nothing is wrong with the position, if the term is one. -/
def ranged (e : Node) (lists : List (List ResultCol)) : Bool := (exprIsInteger e).all fun p => inRange p lists

/-- Where a term is before the last SELECT is looked at. -/
def placeBefore (e : Node) (lists : List (List ResultCol)) : Option Nat :=
  match exprIsInteger e with
  | some _ => none
  | none => firstMatch e lists

section
variable {mustComplete : Bool} {elist : List ResultCol} {lists : List (List ResultCol)} {i : Nat}
  {t : OrderTerm} {ts : List OrderTerm} {c : Compound}

/-- Terms that come from one place to the next, each by itself. -/
theorem matchTerms_ok {g g' : OrderTerm → Option Nat} (h : ∀ t ∈ ts, ∀ i,
    matchTerm mustComplete elist i (t.atColumn (g t)) = .ok (t.atColumn (g' t))) :
    matchTerms mustComplete elist i (ts.map fun t => t.atColumn (g t)) =
      .ok (ts.map fun t => t.atColumn (g' t)) := by
  induction ts generalizing i with
  | nil => rfl
  | cons t ts ih =>
    rw [List.forall_mem_cons] at h
    rw [List.map_cons, matchTerms, h.1 i]
    dsimp only
    rw [ih h.2]
    rfl

theorem matchTerms_error (ht : t ∈ ts) (h : ∀ i, ∃ msg, matchTerm mustComplete elist i t = .error msg) :
    ∃ msg, matchTerms mustComplete elist i ts = .error msg := by
  induction ts generalizing i with
  | nil => cases ht
  | cons t' ts ih =>
    rw [matchTerms]
    cases ht with
    | head =>
      obtain ⟨msg, hmsg⟩ := h i
      exact ⟨msg, by rw [hmsg]⟩
    | tail _ ht =>
      obtain ⟨msg, hmsg⟩ := ih (i := i + 1) ht
      cases matchTerm mustComplete elist i t' with
      | error msg' => exact ⟨msg', rfl⟩
      | ok _ => exact ⟨msg, by dsimp only; rw [hmsg]; rfl⟩

theorem inRange_append {p : CInt} :
    inRange p (lists ++ [elist]) = (inRange p lists && inRange p [elist]) := List.all_append

theorem firstMatch_append {e : Node} : firstMatch e (lists ++ [elist]) =
    (firstMatch e lists).or (elist.findIdx? (columnMatches e)) := by
  rw [firstMatch, List.findSome?_append]
  simp [firstMatch]

/-- A position is tested in each SELECT. -/
theorem matchTerm_position {p : CInt} (hp : exprIsInteger t.pExpr = some p) (ht : t.iColumn = none) :
    (inRange p [elist] = true → matchTerm mustComplete elist i t =
      .ok (if mustComplete then t.atColumn (some (p.toInt - 1).toNat) else t)) ∧
    (inRange p [elist] = false → ∃ msg, matchTerm mustComplete elist i t = .error msg) := by
  unfold matchTerm inRange
  rw [ht, hp]
  simp only [Option.isSome_none, Bool.false_eq_true, if_false, List.all_cons, List.all_nil, Bool.and_true,
    decide_eq_true_eq, decide_eq_false_iff_not]
  constructor
  · intro h
    rw [if_neg (by omega)]
    cases mustComplete <;> rfl
  · intro h
    rw [if_pos (by omega)]
    exact ⟨_, rfl⟩

/-- Any other term stays with the first column it matches. -/
theorem matchTerm_column {e : Node} (he : t.pExpr = e) (hp : exprIsInteger e = none)
    (ht : t.iColumn = firstMatch e lists) :
    matchTerm false elist i t = .ok (t.atColumn (firstMatch e (lists ++ [elist]))) := by
  rw [firstMatch_append, ← ht]
  unfold matchTerm
  cases hcol : t.iColumn with
  | some j =>
    cases t
    cases hcol
    rfl
  | none =>
    rw [he, hp]
    dsimp only
    cases elist.findIdx? (columnMatches e) with
    | some j => rfl
    | none =>
      cases t
      cases hcol
      rfl

theorem ranged_append {e : Node} : ranged e (lists ++ [elist]) = (ranged e lists && ranged e [elist]) := by
  unfold ranged
  cases exprIsInteger e with
  | none => rfl
  | some p => exact inRange_append

theorem placeBefore_nil {e : Node} : placeBefore e [] = none := by
  unfold placeBefore
  cases exprIsInteger e <;> rfl

theorem ranged_nil {e : Node} : ranged e [] = true := by
  unfold ranged
  cases exprIsInteger e <;> rfl

theorem ranged_of_place {e : Node} (h : (place e (lists ++ [elist])).isSome = true) : ranged e lists = true := by
  unfold place at h
  unfold ranged
  cases hp : exprIsInteger e with
  | none => rfl
  | some p =>
    rw [hp] at h
    dsimp only at h
    rw [inRange_append] at h
    cases hlists : inRange p lists with
    | true => exact hlists
    | false =>
      rw [hlists, Bool.false_and, if_neg Bool.false_ne_true] at h
      cases h

/-- A term in a SELECT that is not the last. -/
theorem matchTerm_before (t : OrderTerm) :
    (ranged t.pExpr [elist] = true → matchTerm false elist i (t.atColumn (placeBefore t.pExpr lists)) =
      .ok (t.atColumn (placeBefore t.pExpr (lists ++ [elist])))) ∧
    (ranged t.pExpr [elist] = false →
      ∃ msg, matchTerm false elist i (t.atColumn (placeBefore t.pExpr lists)) = .error msg) := by
  unfold ranged placeBefore
  cases hp : exprIsInteger t.pExpr with
  | none => exact ⟨fun _ => matchTerm_column rfl hp rfl, fun h => by cases h⟩
  | some p => exact matchTerm_position (t := t.atColumn none) hp rfl

/-- A term in the last SELECT. -/
theorem matchTerm_last (t : OrderTerm) :
    (∀ j, place t.pExpr (lists ++ [elist]) = some j →
      matchTerm true elist i (t.atColumn (placeBefore t.pExpr lists)) = .ok (t.atColumn (some j))) ∧
    (ranged t.pExpr lists = true → place t.pExpr (lists ++ [elist]) = none →
      ∃ msg, matchTerm true elist i (t.atColumn (placeBefore t.pExpr lists)) = .error msg) := by
  unfold ranged place placeBefore
  cases hp : exprIsInteger t.pExpr with
  | some p =>
    have hposition : (inRange p [elist] = true → matchTerm true elist i (t.atColumn none) =
        .ok (t.atColumn (some (p.toInt - 1).toNat))) ∧
        (inRange p [elist] = false → ∃ msg, matchTerm true elist i (t.atColumn none) = .error msg) :=
      matchTerm_position hp rfl
    obtain ⟨hok, herr⟩ := hposition
    dsimp only [Option.all_some]
    rw [inRange_append]
    cases hlists : inRange p lists with
    | false => exact ⟨fun j hj => (by cases hj), fun h => (by cases h)⟩
    | true =>
      rw [Bool.true_and]
      cases hlast : inRange p [elist] with
      | false => exact ⟨fun j hj => (by cases hj), fun _ _ => herr hlast⟩
      | true =>
        refine ⟨fun j hj => ?_, fun _ h => (by cases h)⟩
        cases hj
        exact hok hlast
  | none =>
    dsimp only
    rw [firstMatch_append]
    unfold matchTerm
    dsimp only [OrderTerm.atColumn]
    cases firstMatch t.pExpr lists with
    | some j' =>
      refine ⟨fun j hj => ?_, fun _ h => (by cases h)⟩
      cases hj
      rfl
    | none =>
      rw [hp]
      dsimp only [Option.none_or]
      cases elist.findIdx? (columnMatches t.pExpr) with
      | none => exact ⟨fun j hj => (by cases hj), fun _ _ => ⟨_, rfl⟩⟩
      | some j' =>
        refine ⟨fun j hj => ?_, fun _ h => (by cases h)⟩
        cases hj
        rfl

/-- One SELECT that is not the last. -/
theorem matchTerms_before (ts : List OrderTerm) (lists : List (List ResultCol)) (elist : List ResultCol) :
    ((∀ t ∈ ts, ranged t.pExpr [elist] = true) →
      matchTerms false elist 0 (ts.map fun t => t.atColumn (placeBefore t.pExpr lists)) =
        .ok (ts.map fun t => t.atColumn (placeBefore t.pExpr (lists ++ [elist])))) ∧
    (¬ (∀ t ∈ ts, ranged t.pExpr [elist] = true) → ∃ msg,
      matchTerms false elist 0 (ts.map fun t => t.atColumn (placeBefore t.pExpr lists)) = .error msg) := by
  constructor
  · intro h
    apply matchTerms_ok
    exact fun t ht i => (matchTerm_before t).1 (h t ht)
  · intro h
    push Not at h
    obtain ⟨t, ht, hr⟩ := h
    exact matchTerms_error (List.mem_map_of_mem ht) fun i => (matchTerm_before t).2 (Bool.eq_false_iff.2 hr)

/-- **The SELECTs but the last.** -/
theorem matchOrderbyToColumn_before (c : Compound) (ts : List OrderTerm) :
    ((∀ t ∈ ts, ranged t.pExpr c.lists = true) → matchOrderbyToColumn false c (ts.map (·.atColumn none)) =
      .ok (ts.map fun t => t.atColumn (placeBefore t.pExpr c.lists))) ∧
    (¬ (∀ t ∈ ts, ranged t.pExpr c.lists = true) →
      ∃ msg, matchOrderbyToColumn false c (ts.map (·.atColumn none)) = .error msg) := by
  induction c with
  | one s =>
    have h := matchTerms_before ts [] s.pEList
    simp only [placeBefore_nil] at h
    exact h
  | compound prior op s ih =>
    obtain ⟨hok, herr⟩ := matchTerms_before ts prior.lists s.pEList
    have hboth : (∀ t ∈ ts, ranged t.pExpr (prior.lists ++ [s.pEList]) = true) ↔
        (∀ t ∈ ts, ranged t.pExpr prior.lists = true) ∧ ∀ t ∈ ts, ranged t.pExpr [s.pEList] = true := by
      simp only [ranged_append, Bool.and_eq_true]
      exact forall₂_and
    rw [Compound.lists, matchOrderbyToColumn, if_neg Bool.false_ne_true, hboth]
    by_cases hall : ∀ t ∈ ts, ranged t.pExpr prior.lists = true
    · rw [ih.1 hall]
      exact ⟨fun h => hok h.2, fun h => herr fun hlast => h ⟨hall, hlast⟩⟩
    · obtain ⟨msg, hmsg⟩ := ih.2 hall
      rw [hmsg]
      exact ⟨fun h => absurd h.1 hall, fun _ => ⟨msg, rfl⟩⟩

/-- The last SELECT. -/
theorem matchTerms_last (ts : List OrderTerm) (lists : List (List ResultCol)) (elist : List ResultCol) :
    ((∀ t ∈ ts, (place t.pExpr (lists ++ [elist])).isSome = true) →
      matchTerms true elist 0 (ts.map fun t => t.atColumn (placeBefore t.pExpr lists)) =
        .ok (ts.map fun t => t.atColumn (place t.pExpr (lists ++ [elist])))) ∧
    ∀ t ∈ ts, ranged t.pExpr lists = true → place t.pExpr (lists ++ [elist]) = none → ∃ msg,
      matchTerms true elist 0 (ts.map fun t => t.atColumn (placeBefore t.pExpr lists)) = .error msg := by
  constructor
  · intro h
    apply matchTerms_ok
    intro t ht i
    obtain ⟨j, hj⟩ := Option.isSome_iff_exists.1 (h t ht)
    rw [hj, (matchTerm_last t).1 j hj]
  · intro t ht hr hp
    exact matchTerms_error (List.mem_map_of_mem ht) fun i => (matchTerm_last t).2 hr hp

/-- **Each term comes to its place**, or one of them is an error. -/
theorem matchOrderbyToColumn_eq (c : Compound) (ts : List OrderTerm) :
    ((∀ t ∈ ts, (place t.pExpr c.lists).isSome = true) → matchOrderbyToColumn true c ts =
      .ok (ts.map fun t => t.atColumn (place t.pExpr c.lists))) ∧
    ∀ t ∈ ts, place t.pExpr c.lists = none → ∃ msg, matchOrderbyToColumn true c ts = .error msg := by
  cases c with
  | one s =>
    obtain ⟨hok, herr⟩ := matchTerms_last ts [] s.pEList
    simp only [placeBefore_nil] at hok herr
    exact ⟨hok, fun t ht hp => herr t ht ranged_nil hp⟩
  | compound prior op s =>
    obtain ⟨hbefore, hwrong⟩ := matchOrderbyToColumn_before prior ts
    obtain ⟨hok, herr⟩ := matchTerms_last ts prior.lists s.pEList
    rw [Compound.lists, matchOrderbyToColumn, if_pos rfl]
    by_cases hall : ∀ t ∈ ts, ranged t.pExpr prior.lists = true
    · rw [hbefore hall]
      exact ⟨hok, fun t ht hp => herr t ht (hall t ht) hp⟩
    · obtain ⟨msg, hmsg⟩ := hwrong hall
      rw [hmsg]
      exact ⟨fun h => absurd (fun t ht => ranged_of_place (h t ht)) hall, fun _ _ _ => ⟨msg, rfl⟩⟩

end

/-! ## Statements -/

/-- The terms, each at its place. -/
def Compound.terms (c : Compound) : List OrderTerm :=
  (c.last.pOrderBy.getD []).map fun t => t.atColumn (place t.pExpr c.lists)

/-- The chain that is coded then. -/
def Compound.coded (c : Compound) : Chain := c.chain (c.pushOntoSorter c.terms)

/-- Each term has a place. -/
def Compound.Resolved (c : Compound) : Prop :=
  ∀ ts, c.last.pOrderBy = some ts → ∀ t ∈ ts, (place t.pExpr c.lists).isSome = true

section
variable {L : Type} (ar : Arith L)

/-- The columns of the terms are texts, and none that is sorted by its numbers has a NaN beside two
numbers that differ. -/
def Compound.Sortable (c : Compound) : Prop :=
  ∀ t ∈ c.terms, (∀ a ∈ c.coded.rows, (column a (t.iColumn.getD 0)).Plain) ∧
    ((c.sortDir t).numeric = true → NoNan ar {v | ∃ a ∈ c.coded.rows, v = column a (t.iColumn.getD 0)})

/-- The rows are the value of the chain, in the order of its loops or in that of the terms. -/
structure Compound.Sorts (c : Compound) (rows : List Bytes) : Prop where
  value : (rows : Multiset Bytes) = c.coded.value
  loops : c.last.pOrderBy = none → rows = c.coded.rows
  sorted : c.last.pOrderBy.isSome = true → c.Sortable ar → rows.Pairwise fun a b =>
    rowCmp ar (c.terms.map c.sortDir) (sortRow c.terms a) (sortRow c.terms b) ≠ .gt

variable {ar} {c prior : Compound} {op : SetOp} {s : OneSelect} {dest : Dest} {rows : List Bytes}

theorem last_chain (key : Bytes → Bytes) : (c.chain key).last = c.last.coded key := by
  cases c <;> rfl

/-- The values that the rows have in the columns of the terms. -/
theorem Compound.keyOrder (h : c.Sortable ar) (hne : c.coded.rows ≠ []) :
    KeyOrder ar (c.terms.map fun t =>
      (c.sortDir t, {v | ∃ a ∈ c.coded.rows, v = column a (t.iColumn.getD 0)})) := by
  refine keyOrder_of_noNan ⟨?_, ?_⟩ ?_
  · simp only [List.forall_mem_map]
    rintro t ht _ ⟨a, ha, rfl⟩
    exact (h t ht).1 a ha
  · simp only [List.forall_mem_map]
    obtain ⟨a, ha⟩ := List.exists_mem_of_ne_nil _ hne
    exact fun t _ => ⟨_, a, ha, rfl⟩
  · simp only [List.forall_mem_map]
    exact fun t ht => (h t ht).2

theorem Compound.sortRow_mem {a : Bytes} (ha : a ∈ c.coded.rows) : sortRow c.terms a ∈
    Rows (c.terms.map fun t => (c.sortDir t, {v | ∃ a ∈ c.coded.rows, v = column a (t.iColumn.getD 0)})) := by
  show List.Forall₂ _ _ _
  rw [sortRow, List.forall₂_map_left_iff, List.forall₂_map_right_iff, List.forall₂_same]
  exact fun t _ => ⟨a, ha, rfl⟩

/-- **By the keys, the records are in the order of their columns.** -/
theorem Compound.sorts_of_sorts (h : c.coded.Sorts (strCmpLe ar) rows) : c.Sorts ar rows := by
  have hlast : c.coded.last.orderBy = c.last.pOrderBy.map fun _ => c.pushOntoSorter c.terms := by
    rw [Compound.coded, last_chain]
    rfl
  refine ⟨h.value, fun hnone => h.loops (by rw [hlast, hnone]; rfl), fun hsome hsort => ?_⟩
  obtain ⟨ts, hts⟩ := Option.isSome_iff_exists.1 hsome
  by_cases hne : c.coded.rows = []
  · have hrows : rows = [] := by
      rw [← Multiset.coe_eq_zero, h.value, ← rows_value, hne]
      rfl
    rw [hrows]
    exact .nil
  · have hkey := Compound.keyOrder hsort hne
    have hmap : (c.terms.map fun t => (c.sortDir t, {v | ∃ a ∈ c.coded.rows, v = column a (t.iColumn.getD 0)})).map
        Prod.fst = c.terms.map c.sortDir := by
      rw [List.map_map]
      rfl
    have htotal := hkey.total
    have htrans := hkey.trans
    rw [hmap] at htotal htrans
    have hpre : BinSort.PreorderOn
        (fun a b => strCmpLe ar (c.pushOntoSorter c.terms a) (c.pushOntoSorter c.terms b)) c.coded.rows := by
      constructor
      · intro a ha b hb
        rw [Bool.or_eq_true, strCmpLe_iff, strCmpLe_iff]
        exact htotal _ (Compound.sortRow_mem ha) _ (Compound.sortRow_mem hb)
      · intro a ha b hb d hd
        simp only [strCmpLe_iff]
        exact htrans _ (Compound.sortRow_mem ha) _ (Compound.sortRow_mem hb) _ (Compound.sortRow_mem hd)
    have hrow {a : Bytes} (ha : a ∈ rows) : SortRow (c.terms.map c.sortDir) (sortRow c.terms a) := by
      have ha' : a ∈ c.coded.rows := by
        rw [← mem_value, ← h.value]
        exact ha
      refine ⟨by rw [sortRow, List.length_map, List.length_map], ?_⟩
      simp only [sortRow, List.forall_mem_map]
      exact fun t ht => (hsort t ht).1 a ha'
    refine (h.sorted _ (by rw [hlast, hts]; rfl) hpre).imp_of_mem fun {a b} ha hb hab => ?_
    exact (keyLe_iff (hrow ha) (hrow hb)).1 (strCmpLe_iff.1 hab)

/-! ### Whole statements -/

/-- The rows delivered are the value of the chain, sorted and cut. -/
def Compound.Delivers {L : Type} (ar : Arith L) (c : Compound) (dest : Dest) : Prop :=
  ∃ rows, c.Sorts ar rows ∧
    c.run ar dest = .ok (window c.last.nOffset.toInt.toNat (limitOf c.last.nLimit) rows)

/-- The numbers of columns differ somewhere. -/
def Compound.ColumnsDiffer : Compound → Prop
  | .one _ => False
  | .compound prior _ s => s.pEList.length ≠ prior.last.pEList.length ∨ prior.ColumnsDiffer

theorem columnsDiffer_chain (key : Bytes → Bytes) (h : c.ColumnsDiffer) : (c.chain key).ColumnsDiffer := by
  induction c with
  | one s => exact h
  | compound prior op s ih =>
    refine h.imp (fun hne => ?_) ih
    rw [last_chain]
    exact hne

/-- The terms at their places, or an error. -/
theorem matched_eq (c : Compound) : (c.Resolved → c.matched = .ok c.terms) ∧
    (¬ c.Resolved → ∃ msg, c.matched = .error msg) := by
  unfold Compound.Resolved Compound.matched Compound.terms
  cases c.last.pOrderBy with
  | none => exact ⟨fun _ => rfl, fun h => absurd (fun ts hts => by cases hts) h⟩
  | some ts =>
    obtain ⟨hok, herr⟩ := matchOrderbyToColumn_eq c ts
    constructor
    · exact fun h => hok (h ts rfl)
    · intro h
      simp only [Option.some.injEq, forall_eq'] at h
      push Not at h
      obtain ⟨t, ht, hnone⟩ := h
      exact herr t ht (by simpa using hnone)

/-- Terms that have places: the chain is coded. -/
theorem run_eq_coded (hc : (Compound.compound prior op s).coded.Compiles)
    (hr : (Compound.compound prior op s).Resolved) : (Compound.compound prior op s).run ar dest =
      (Compound.compound prior op s).coded.run (strCmpLe ar) dest := by
  obtain ⟨horder, hlim, -, -⟩ := compiles_compound.1 hc
  rw [last_chain] at horder hlim
  have hnone : ¬ prior.last.pOrderBy.isSome = true := by
    simpa [OneSelect.coded] using horder
  have hlim' : ¬ (0 ≤ prior.last.nLimit.toInt ∨ 0 < prior.last.nOffset.toInt) := by
    have h : prior.last.nLimit.toInt < 0 ∧ prior.last.nOffset.toInt ≤ 0 := hlim
    omega
  rw [Compound.run, if_neg hnone, if_neg hlim', (matched_eq _).1 hr]
  rfl

/-- Otherwise the statement is an error. -/
theorem run_error (h : (Compound.compound prior op s).ColumnsDiffer ∨ ¬ (Compound.compound prior op s).Resolved) :
    ∃ msg, (Compound.compound prior op s).run ar dest = .error (.error msg) := by
  rw [Compound.run]
  split
  · exact ⟨_, rfl⟩
  · split
    · exact ⟨_, rfl⟩
    · cases hm : (Compound.compound prior op s).matched with
      | error msg => exact ⟨msg, rfl⟩
      | ok ts =>
        rcases h with h | h
        · obtain ⟨msg, hmsg⟩ := error_of_columnsDiffer
            (columnsDiffer_chain ((Compound.compound prior op s).pushOntoSorter ts) h)
          refine ⟨msg, ?_⟩
          dsimp only
          rw [Chain.run, hmsg]
        · obtain ⟨msg, hmsg⟩ := (matched_eq _).2 h
          rw [hmsg] at hm
          cases hm

theorem delivers_of_coded (hc : (Compound.compound prior op s).coded.Compiles)
    (hr : (Compound.compound prior op s).Resolved)
    (h : (Compound.compound prior op s).coded.Delivers (strCmpLe ar) dest s.nLimit s.nOffset) :
    (Compound.compound prior op s).Delivers ar dest := by
  obtain ⟨rows, hsorts, hrun⟩ := h
  refine ⟨rows, Compound.sorts_of_sorts hsorts, ?_⟩
  rw [run_eq_coded hc hr]
  exact hrun

/-- The rows and the searches do not depend on the key. -/
theorem rows_chain (key key' : Bytes → Bytes) : (c.chain key).rows = (c.chain key').rows := by
  induction c with
  | one s => rfl
  | compound prior op s ih => cases op <;> simp only [Compound.chain, Chain.rows, ih] <;> rfl

theorem searchesHit_chain (key key' : Bytes → Bytes) (h : (c.chain key).SearchesHit) :
    (c.chain key').SearchesHit := by
  induction c with
  | one s => trivial
  | compound prior op s ih =>
    refine ⟨ih h.1, ?_⟩
    rw [rows_chain key' key]
    exact h.2

/-- Without ORDER BY the last operator is all that is left to ask. -/
theorem delivers_iff (hd : dest = .callback ∨ dest = .table) (horder : s.pOrderBy = none)
    (hm : s.nOffset.toInt ≤ 0) (hop : op ≠ .all) (hc : (Compound.compound prior op s).coded.Compiles)
    (hprior : prior.coded.SearchesHit) : (Compound.compound prior op s).Delivers ar dest ↔
      OpHits (limitOf s.nLimit) prior.coded.rows op s.images := by
  have hr : (Compound.compound prior op s).Resolved := fun ts hts => by
    cases horder.symm.trans hts
  have hnone : (s.coded ((Compound.compound prior op s).pushOntoSorter (Compound.compound prior op s).terms)).orderBy =
      none := by
    rw [OneSelect.coded, horder]
    rfl
  have hiff : (Compound.compound prior op s).coded.Delivers (strCmpLe ar) dest s.nLimit s.nOffset ↔
      OpHits (limitOf s.nLimit) (prior.chain _).rows op s.images :=
    delivers_iff_opHits (strCmpLe ar) hd hc (searchesHit_chain _ _ hprior) hop hnone hm
  rw [rows_chain _ (prior.pushOntoSorter prior.terms)] at hiff
  refine Iff.trans ⟨fun h => ?_, delivers_of_coded hc hr⟩ hiff
  obtain ⟨rows, hsorts, hrun⟩ := h
  rw [run_eq_coded hc hr] at hrun
  refine ⟨rows, ⟨hsorts.value, fun _ => hsorts.loops horder, fun f hf => ?_⟩, hrun⟩
  cases hnone.symm.trans hf

end

/-- A SELECT of letters, in a column with a name or without. -/
def letters (zName : Option Bytes) (zs : Bytes) : OneSelect :=
  ⟨⟨zs.map fun z => ⟨[2, 4, z, 0], [99, z, 0], []⟩, fun _ => true, false⟩,
    [⟨zName, Tree.token (.lit .string) "'?'" .null, .text⟩], none, -1, 0⟩

/-- b, c and e of `x`, INTERSECT b, c and d. -/
def leftTwo : Compound :=
  .compound (.one (letters (some (ascii "x")) [98, 99, 101])) .intersect (letters none [98, 99, 100])

/-- UNION b and a, ORDER BY x DESC LIMIT 2. -/
def lastLetters : OneSelect :=
  { letters none [98, 97] with
    pOrderBy := some [⟨Tree.token .id "X" .null, .unk, true, none⟩], nLimit := 2 }

end Dbsql.L5.Query
