import Dbsql.Core.Reader
import Mathlib.Data.List.Nodup
import Mathlib.Data.List.Pairwise
/-!
# INSERT INTO ... SELECT (cg_insert.c:28-300)

The rows of the SELECT go into the table as they come, or into a temporary table first. `__insert`
takes the temporary table if there are row triggers, or else if the SELECT reads the table: it
looks in the program for the first `OP_OpenRead` of the table's root number, and then whether the
instruction before it is an `OP_Integer` of the table's database. But the numbers are those of a
database: a table or an index of another database may have the same one, and only the first is
looked at.

`before` is the program in front of the SELECT; a step of a trigger finds there the statement that
fires it. Every `OP_OpenRead` follows the `OP_Integer` of its database, and a table is opened before
its index. The SELECT runs as a reader (`Core.Reader`).

Results:
* `reads_target_iff`: when a SELECT that reads the table goes through the temporary table.
* `inserted_rows`: where it does, and where the table is not read, the rows inserted are those of
  the SELECT on the state before the statement.
-/
namespace Dbsql.L5.InsertSelect
open Dbsql.Core.Reader

/-! ## Programs -/

inductive Opcode
  | integer
  | openRead
  | other (n : Nat)
  deriving DecidableEq, Repr

structure VdbeOp where
  opcode : Opcode
  p1 : Int
  p2 : Int
  deriving DecidableEq, Repr

/-- The loop of `__vdbe_find_op`, from address `i` on. -/
def findFrom (op : Opcode) (p2 : Int) : Nat → List VdbeOp → Nat
  | _, [] => 0
  | i, o :: os => if o.opcode = op ∧ o.p2 = p2 then i + 1 else findFrom op p2 (i + 1) os

/-- `__vdbe_find_op` (vdbe_method.c:457-470). -/
def vdbeFindOp (aOp : List VdbeOp) (op : Opcode) (p2 : Int) : Nat := findFrom op p2 0 aOp

/-- `__vdbe_get_op` (vdbe_method.c:478-486); `none` is a failed assertion. -/
def vdbeGetOp (aOp : List VdbeOp) (addr : Int) : Option VdbeOp :=
  if 0 ≤ addr then aOp[addr.toNat]? else none

/-! ## Tables -/

/-- What a cursor is opened on: the number of a database, and a root number in it. -/
structure Root where
  iDb : Int
  tnum : Int
  deriving DecidableEq, Repr

/-- A table, with `pIndex`. -/
structure Table where
  root : Root
  pIndex : List Root
  deriving DecidableEq, Repr

def Table.roots (t : Table) : List Root := t.root :: t.pIndex

/-- The tables of all databases. In one database no two tables or indices have the same number. -/
structure Schema where
  tables : List Table
  nodup : (tables.flatMap Table.roots).Nodup

/-- A piece of a program: a table that is opened, with one of its indices or without
(cg_where.c:812-829, cg_select.c:2325-2335, cg_delete.c:220-222, 289-291, cg_update.c:311-312), or
any other instruction. -/
inductive Piece
  | level (table : Table) (cursor : Nat) (idx : Option (Root × Nat))
  | other (op : VdbeOp)

/-- The pieces that there are. -/
def Piece.Valid (schema : Schema) : Piece → Prop
  | .level table _ idx => table ∈ schema.tables ∧ ∀ i ∈ idx, i.1 ∈ table.pIndex
  | .other op => op.opcode ≠ .openRead

/-- `OP_Integer` and `OP_OpenRead`. -/
def openRead (r : Root) (cursor : Nat) : List VdbeOp :=
  [⟨.integer, r.iDb, 0⟩, ⟨.openRead, cursor, r.tnum⟩]

def Piece.ops : Piece → List VdbeOp
  | .level table cursor idx =>
    openRead table.root cursor ++ idx.elim [] fun i => openRead i.1 i.2
  | .other op => [op]

/-- What it opens. -/
def Piece.opens : Piece → List Root
  | .level table _ idx => table.root :: idx.elim [] fun i => [i.1]
  | .other _ => []

/-! ## The statement -/

/-- An INSERT with a SELECT, as `__insert` finds it behind the code of the SELECT. -/
structure Insert where
  schema : Schema
  table : Table
  row_triggers_p : Bool
  before : List Piece
  code : List Piece
  table_mem : table ∈ schema.tables
  valid : ∀ p ∈ before ++ code, p.Valid schema

/-- The `OP_Goto` behind the SELECT. -/
def gotoCleanup : VdbeOp := ⟨.other 0, 0, -1⟩

def Insert.aOp (q : Insert) : List VdbeOp :=
  (q.before ++ q.code).flatMap Piece.ops ++ [gotoCleanup]

/-- The decision (cg_insert.c:231-254). -/
def Insert.useTempTable (q : Insert) : Option Bool :=
  if q.row_triggers_p then some true
  else
    let addr := vdbeFindOp q.aOp .openRead q.table.root.tnum
    if 0 < addr then
      (vdbeGetOp q.aOp ((addr : Int) - 2)).map fun op =>
        op.opcode = .integer ∧ op.p1 = q.table.root.iDb
    else some false

section
variable {δ σ ρ : Type} (next : δ → σ → Next σ ρ) (insert : δ → ρ → δ)

/-- A run of the statement to its end, with the rows that are inserted: by way of the temporary
table (cg_insert.c:70-87), or as the SELECT delivers them (cg_insert.c:53-66). -/
inductive Insert.Run (q : Insert) : δ → σ → List ρ → δ → Prop
  | temp {d : δ} {s : σ} {rs tab : List ρ} (h : q.useTempTable = some true)
      (hselect : Yields (fun p s => next p.1 s) aside (d, []) s rs (d, tab)) :
      Insert.Run q d s tab (tab.foldl insert d)
  | direct {d d' : δ} {s : σ} {rs : List ρ} (h : q.useTempTable = some false)
      (hselect : Yields next insert d s rs d') : Insert.Run q d s rs d'

end

/-- The SELECT opens the table, or one of its indices. -/
def Insert.ReadsTarget (q : Insert) : Prop := ∃ r ∈ q.code.flatMap Piece.opens, r ∈ q.table.roots

/-- There are row triggers; or nothing of another database that has the number of the table is
opened before it. -/
def Insert.HoldsWhen (q : Insert) : Prop :=
  q.row_triggers_p = true ∨
    ∀ r ∈ ((q.before ++ q.code).flatMap Piece.opens).takeWhile (· ≠ q.table.root),
      r.tnum ≠ q.table.root.tnum

/-- The rows go through the temporary table, and those of the SELECT on the state before the
statement are inserted. -/
def Insert.Isolated {δ σ ρ : Type} (next : δ → σ → Next σ ρ) (insert : δ → ρ → δ) (q : Insert) :
    Prop :=
  q.useTempTable = some true ∧
    ∀ d s rs d', q.Run next insert d s rs d' → Rows next d s rs

/-! ## What is found -/

/-- The instruction sought. -/
def Sought (n : Int) (o : VdbeOp) : Prop := o.opcode = .openRead ∧ o.p2 = n

theorem findFrom_append {n : Int} {xs : List VdbeOp} (h : ∀ o ∈ xs, ¬ Sought n o) (i : Nat)
    (ys : List VdbeOp) :
    findFrom .openRead n i (xs ++ ys) = findFrom .openRead n (i + xs.length) ys := by
  induction xs generalizing i with
  | nil => rfl
  | cons o xs ih =>
    rw [List.forall_mem_cons] at h
    have ho : ¬ (o.opcode = .openRead ∧ o.p2 = n) := h.1
    rw [List.cons_append, findFrom, if_neg ho, ih h.2, List.length_cons, Nat.add_right_comm,
      Nat.add_assoc]

/-- What the first instruction that is sought opens. -/
def First (n : Int) (os : List VdbeOp) : Option Root → Prop
  | none => ∀ o ∈ os, ¬ Sought n o
  | some r => r.tnum = n ∧ ∃ xs c ys, os = xs ++ openRead r c ++ ys ∧ ∀ o ∈ xs, ¬ Sought n o

section
variable {n : Int} {xs ys : List VdbeOp}

theorem First.append {a b : Option Root} (hx : First n xs a) (hy : First n ys b) :
    First n (xs ++ ys) (a.or b) := by
  cases a with
  | some r =>
    obtain ⟨hr, xs₁, c, xs₂, rfl, hxs⟩ := hx
    refine ⟨hr, xs₁, c, xs₂ ++ ys, ?_, hxs⟩
    rw [List.append_assoc]
  | none =>
    cases b with
    | none => exact List.forall_mem_append.2 ⟨hx, hy⟩
    | some r =>
      obtain ⟨hr, ys₁, c, ys₂, rfl, hys⟩ := hy
      refine ⟨hr, xs ++ ys₁, c, ys₂, ?_, List.forall_mem_append.2 ⟨hx, hys⟩⟩
      simp only [List.append_assoc]

theorem first_openRead (n : Int) (r : Root) (c : Nat) :
    First n (openRead r c) ([r].find? (·.tnum = n)) := by
  by_cases hr : r.tnum = n
  · rw [List.find?_cons_of_pos (by simpa using hr)]
    exact ⟨hr, [], c, [], rfl, List.forall_mem_nil _⟩
  · rw [List.find?_cons_of_neg (by simpa using hr)]
    intro o ho hs
    rcases List.mem_cons.1 ho with rfl | ho
    · cases hs.1
    · rw [List.mem_singleton.1 ho] at hs
      exact hr hs.2

theorem first_piece {schema : Schema} {p : Piece} (h : p.Valid schema) (n : Int) :
    First n p.ops (p.opens.find? (·.tnum = n)) := by
  cases p with
  | other op =>
    intro o ho hs
    rw [List.mem_singleton.1 ho] at hs
    exact h hs.1
  | level table cursor idx =>
    cases idx with
    | none =>
      rw [Piece.ops, Option.elim_none, List.append_nil]
      exact first_openRead n table.root cursor
    | some i =>
      rw [Piece.ops, Piece.opens, Option.elim_some, Option.elim_some, ← List.singleton_append,
        List.find?_append]
      exact (first_openRead n table.root cursor).append (first_openRead n i.1 i.2)

/-- **What the search meets** is the first that is opened under the number. -/
theorem first_program {schema : Schema} {ps : List Piece} (h : ∀ p ∈ ps, p.Valid schema) (n : Int) :
    First n (ps.flatMap Piece.ops) ((ps.flatMap Piece.opens).find? (·.tnum = n)) := by
  induction ps with
  | nil => exact List.forall_mem_nil _
  | cons p ps ih =>
    rw [List.forall_mem_cons] at h
    rw [List.flatMap_cons, List.flatMap_cons, List.find?_append]
    exact (first_piece h.1 n).append (ih h.2)

/-- The search, and the instruction before the one found. -/
theorem vdbeFindOp_none (h : First n xs none) : vdbeFindOp xs .openRead n = 0 := by
  have hfind := findFrom_append h 0 []
  rwa [List.append_nil] at hfind

theorem vdbeFindOp_some {r : Root} (h : First n xs (some r)) :
    ∃ addr, vdbeFindOp xs .openRead n = addr + 2 ∧ xs[addr]? = some ⟨.integer, r.iDb, 0⟩ := by
  obtain ⟨hr, xs₁, c, xs₂, rfl, hxs⟩ := h
  refine ⟨xs₁.length, ?_, ?_⟩
  · rw [vdbeFindOp, List.append_assoc, findFrom_append hxs]
    simp [openRead, findFrom, hr]
  · simp [openRead]

end

/-! ## The decision -/

/-- The list that `HoldsWhen` looks at, searched. -/
theorem find?_eq_some_iff {r : Root} {rs : List Root} (h : r ∈ rs) :
    rs.find? (·.tnum = r.tnum) = some r ↔ ∀ r' ∈ rs.takeWhile (· ≠ r), r'.tnum ≠ r.tnum := by
  induction rs with
  | nil => cases h
  | cons r' rs ih =>
    by_cases hr : r' = r
    · subst hr
      simp
    · by_cases hn : r'.tnum = r.tnum
      · simp [hr, hn]
      · simp [hr, hn, ih (List.mem_of_ne_of_mem (Ne.symm hr) h)]

section
variable {q : Insert}

/-- Whose root it is. -/
theorem eq_of_mem_roots (schema : Schema) {t t' : Table} {r : Root} (ht : t ∈ schema.tables)
    (ht' : t' ∈ schema.tables) (h : r ∈ t.roots) (h' : r ∈ t'.roots) : t = t' := by
  by_contra hne
  have hsymm : Std.Symm (Function.onFun List.Disjoint Table.roots) :=
    ⟨fun _ _ hab _ ha hb => hab hb ha⟩
  have hdisjoint := (List.nodup_flatMap.1 schema.nodup).2.forall ht ht' hne
  exact hdisjoint h h'

/-- An index is opened behind its table. -/
theorem Insert.ReadsTarget.mem (h : q.ReadsTarget) :
    q.table.root ∈ q.code.flatMap Piece.opens := by
  obtain ⟨r, hr, htarget⟩ := h
  obtain ⟨p, hp, hopens⟩ := List.mem_flatMap.1 hr
  have hvalid := q.valid p (List.mem_append_right _ hp)
  cases p with
  | other op => cases hopens
  | level table cursor idx =>
    have hroots : r ∈ table.roots := by
      rcases List.mem_cons.1 hopens with rfl | hidx
      · exact List.mem_cons_self
      · cases idx with
        | none => cases hidx
        | some i =>
          rw [List.mem_singleton.1 hidx]
          exact List.mem_cons_of_mem _ (hvalid.2 i rfl)
    rw [← eq_of_mem_roots q.schema hvalid.1 q.table_mem hroots htarget]
    exact List.mem_flatMap.2 ⟨_, hp, List.mem_cons_self⟩

/-- **The decision**: row triggers, or the first that is opened under the number is the table. -/
theorem useTempTable_eq (q : Insert) : q.useTempTable = some (q.row_triggers_p ||
    ((q.before ++ q.code).flatMap Piece.opens).find? (·.tnum = q.table.root.tnum) =
      some q.table.root) := by
  have hgoto : First q.table.root.tnum [gotoCleanup] none :=
    List.forall_mem_singleton.2 fun h => by cases h.1
  have hfirst := (first_program q.valid q.table.root.tnum).append hgoto
  rw [Option.or_none, ← Insert.aOp] at hfirst
  unfold Insert.useTempTable
  cases q.row_triggers_p with
  | true => rfl
  | false =>
    cases hfind : ((q.before ++ q.code).flatMap Piece.opens).find? (·.tnum = q.table.root.tnum) with
    | none =>
      rw [hfind] at hfirst
      rw [vdbeFindOp_none hfirst]
      rfl
    | some r =>
      rw [hfind] at hfirst
      obtain ⟨addr, haddr, hop⟩ := vdbeFindOp_some hfirst
      have hget : vdbeGetOp q.aOp (((addr + 2 : Nat) : Int) - 2) = some ⟨.integer, r.iDb, 0⟩ := by
        rw [vdbeGetOp, if_pos (by omega), ← hop]
        congr 1
        omega
      have hroot : r.iDb = q.table.root.iDb ↔ r = q.table.root := by
        refine ⟨fun hdb => ?_, fun h => h ▸ rfl⟩
        have htnum := hfirst.1
        cases r
        cases hq : q.table.root
        rw [hq] at hdb htnum
        cases hdb
        cases htnum
        rfl
      rw [haddr]
      simp only [Bool.false_eq_true, if_false, Nat.zero_lt_succ, if_true, hget, Option.map_some,
        Option.some.injEq, true_and, Bool.false_or, hroot]

/-- If the SELECT reads the table, only what is opened before it can hide it. -/
theorem useTempTable_of_reads (h : q.ReadsTarget) :
    q.useTempTable = some true ↔ q.HoldsWhen := by
  have hmem : q.table.root ∈ (q.before ++ q.code).flatMap Piece.opens := by
    rw [List.flatMap_append]
    exact List.mem_append_right _ h.mem
  rw [useTempTable_eq, Option.some_inj, Bool.or_eq_true, decide_eq_true_eq, find?_eq_some_iff hmem]
  rfl

/-! ## Runs -/

variable {δ σ ρ : Type} {next : δ → σ → Next σ ρ} {insert : δ → ρ → δ} {d d' : δ} {s : σ}
  {rs : List ρ}

/-- The temporary table keeps the rows of the SELECT apart from the table. -/
theorem rows_of_temp (h : q.useTempTable = some true) (hrun : q.Run next insert d s rs d') :
    Rows next d s rs := by
  cases hrun with
  | temp _ hselect =>
    obtain ⟨hrows, htab⟩ := yields_aside hselect
    rw [List.nil_append, Prod.mk.injEq] at htab
    rw [htab.2]
    exact hrows
  | direct h' _ =>
    rw [h] at h'
    cases h'

/-- **A SELECT that reads the table** goes through the temporary table. -/
theorem reads_target_iff (next : δ → σ → Next σ ρ) (insert : δ → ρ → δ) (q : Insert) :
    (q.ReadsTarget → q.Isolated next insert) ↔ (q.ReadsTarget → q.HoldsWhen) := by
  refine forall_congr' fun hreads => ?_
  rw [← useTempTable_of_reads hreads]
  exact ⟨fun h => h.1, fun h => ⟨h, fun _ _ _ _ => rows_of_temp h⟩⟩

/-- **The rows inserted**: if the SELECT sees only what it opens, and the insertion changes only the
table and its indices, they are those of the SELECT before the statement. -/
theorem inserted_rows {α : Type} {next : (Root → α) → σ → Next σ ρ}
    {insert : (Root → α) → ρ → Root → α} {d d' : Root → α}
    (hreads : ∀ d d' s, (∀ r ∈ q.code.flatMap Piece.opens, d r = d' r) → next d s = next d' s)
    (hwrites : ∀ d x r, r ∉ q.table.roots → insert d x r = d r)
    (hholds : q.ReadsTarget → q.HoldsWhen) (hrun : q.Run next insert d s rs d') :
    Rows next d s rs := by
  by_cases htemp : q.useTempTable = some true
  · exact rows_of_temp htemp hrun
  · have hunread : ¬ q.ReadsTarget := fun h => htemp ((useTempTable_of_reads h).2 (hholds h))
    cases hrun with
    | temp h _ => exact absurd h htemp
    | direct _ hselect =>
      refine hselect.rows (fun d d' => ∀ r ∈ q.code.flatMap Piece.opens, d r = d' r) ?_ ?_ ?_
      · exact fun d' s h => (hreads d d' s h).symm
      · intro d' x h r hr
        rw [hwrites d' x r fun htarget => hunread ⟨r, hr, htarget⟩]
        exact h r hr
      · exact fun _ _ => rfl

end

/-- INSERT INTO t SELECT a FROM u, t: the first table of the main database and the first temporary
table, which have the same number. -/
def twoDatabases : Insert where
  schema := ⟨[⟨⟨0, 3⟩, []⟩, ⟨⟨1, 3⟩, []⟩], by decide⟩
  table := ⟨⟨0, 3⟩, []⟩
  row_triggers_p := false
  before := [.other gotoCleanup]
  code := [.level ⟨⟨1, 3⟩, []⟩ 0 none, .level ⟨⟨0, 3⟩, []⟩ 1 none]
  table_mem := by decide
  valid := by
    intro p hp
    simp only [List.mem_append, List.mem_cons, List.not_mem_nil, or_false] at hp
    rcases hp with rfl | rfl | rfl
    · simp [Piece.Valid, gotoCleanup]
    · simp [Piece.Valid]
    · simp [Piece.Valid]

/-- The rows are inserted while the table is read. -/
theorem twoDatabases_not_isolated : ¬ ∀ (δ σ ρ : Type) (next : δ → σ → Next σ ρ)
    (insert : δ → ρ → δ) (q : Insert), q.ReadsTarget → q.Isolated next insert := by
  intro h
  have hreads : twoDatabases.ReadsTarget := ⟨⟨0, 3⟩, by decide, by decide⟩
  have htemp := (h Unit Unit Unit (fun _ _ => .done) (fun _ _ => ()) twoDatabases hreads).1
  have hfalse : twoDatabases.useTempTable = some false := rfl
  rw [hfalse] at htemp
  cases htemp

end Dbsql.L5.InsertSelect
