import Dbsql.Core.KeyOrder
import Dbsql.L5Codegen.ExprTree
/-!
# An index that sorts (cg_where.c)

`__find_sorting_index` looks for an index of the left-most table whose entries stand in the order
of the ORDER BY. The first `num_eq_col` columns are fixed; terms on them are skipped, and the terms
behind must be the columns behind.

The columns of an index must be as many as the terms, but some of them stand before the first that
is compared. Where the others agree with the terms to the last, the loop goes on to read behind
`aiColumn`.

Results:
* `delivers_of_matches`: an index that matches delivers the order.
* `findSortingIndex_iff`: the search stays inside the indices, and finds only one that delivers the
  order, just when no index it comes to runs out of columns.
-/
namespace Dbsql.L5.SortingIndex
open Dbsql.Core Dbsql.Core.Keys Dbsql.L5.Tree

/-! ## The search -/

/-- An item of the ORDER BY: `pExpr`, but for its subtrees, and `sortOrder`. -/
structure OrderItem where
  pExpr : Data
  sortOrder : Nat

/-- `sortOrder & DBSQL_SO_DIRMASK`. -/
def OrderItem.dir (t : OrderItem) : Nat := t.sortOrder &&& 1

/-- `sortOrder & DBSQL_SO_TYPEMASK`. -/
def OrderItem.type (t : OrderItem) : Nat := t.sortOrder &&& 6

/-- `DBSQL_SO_DESC`. -/
def soDesc : Nat := 1

/-- `DBSQL_SO_UNK`. -/
def soUnk : Nat := 0

/-- `index_t` at `addr`; `nColumn` is the length of `aiColumn`. -/
structure Index where
  addr : Nat
  aiColumn : List Int
  deriving DecidableEq, Repr

def Index.nColumn (idx : Index) : Nat := idx.aiColumn.length

/-- The first loop: the terms go one way, without COLLATE, on columns of the table. -/
def usable (base : Int) (sortOrder : Nat) (terms : List OrderItem) : Bool :=
  terms.all fun t => t.dir == sortOrder && t.type == soUnk && t.pExpr.op == .column && t.pExpr.iTable == base

/-- The loop over the fixed columns, with `rounds` to go: the number of terms that are skipped,
`some none` where it breaks; none where it reads behind an array. -/
def eqLoop (preferred : Option Index) (idx : Index) (terms : List OrderItem) :
    (rounds i j : Nat) → Option (Option Nat)
  | 0, _, j => some (some j)
  | rounds + 1, i, j => do
    let c ← (← preferred).aiColumn[i]?
    let c' ← idx.aiColumn[i]?
    if c ≠ c' then some none
    else
      let skip := terms[j]?.any fun t => t.pExpr.iColumn == c'
      eqLoop preferred idx terms rounds (i + 1) (if skip then j + 1 else j)

/-- The loop over the terms behind, which reads `aiColumn[n]`: whether it comes to their end. -/
def termLoop (idx : Index) : List OrderItem → Nat → Option Bool
  | [], _ => some true
  | t :: terms, n => do
    let c ← idx.aiColumn[n]?
    if t.pExpr.iColumn ≠ c then some false else termLoop idx terms (n + 1)

/-- Whether an index is a match. -/
def tryIndex (preferred : Option Index) (terms : List OrderItem) (numEqCol : Nat) (idx : Index) : Option Bool :=
  if idx.nColumn < numEqCol ∨ idx.nColumn < terms.length then some false
  else do
    match ← eqLoop preferred idx terms numEqCol 0 0 with
    | none => some false
    | some j => termLoop idx (terms.drop j) numEqCol

/-- `idx == preferred_idx`. -/
def isPreferred (preferred : Option Index) (idx : Index) : Bool := preferred.any fun p => p.addr == idx.addr

/-- The loop over the indices of the table. -/
def indexLoop (preferred : Option Index) (terms : List OrderItem) (numEqCol : Nat) (found : Option Index) :
    List Index → Option (Option Index)
  | [] => some found
  | idx :: pNext => do
    if ← tryIndex preferred terms numEqCol idx then
      if isPreferred preferred idx then some (some idx)
      else indexLoop preferred terms numEqCol (some idx) pNext
    else indexLoop preferred terms numEqCol found pNext

/-- `__find_sorting_index` (cg_where.c:264-344): the index, and `*orderby_desc_p`; none where it
reads what is not there. -/
def findSortingIndex (table : List Index) (base : Int) (orderby : List OrderItem) (preferred : Option Index)
    (numEqCol : Nat) : Option (Option (Index × Bool)) :=
  match orderby with
  | [] => none
  | first :: _ =>
    if usable base first.dir orderby then
      (indexLoop preferred orderby numEqCol none table).map fun found =>
        found.map fun idx => (idx, first.dir == soDesc)
    else some none

/-! ## The order of the rows -/

/-- How rows compare: by a column under a collating type, where `DBSQL_SO_UNK` is the column's own,
and by what else a term can be. -/
structure RowOrder (Row : Type) where
  column : Nat → Int → Row → Row → Ordering
  other : OrderItem → Row → Row → Ordering
  column_swap : ∀ type c a b, column type c b a = (column type c a b).swap

variable {Row : Type}

/-- How a term compares rows. -/
def RowOrder.term (o : RowOrder Row) (base : Int) (t : OrderItem) (a b : Row) : Ordering :=
  let c := if t.pExpr.op = .column ∧ t.pExpr.iTable = base then o.column t.type t.pExpr.iColumn a b else o.other t a b
  if t.dir = soDesc then c.swap else c

/-- The entries of the index with the first `numEqCol` columns fixed, from the other end where
`rev`, are rows in the order of the terms. -/
def Delivers (base : Int) (terms : List OrderItem) (numEqCol : Nat) (idx : Index) (rev : Bool) : Prop :=
  ∀ (Row : Type) (o : RowOrder Row) (rows : List Row), Sorted (idx.aiColumn.map (o.column soUnk)) rows →
    (∀ c ∈ idx.aiColumn.take numEqCol, ∀ r ∈ rows, ∀ r' ∈ rows, o.column soUnk c r r' = .eq) →
    Sorted (terms.map (o.term base)) (if rev then rows.reverse else rows)

/-! ## Matching -/

/-- The columns of the ORDER BY that are left when those on fixed columns are skipped. -/
def skipFixed : (fixed cols : List Int) → List Int
  | [], cols => cols
  | _ :: fixed, [] => skipFixed fixed []
  | c :: fixed, c' :: cols => if c' = c then skipFixed fixed cols else skipFixed fixed (c' :: cols)

/-- The columns of the terms. -/
def columns (terms : List OrderItem) : List Int := terms.map fun t => t.pExpr.iColumn

/-- An index that is looked at: it is long enough, and its first columns are the fixed ones. -/
structure Candidate (preferred : Option Index) (terms : List OrderItem) (numEqCol : Nat) (idx : Index) : Prop where
  fixed : numEqCol ≤ idx.nColumn
  long : terms.length ≤ idx.nColumn
  same : numEqCol = 0 ∨ ∃ p, preferred = some p ∧ p.aiColumn.take numEqCol = idx.aiColumn.take numEqCol

/-- The columns of the ORDER BY that the rest of the index must begin with. -/
def remaining (terms : List OrderItem) (numEqCol : Nat) (idx : Index) : List Int :=
  skipFixed (idx.aiColumn.take numEqCol) (columns terms)

def Matches (preferred : Option Index) (terms : List OrderItem) (numEqCol : Nat) (idx : Index) : Prop :=
  Candidate preferred terms numEqCol idx ∧ remaining terms numEqCol idx <+: idx.aiColumn.drop numEqCol

/-- All columns of the index agree, and there are terms left. -/
def RunsOut (preferred : Option Index) (terms : List OrderItem) (numEqCol : Nat) (idx : Index) : Prop :=
  Candidate preferred terms numEqCol idx ∧ idx.aiColumn.drop numEqCol <+: remaining terms numEqCol idx ∧
    idx.aiColumn.drop numEqCol ≠ remaining terms numEqCol idx

theorem columns_drop {terms : List OrderItem} {j : Nat} {c : Int} :
    columns (terms.drop (if terms[j]?.any fun t => t.pExpr.iColumn == c then j + 1 else j)) =
      match columns (terms.drop j) with
      | [] => []
      | c' :: cols => if c' = c then cols else c' :: cols := by
  cases ht : terms[j]? with
  | none =>
    rw [List.drop_eq_nil_of_le (List.getElem?_eq_none_iff.1 ht)]
    simp [columns, List.getElem?_eq_none_iff.1 ht]
  | some t =>
    obtain ⟨hlt, rfl⟩ := List.getElem?_eq_some_iff.1 ht
    have hdrop : columns (terms.drop j) = terms[j].pExpr.iColumn :: columns (terms.drop (j + 1)) := by
      rw [List.drop_eq_getElem_cons hlt]
      rfl
    rw [hdrop]
    by_cases hc : terms[j].pExpr.iColumn = c
    · rw [if_pos (by simpa using hc)]
      simp only [if_pos hc]
    · rw [if_neg (by simpa using hc), hdrop]
      simp only [if_neg hc]

theorem skipFixed_cons (c : Int) (fixed cols : List Int) :
    skipFixed (c :: fixed) cols = skipFixed fixed (match cols with
      | [] => []
      | c' :: cols => if c' = c then cols else c' :: cols) := by
  cases cols with
  | nil => rfl
  | cons c' cols =>
    rw [skipFixed]
    split
    · next h => simp [h]
    · next h => simp [h]

theorem eqLoop_spec {p idx : Index} {terms : List OrderItem} {rounds i j : Nat} (hp : i + rounds ≤ p.nColumn)
    (hidx : i + rounds ≤ idx.nColumn) :
    (eqLoop (some p) idx terms rounds i j = some none ∧
        (p.aiColumn.drop i).take rounds ≠ (idx.aiColumn.drop i).take rounds) ∨
      ∃ j', eqLoop (some p) idx terms rounds i j = some (some j') ∧
        (p.aiColumn.drop i).take rounds = (idx.aiColumn.drop i).take rounds ∧
        columns (terms.drop j') = skipFixed ((idx.aiColumn.drop i).take rounds) (columns (terms.drop j)) := by
  induction rounds generalizing i j with
  | zero => exact .inr ⟨j, rfl, by simp, rfl⟩
  | succ rounds ih =>
    have hip : i < p.aiColumn.length := by unfold Index.nColumn at hp; omega
    have hii : i < idx.aiColumn.length := by unfold Index.nColumn at hidx; omega
    rw [List.drop_eq_getElem_cons hip, List.drop_eq_getElem_cons hii, List.take_succ_cons, List.take_succ_cons]
    have hstep : eqLoop (some p) idx terms (rounds + 1) i j =
        if p.aiColumn[i] ≠ idx.aiColumn[i] then some none
        else eqLoop (some p) idx terms rounds (i + 1)
          (if terms[j]?.any fun t => t.pExpr.iColumn == idx.aiColumn[i] then j + 1 else j) := by
      rw [eqLoop]
      simp only [Option.bind_eq_bind, Option.bind_some, List.getElem?_eq_getElem hip, List.getElem?_eq_getElem hii]
    rw [hstep]
    split
    · next hne => exact .inl ⟨rfl, fun h => hne (List.cons.inj h).1⟩
    · next heq =>
      rw [not_not] at heq
      rcases ih (i := i + 1) (j := if terms[j]?.any fun t => t.pExpr.iColumn == idx.aiColumn[i] then j + 1 else j)
        (by omega) (by omega) with ⟨hloop, hne⟩ | ⟨j', hloop, hsame, hcols⟩
      · exact .inl ⟨hloop, fun h => hne (List.cons.inj h).2⟩
      · refine .inr ⟨j', hloop, by rw [heq, hsame], ?_⟩
        rw [hcols, columns_drop, skipFixed_cons]

/-- The loop over the terms, by how the columns behind and the terms begin. -/
theorem termLoop_spec {idx : Index} {terms : List OrderItem} {n : Nat} (hn : n ≤ idx.nColumn) :
    (termLoop idx terms n = some true ↔ columns terms <+: idx.aiColumn.drop n) ∧
      (termLoop idx terms n = none ↔ idx.aiColumn.drop n <+: columns terms ∧ idx.aiColumn.drop n ≠ columns terms) := by
  induction terms generalizing n with
  | nil =>
    refine ⟨⟨fun _ => List.nil_prefix, fun _ => rfl⟩, ⟨nofun, fun ⟨h, hne⟩ => ?_⟩⟩
    exact absurd (List.prefix_nil.1 h) hne
  | cons t terms ih =>
    by_cases hlt : n < idx.aiColumn.length
    · have hstep : termLoop idx (t :: terms) n =
          if t.pExpr.iColumn ≠ idx.aiColumn[n] then some false else termLoop idx terms (n + 1) := by
        rw [termLoop]
        simp only [Option.bind_eq_bind, Option.bind_some, List.getElem?_eq_getElem hlt]
      rw [hstep, List.drop_eq_getElem_cons hlt, columns, List.map_cons, List.cons_prefix_cons, List.cons_prefix_cons]
      obtain ⟨htrue, hnone⟩ := ih hlt
      split
      · next hne =>
        exact ⟨⟨nofun, fun h => absurd h.1 hne⟩, ⟨nofun, fun h => absurd h.1.1.symm hne⟩⟩
      · next heq =>
        rw [not_not] at heq
        rw [htrue, hnone, heq]
        refine ⟨⟨fun h => ⟨rfl, h⟩, And.right⟩, ⟨fun h => ⟨⟨rfl, h.1⟩, ?_⟩, fun h => ⟨h.1.2, ?_⟩⟩⟩
        · exact fun he => h.2 (List.cons.inj he).2
        · exact fun he => h.2 (congrArg (idx.aiColumn[n] :: ·) he)
    · have hend : n = idx.aiColumn.length := by unfold Index.nColumn at hn; omega
      have hstep : termLoop idx (t :: terms) n = none := by
        rw [termLoop, List.getElem?_eq_none (Nat.le_of_not_lt hlt)]
        rfl
      rw [hstep, hend, List.drop_length]
      simp [columns]

/-- The caller's promise: fixed columns are those of the preferred index. -/
def Fixed (preferred : Option Index) (numEqCol : Nat) : Prop :=
  numEqCol = 0 ∨ ∃ p, preferred = some p ∧ numEqCol ≤ p.nColumn

theorem tryIndex_spec {preferred : Option Index} {terms : List OrderItem} {numEqCol : Nat}
    (hfixed : Fixed preferred numEqCol) (idx : Index) :
    (tryIndex preferred terms numEqCol idx = some true ↔ Matches preferred terms numEqCol idx) ∧
      (tryIndex preferred terms numEqCol idx = none ↔ RunsOut preferred terms numEqCol idx) := by
  unfold tryIndex
  split
  · next hshort =>
    have hno : ¬ Candidate preferred terms numEqCol idx := fun h => by
      have hf := h.fixed
      have hl := h.long
      omega
    exact ⟨⟨nofun, fun h => absurd h.1 hno⟩, ⟨nofun, fun h => absurd h.1 hno⟩⟩
  · next hlong =>
    obtain ⟨hle, hlen⟩ : numEqCol ≤ idx.nColumn ∧ terms.length ≤ idx.nColumn := by omega
    -- the terms that the first loop leaves, when the fixed columns are the same
    have hloop : (eqLoop preferred idx terms numEqCol 0 0 = some none ∧ ¬ Candidate preferred terms numEqCol idx) ∨
        ∃ j, eqLoop preferred idx terms numEqCol 0 0 = some (some j) ∧ Candidate preferred terms numEqCol idx ∧
          columns (terms.drop j) = remaining terms numEqCol idx := by
      rcases hfixed with rfl | ⟨p, rfl, hp⟩
      · exact .inr ⟨0, rfl, ⟨hle, hlen, .inl rfl⟩, rfl⟩
      · have hspec := @eqLoop_spec p idx terms numEqCol 0 0 (by omega) (by omega)
        rcases hspec with ⟨hloop, hne⟩ | ⟨j, hloop, hsame, hcols⟩
        · refine .inl ⟨hloop, fun h => ?_⟩
          rcases h.same with rfl | ⟨q, hq, hsame⟩
          · exact hne (by rw [List.take_zero, List.take_zero])
          · obtain rfl := Option.some.inj hq
            exact hne hsame
        · exact .inr ⟨j, hloop, ⟨hle, hlen, .inr ⟨p, rfl, hsame⟩⟩, hcols⟩
    rcases hloop with ⟨hloop, hno⟩ | ⟨j, hloop, hcand, hcols⟩
    · simp only [hloop, Option.bind_eq_bind, Option.bind_some]
      exact ⟨⟨nofun, fun h => absurd h.1 hno⟩, ⟨nofun, fun h => absurd h.1 hno⟩⟩
    · simp only [hloop, Option.bind_eq_bind, Option.bind_some]
      obtain ⟨htrue, hnone⟩ := @termLoop_spec idx (terms.drop j) numEqCol hle
      rw [hcols] at htrue hnone
      rw [htrue, hnone]
      exact ⟨⟨fun h => ⟨hcand, h⟩, And.right⟩, ⟨fun h => ⟨hcand, h⟩, And.right⟩⟩

/-- An index is come to: no match before it is the preferred index. -/
def Visited (preferred : Option Index) (terms : List OrderItem) (numEqCol : Nat) (table : List Index) (idx : Index) : Prop :=
  ∃ before after, table = before ++ idx :: after ∧
    ∀ x ∈ before, isPreferred preferred x = true → ¬ Matches preferred terms numEqCol x

theorem visited_cons {preferred : Option Index} {terms : List OrderItem} {numEqCol : Nat} {x idx : Index}
    {table : List Index} : Visited preferred terms numEqCol (x :: table) idx ↔ idx = x ∨
      ((isPreferred preferred x = true → ¬ Matches preferred terms numEqCol x) ∧
        Visited preferred terms numEqCol table idx) := by
  constructor
  · rintro ⟨before, after, heq, hbefore⟩
    cases before with
    | nil => exact .inl (List.cons.inj heq).1.symm
    | cons y before =>
      obtain ⟨rfl, rfl⟩ := List.cons.inj heq
      exact .inr ⟨hbefore x List.mem_cons_self, before, after, rfl,
        fun z hz => hbefore z (List.mem_cons_of_mem _ hz)⟩
  · rintro (rfl | ⟨hx, before, after, rfl, hbefore⟩)
    · exact ⟨[], table, rfl, nofun⟩
    · exact ⟨x :: before, after, rfl, List.forall_mem_cons.2 ⟨hx, hbefore⟩⟩

theorem indexLoop_spec {preferred : Option Index} {terms : List OrderItem} {numEqCol : Nat}
    (hfixed : Fixed preferred numEqCol) (table : List Index) (found : Option Index) :
    (indexLoop preferred terms numEqCol found table = none ↔
        ∃ idx, Visited preferred terms numEqCol table idx ∧ RunsOut preferred terms numEqCol idx) ∧
      ∀ idx, indexLoop preferred terms numEqCol found table = some (some idx) →
        found = some idx ∨ (idx ∈ table ∧ Matches preferred terms numEqCol idx) := by
  induction table generalizing found with
  | nil =>
    refine ⟨⟨nofun, ?_⟩, fun idx h => .inl (Option.some.inj h)⟩
    rintro ⟨idx, ⟨before, after, heq, -⟩, -⟩
    exact absurd heq (by simp)
  | cons x table ih =>
    obtain ⟨hmatch, hout⟩ := @tryIndex_spec preferred terms numEqCol hfixed x
    -- where the loop goes on behind `x`, `x` does not run out and does not end it
    have hgo (found' : Option Index) (hx : tryIndex preferred terms numEqCol x ≠ none)
        (hend : isPreferred preferred x = true → ¬ Matches preferred terms numEqCol x) :
        (indexLoop preferred terms numEqCol found' table = none ↔
          ∃ idx, Visited preferred terms numEqCol (x :: table) idx ∧ RunsOut preferred terms numEqCol idx) := by
      rw [(ih found').1]
      refine exists_congr fun idx => and_congr_left fun hidx => ?_
      rw [visited_cons]
      refine ⟨fun h => .inr ⟨hend, h⟩, fun h => ?_⟩
      rcases h with rfl | h
      · exact absurd (hout.2 hidx) hx
      · exact h.2
    rw [indexLoop]
    cases htry : tryIndex preferred terms numEqCol x with
    | none =>
      exact ⟨⟨fun _ => ⟨x, visited_cons.2 (.inl rfl), hout.1 htry⟩, fun _ => rfl⟩, nofun⟩
    | some b =>
      have hne : tryIndex preferred terms numEqCol x ≠ none := by
        rw [htry]
        nofun
      simp only [Option.bind_eq_bind, Option.bind_some]
      cases b with
      | false =>
        have hno : ¬ Matches preferred terms numEqCol x := fun h => by
          rw [hmatch.2 h] at htry
          cases htry
        refine ⟨hgo found hne fun _ => hno, fun idx h => ?_⟩
        rcases (ih found).2 idx h with h | ⟨hmem, h⟩
        · exact .inl h
        · exact .inr ⟨List.mem_cons_of_mem _ hmem, h⟩
      | true =>
        have hx := hmatch.1 htry
        cases hpref : isPreferred preferred x with
        | true =>
          refine ⟨⟨nofun, fun ⟨idx, hvisited, hidx⟩ => ?_⟩, fun idx h => ?_⟩
          · rcases visited_cons.1 hvisited with rfl | ⟨hend, -⟩
            · exact absurd (hout.2 hidx) hne
            · exact absurd hx (hend hpref)
          · obtain rfl := Option.some.inj (Option.some.inj h)
            exact .inr ⟨List.mem_cons_self, hx⟩
        | false =>
          refine ⟨hgo (some x) hne fun h => by (rw [hpref] at h; cases h), fun idx h => ?_⟩
          rcases (ih (some x)).2 idx h with h | ⟨hmem, h⟩
          · obtain rfl := Option.some.inj h
            exact .inr ⟨List.mem_cons_self, hx⟩
          · exact .inr ⟨List.mem_cons_of_mem _ hmem, h⟩

/-! ## The order that a match delivers -/

theorem skipFixed_split (fixed cols : List Int) :
    ∃ skipped, cols = skipped ++ skipFixed fixed cols ∧ ∀ c ∈ skipped, c ∈ fixed := by
  induction fixed generalizing cols with
  | nil => exact ⟨[], rfl, nofun⟩
  | cons c fixed ih =>
    cases cols with
    | nil =>
      obtain ⟨skipped, heq, hmem⟩ := ih []
      exact ⟨skipped, heq, fun d hd => List.mem_cons_of_mem _ (hmem d hd)⟩
    | cons c' cols =>
      by_cases hc : c' = c
      · obtain ⟨skipped, heq, hmem⟩ := ih cols
        refine ⟨c' :: skipped, ?_, List.forall_mem_cons.2 ⟨hc ▸ List.mem_cons_self, fun d hd => List.mem_cons_of_mem _ (hmem d hd)⟩⟩
        rw [skipFixed, if_pos hc, List.cons_append, ← heq]
      · obtain ⟨skipped, heq, hmem⟩ := ih (c' :: cols)
        refine ⟨skipped, ?_, fun d hd => List.mem_cons_of_mem _ (hmem d hd)⟩
        rwa [skipFixed, if_neg hc]

/-- The rows of the index compare by the columns of the terms. -/
theorem sorted_columns {idx : Index} {terms : List OrderItem} {numEqCol : Nat} {o : RowOrder Row} {rows : List Row}
    (hstart : remaining terms numEqCol idx <+: idx.aiColumn.drop numEqCol)
    (hsorted : Sorted (idx.aiColumn.map (o.column soUnk)) rows)
    (htied : ∀ c ∈ idx.aiColumn.take numEqCol, ∀ r ∈ rows, ∀ r' ∈ rows, o.column soUnk c r r' = .eq) :
    Sorted ((columns terms).map (o.column soUnk)) rows := by
  obtain ⟨skipped, hcols, hskipped⟩ := skipFixed_split (idx.aiColumn.take numEqCol) (columns terms)
  obtain ⟨behind, hbehind⟩ := hstart
  refine List.Pairwise.imp_of_mem ?_ hsorted
  intro r r' hr hr' hle
  have htie : ∀ cs : List Int, (∀ c ∈ cs, c ∈ idx.aiColumn.take numEqCol) →
      ∀ k ∈ cs.map (o.column soUnk), k r r' = .eq := by
    intro cs hcs k hk
    obtain ⟨c, hc, rfl⟩ := List.mem_map.1 hk
    exact htied c (hcs c hc) r hr r' hr'
  rw [← List.take_append_drop numEqCol idx.aiColumn, List.map_append,
    byKeys_tied_append (htie _ fun _ h => h), ← hbehind, List.map_append] at hle
  rw [hcols, List.map_append, byKeys_tied_append (htie skipped hskipped)]
  exact byKeys_isLE_of_append hle

theorem usable_term {base : Int} {dir : Nat} {terms : List OrderItem} (h : usable base dir terms = true)
    (o : RowOrder Row) : ∀ t ∈ terms, t.dir = dir ∧
      ∀ a b, o.term base t a b = if dir = soDesc then o.column soUnk t.pExpr.iColumn b a
        else o.column soUnk t.pExpr.iColumn a b := by
  intro t ht
  have ht := List.all_eq_true.1 h t ht
  simp only [Bool.and_eq_true, beq_iff_eq] at ht
  obtain ⟨⟨⟨hdir, htype⟩, hop⟩, htable⟩ := ht
  refine ⟨hdir, fun a b => ?_⟩
  unfold RowOrder.term
  rw [if_pos (show t.pExpr.op = .column ∧ t.pExpr.iTable = base from ⟨hop, htable⟩), hdir, htype]
  dsimp only
  split
  · rw [← o.column_swap]
  · rfl

/-- An index that matches delivers the order. -/
theorem delivers_of_matches {base : Int} {dir : Nat} {terms : List OrderItem} {preferred : Option Index} {numEqCol : Nat}
    {idx : Index} (husable : usable base dir terms = true) (h : Matches preferred terms numEqCol idx) :
    Delivers base terms numEqCol idx (dir == soDesc) := by
  intro Row o rows hsorted htied
  have hcols := sorted_columns h.2 hsorted htied
  have hkeys (a b : Row) : byKeys (terms.map (o.term base)) a b =
      if dir = soDesc then byKeys ((columns terms).map (o.column soUnk)) b a
      else byKeys ((columns terms).map (o.column soUnk)) a b := by
    unfold columns
    rw [List.map_map]
    split
    · next hdesc =>
      refine byKeys_congr (List.forall₂_map_left_iff.2 (List.forall₂_map_right_iff.2 (List.forall₂_same.2 fun t ht => ?_)))
      rw [(usable_term husable o t ht).2, if_pos hdesc]
      rfl
    · next hasc =>
      refine byKeys_congr (List.forall₂_map_left_iff.2 (List.forall₂_map_right_iff.2 (List.forall₂_same.2 fun t ht => ?_)))
      rw [(usable_term husable o t ht).2, if_neg hasc]
      rfl
  by_cases hdesc : dir = soDesc
  · rw [hdesc, beq_self_eq_true, if_pos rfl]
    unfold Sorted
    rw [List.pairwise_reverse]
    refine hcols.imp fun {a b} hle => ?_
    rwa [hkeys, if_pos hdesc]
  · rw [beq_eq_false_iff_ne.2 hdesc]
    refine hcols.imp fun {a b} hle => ?_
    rwa [hkeys, if_neg hdesc]

/-- The search reads columns of indices only, and an index that it returns is one of the table's
that delivers the order. -/
def Sound (table : List Index) (base : Int) (orderby : List OrderItem) (preferred : Option Index) (numEqCol : Nat) : Prop :=
  ∃ r, findSortingIndex table base orderby preferred numEqCol = some r ∧
    ∀ idx rev, r = some (idx, rev) → idx ∈ table ∧ Delivers base orderby numEqCol idx rev

theorem findSortingIndex_iff {table : List Index} {base : Int} {first : OrderItem} {terms : List OrderItem}
    {preferred : Option Index} {numEqCol : Nat} (hfixed : Fixed preferred numEqCol) :
    Sound table base (first :: terms) preferred numEqCol ↔
      (usable base first.dir (first :: terms) = true → ∀ idx,
        Visited preferred (first :: terms) numEqCol table idx → ¬ RunsOut preferred (first :: terms) numEqCol idx) := by
  obtain ⟨hnone, hfound⟩ := @indexLoop_spec preferred (first :: terms) numEqCol hfixed table none
  have hfind : findSortingIndex table base (first :: terms) preferred numEqCol =
      if usable base first.dir (first :: terms) = true then
        (indexLoop preferred (first :: terms) numEqCol none table).map fun found =>
          found.map fun idx => (idx, first.dir == soDesc)
      else some none := rfl
  unfold Sound
  rw [hfind]
  by_cases husable : usable base first.dir (first :: terms) = true
  · rw [if_pos husable]
    cases hloop : indexLoop preferred (first :: terms) numEqCol none table with
    | none =>
      obtain ⟨idx, hvisited, hout⟩ := hnone.1 hloop
      constructor
      · rintro ⟨r, hr, -⟩
        cases hr
      · intro h
        exact absurd hout (h husable idx hvisited)
    | some found =>
      constructor
      · intro _ _ idx hvisited hout
        rw [hnone.2 ⟨idx, hvisited, hout⟩] at hloop
        cases hloop
      · refine fun _ => ⟨_, rfl, fun idx rev h => ?_⟩
        obtain ⟨idx', rfl, h⟩ := Option.map_eq_some_iff.1 h
        cases h
        rcases hfound idx hloop with h | ⟨hmem, hmatch⟩
        · cases h
        · exact ⟨hmem, delivers_of_matches husable hmatch⟩
  · rw [if_neg husable]
    exact ⟨fun _ h => absurd h husable, fun _ => ⟨none, rfl, nofun⟩⟩

/-- A column of the first table, as a term with ASC. -/
def columnTerm (iColumn : Int) : OrderItem := ⟨⟨.column, .num, false, none, 0, iColumn, 0⟩, 0⟩

/-- An index on the columns 0 and 1. -/
def twoColumns : Index := ⟨0, [0, 1]⟩

theorem findSortingIndex_iff_second :
    Fixed (some twoColumns) 1 ∧
      (Sound [twoColumns] 0 [columnTerm 1] (some twoColumns) 1 ↔
        (usable 0 (columnTerm 1).dir [columnTerm 1] = true → ∀ idx,
          Visited (some twoColumns) [columnTerm 1] 1 [twoColumns] idx →
            ¬ RunsOut (some twoColumns) [columnTerm 1] 1 idx)) :=
  have hfixed : Fixed (some twoColumns) 1 := .inr ⟨twoColumns, rfl, by decide⟩
  ⟨hfixed, findSortingIndex_iff hfixed⟩

/-- With the column 0 fixed, ORDER BY the columns 1 and 2 reads a third column of the index. -/
theorem findSortingIndex_overrun :
    ¬ ∀ (table : List Index) (base : Int) (first : OrderItem) (terms : List OrderItem) (preferred : Option Index)
      (numEqCol : Nat), Fixed preferred numEqCol → Sound table base (first :: terms) preferred numEqCol := by
  intro h
  obtain ⟨r, hr, -⟩ := h [twoColumns] 0 (columnTerm 1) [columnTerm 2] (some twoColumns) 1 (.inr ⟨twoColumns, rfl, by decide⟩)
  exact absurd hr (by rw [show findSortingIndex _ _ _ _ _ = none from rfl]; nofun)

end Dbsql.L5.SortingIndex
