import Dbsql.Core.Held
import Dbsql.L5Codegen.UpdateSet
/-!
# Cursor numbers of an UPDATE with row triggers (cg_update.c, cg_trigger.c, cg_expr.c)

Cursors are numbered by `parser->nTab`. An UPDATE takes a number for NEW, OLD, the table and each of
its indices, and then one for every `IN (SELECT …)` of its SET list, whose temporary table is built
before the loop over the rows and read in each round. The trigger programs are coded inside the
loop; each step starts at the counter and puts it back. Before the AFTER triggers the counter is set
back to the number of the table, which has been closed: what they open may be a temporary table.

Of a statement inside a SELECT, a step or a view only what it does to the counter matters: it takes
numbers, and opens the cursor or not, and sets the counter back to a value that it had since the
statement began (`cur` and `cur + 1` of an UPDATE and a DELETE, `nTab` of a trigger step).

In a run of the loop each round may end early: at a row that is gone, a conflict that is ignored, or
RAISE(IGNORE). What a trigger program opens is lost to the loop.

Results:
* `never_overwritten_iff`: in every run the loop uses only what it has opened itself, exactly if a
  view is updated or the AFTER triggers open the number of no temporary table.
-/
namespace Dbsql.L5.Cursors
open Dbsql.Core.Held (Ev Safe held mem_held mem_held_of_take not_mem_held not_mem_held_of_lose
  safe_append safe_of_held safe_of_no_use not_safe_of_use safe_rounds)
open Dbsql.L5.Rows (SetList)

/-! ## The counter -/

/-- What coding a statement does to `nTab`. -/
inductive CtrOp
  /-- `parser->nTab++` -/
  | alloc (opened : Bool)
  /-- `parser->nTab` is what it was, `k` above its value at the beginning -/
  | reset (k : Nat)
  deriving DecidableEq, Repr

/-- The numbers that are opened, and `nTab` afterwards. -/
def codeOps (start : Nat) : List CtrOp → Nat → List Nat × Nat
  | [], nTab => ([], nTab)
  | .alloc opened :: ops, nTab =>
    let r := codeOps start ops (nTab + 1)
    (if opened then nTab :: r.1 else r.1, r.2)
  | .reset k :: ops, _ => codeOps start ops (start + k)

/-- A statement that begins at `nTab`. -/
def codeStmt (ops : List CtrOp) (nTab : Nat) : List Nat × Nat := codeOps nTab ops nTab

/-- A sub-select of an expression. -/
inductive SubSelect
  /-- `expr IN (SELECT …)` -/
  | inTemp (ops : List CtrOp)
  /-- `(SELECT …)` -/
  | scalar (ops : List CtrOp)
  deriving DecidableEq, Repr

structure Resolved where
  /-- the temporary tables of the IN operators -/
  temps : List Nat
  /-- what their SELECTs open -/
  inner : List Nat
  nTab : Nat
  deriving DecidableEq, Repr

/-- `__expr_resolve_ids`, of an expression with these sub-selects (cg_expr.c:919-943, 986-997). -/
def resolveIds : List SubSelect → Nat → Resolved
  | [], nTab => ⟨[], [], nTab⟩
  | .inTemp ops :: rest, nTab =>
    let s := codeStmt ops (nTab + 1)
    let r := resolveIds rest s.2
    ⟨nTab :: r.temps, s.1 ++ r.inner, r.nTab⟩
  | .scalar ops :: rest, nTab =>
    let s := codeStmt ops nTab
    let r := resolveIds rest s.2
    ⟨r.temps, s.1 ++ r.inner, r.nTab⟩

/-- A trigger that fires: the sub-selects of its WHEN clause, and its steps. -/
structure RowTrigger where
  pWhen : List SubSelect
  step_list : List (List CtrOp)
  deriving DecidableEq, Repr

/-- `__code_trigger_program`: what the steps open. Each leaves `nTab` as it was. -/
def codeTriggerProgram (step_list : List (List CtrOp)) (nTab : Nat) : List Nat :=
  step_list.flatMap fun ops => (codeStmt ops nTab).1

/-- `__code_row_trigger`, of the triggers that fire. -/
def codeRowTrigger : List RowTrigger → Nat → List Nat × Nat
  | [], nTab => ([], nTab)
  | trigger :: rest, nTab =>
    let w := resolveIds trigger.pWhen nTab
    let r := codeRowTrigger rest w.nTab
    (w.temps ++ w.inner ++ codeTriggerProgram trigger.step_list w.nTab ++ r.1, r.2)

/-! ## The UPDATE -/

/-- An UPDATE with row triggers, as far as cursors go. -/
structure Update where
  /-- `parser->nTab` at its beginning -/
  nTab : Nat
  is_view_p : Bool
  /-- for each index of the table whether it is opened: `open_all_p || idx_used[i]` -/
  indices : List Bool
  /-- the sub-selects of each entry of the SET list -/
  changes : List (List SubSelect)
  /-- `xref[]` and `recno` -/
  set : SetList
  iPKey : Option Nat
  where_ : List SubSelect
  /-- the SELECT of the view -/
  view : List CtrOp
  /-- the indices that `__where_begin` uses -/
  scan : Nat
  /-- the triggers that fire -/
  before : List RowTrigger
  after : List RowTrigger

/-- The loop over the SET list: the temporary tables of each entry, and `nTab` afterwards. -/
def resolveChanges : List (List SubSelect) → Nat → List (List Nat) × Nat
  | [], nTab => ([], nTab)
  | e :: es, nTab =>
    let r := resolveIds e nTab
    let rs := resolveChanges es r.nTab
    (r.temps :: rs.1, rs.2)

namespace Update
variable (u : Update)

def new_idx : Nat := u.nTab
def old_idx : Nat := u.nTab + 1
def cur : Nat := u.nTab + 2

/-- The cursors of the indices that are opened: the `i`-th is `cur + i + 1`. -/
def idxCursors : List Nat :=
  (u.indices.zipIdx.filter (·.1)).map fun e => u.cur + e.2 + 1

/-- The temporary tables of each entry, and `nTab` after the SET list. -/
def changesTabs : List (List Nat) × Nat := resolveChanges u.changes (u.cur + 1 + u.indices.length)

/-- `nTab` where the BEFORE triggers are coded. -/
def beforeTab : Nat :=
  let n := (resolveIds u.where_ u.changesTabs.2).nTab
  (if u.is_view_p then (codeStmt u.view n).2 else n) + u.scan

def beforeCode : List Nat × Nat := codeRowTrigger u.before u.beforeTab

/-- `nTab` where the AFTER triggers are coded: `parser->nTab = cur` unless it is a view. -/
def afterTab : Nat := if u.is_view_p then u.beforeCode.2 else u.cur

def afterCode : List Nat × Nat := codeRowTrigger u.after u.afterTab

/-- The entries of the SET list that are coded in the loop. -/
def coded : List Nat :=
  u.set.recno.toList ++
    ((u.set.xref.zipIdx.filter fun e => u.iPKey ≠ some e.2).filterMap (·.1))

/-- The temporary tables that the loop reads. -/
def temps : List Nat := u.coded.flatMap fun i => u.changesTabs.1.getD i []

/-- Only if the target is no view. -/
def ofTable (es : List (Ev Nat)) : List (Ev Nat) := if u.is_view_p then [] else es

/-- What is opened before the loop: the temporary tables of the SET list, the view, OLD and NEW. -/
def prologue : List (Ev Nat) :=
  u.changesTabs.1.flatten.map .take ++
    ((if u.is_view_p then [.take u.cur] else []) ++ [.take u.old_idx, .take u.new_idx])

/-- From the top of the loop to the BEFORE triggers (cg_update.c:294-347). -/
def topOfRow : List (Ev Nat) :=
  u.ofTable [.take u.cur] ++ ([.use u.cur, .use u.old_idx] ++ u.temps.map .use ++
    [.use u.cur, .use u.new_idx])

/-- The row is written (cg_update.c:359-446). -/
def writeRow : List (Ev Nat) :=
  .take u.cur :: u.idxCursors.map .take ++ (u.temps.map .use ++ (.use u.cur :: u.idxCursors.map .use))

def closeRow : List (Ev Nat) := u.idxCursors.map .lose ++ [.lose u.cur]

/-- One round of the loop. -/
def row : List (Ev Nat) :=
  u.topOfRow ++ (u.ofTable [.lose u.cur] ++ (u.beforeCode.1.map .lose ++
    (u.ofTable (u.writeRow ++ u.closeRow) ++ u.afterCode.1.map .lose)))

/-- In every run the loop uses only cursors that it has opened and nobody has opened since. -/
def NeverOverwritten : Prop :=
  ∀ rounds : List Nat, Safe [] (u.prologue ++ rounds.flatMap fun k => u.row.take k)

end Update

/-! ## Numbers only go up -/

variable {ops : List CtrOp} {start n : Nat} {c : Nat}

theorem codeOps_ge (h : start ≤ n) :
    (∀ c ∈ (codeOps start ops n).1, start ≤ c) ∧ start ≤ (codeOps start ops n).2 := by
  induction ops generalizing n with
  | nil => exact ⟨nofun, h⟩
  | cons op ops ih =>
    cases op with
    | alloc opened =>
      obtain ⟨hc, hn⟩ := ih (n := n + 1) (by omega)
      refine ⟨fun c hm => ?_, hn⟩
      cases opened with
      | false => exact hc c hm
      | true =>
        rcases List.mem_cons.1 hm with rfl | hm
        · exact h
        · exact hc c hm
    | reset k => exact ih (n := start + k) (by omega)

theorem codeStmt_ge (ops : List CtrOp) (n : Nat) :
    (∀ c ∈ (codeStmt ops n).1, n ≤ c) ∧ n ≤ (codeStmt ops n).2 := codeOps_ge (Nat.le_refl n)

theorem resolveIds_ge : ∀ (es : List SubSelect) (n : Nat), n ≤ (resolveIds es n).nTab ∧
    (∀ c ∈ (resolveIds es n).temps, n ≤ c ∧ c < (resolveIds es n).nTab) ∧
    ∀ c ∈ (resolveIds es n).inner, n ≤ c
  | [], n => ⟨Nat.le_refl n, nofun, nofun⟩
  | .inTemp ops :: rest, n => by
    obtain ⟨hs, hn⟩ := codeStmt_ge ops (n + 1)
    obtain ⟨hr, ht, hi⟩ := resolveIds_ge rest (codeStmt ops (n + 1)).2
    refine ⟨?_, fun c hc => ?_, fun c hc => ?_⟩
    · show n ≤ (resolveIds rest _).nTab
      omega
    · show n ≤ c ∧ c < (resolveIds rest _).nTab
      rcases List.mem_cons.1 hc with rfl | hc
      · omega
      · have h := ht c hc
        omega
    · rcases List.mem_append.1 hc with hc | hc
      · have h := hs c hc
        omega
      · have h := hi c hc
        omega
  | .scalar ops :: rest, n => by
    obtain ⟨hs, hn⟩ := codeStmt_ge ops n
    obtain ⟨hr, ht, hi⟩ := resolveIds_ge rest (codeStmt ops n).2
    refine ⟨hn.trans hr, fun c hc => ?_, fun c hc => ?_⟩
    · exact ⟨hn.trans (ht c hc).1, (ht c hc).2⟩
    · rcases List.mem_append.1 hc with hc | hc
      · exact hs c hc
      · exact hn.trans (hi c hc)

theorem codeRowTrigger_ge : ∀ (ts : List RowTrigger) (n : Nat),
    (∀ c ∈ (codeRowTrigger ts n).1, n ≤ c) ∧ n ≤ (codeRowTrigger ts n).2
  | [], n => ⟨nofun, Nat.le_refl n⟩
  | t :: ts, n => by
    obtain ⟨hw, ht, hi⟩ := resolveIds_ge t.pWhen n
    obtain ⟨hr, hn⟩ := codeRowTrigger_ge ts (resolveIds t.pWhen n).nTab
    refine ⟨fun c hc => ?_, hw.trans hn⟩
    simp only [codeRowTrigger, List.mem_append] at hc
    rcases hc with ((hc | hc) | hc) | hc
    · exact (ht c hc).1
    · exact hi c hc
    · obtain ⟨ops, -, hc⟩ := List.mem_flatMap.1 hc
      exact hw.trans ((codeStmt_ge ops _).1 c hc)
    · exact hw.trans (hr c hc)

theorem resolveChanges_ge : ∀ (es : List (List SubSelect)) (n : Nat), n ≤ (resolveChanges es n).2 ∧
    ∀ ts ∈ (resolveChanges es n).1, ∀ c ∈ ts, n ≤ c ∧ c < (resolveChanges es n).2
  | [], n => ⟨Nat.le_refl n, nofun⟩
  | e :: es, n => by
    obtain ⟨hw, ht, -⟩ := resolveIds_ge e n
    obtain ⟨hr, hrest⟩ := resolveChanges_ge es (resolveIds e n).nTab
    refine ⟨hw.trans hr, fun ts hts c hc => ?_⟩
    rcases List.mem_cons.1 hts with rfl | hts
    · have h := ht c hc
      exact ⟨h.1, Nat.lt_of_lt_of_le h.2 hr⟩
    · have h := hrest ts hts c hc
      exact ⟨hw.trans h.1, h.2⟩

/-! ## The numbers of an UPDATE -/

namespace Update
variable {u : Update}

theorem changesTabs_ge : u.cur + 1 + u.indices.length ≤ u.changesTabs.2 ∧
    ∀ ts ∈ u.changesTabs.1, ∀ c ∈ ts, u.cur + 1 + u.indices.length ≤ c ∧ c < u.changesTabs.2 :=
  resolveChanges_ge u.changes _

theorem beforeTab_ge : u.changesTabs.2 ≤ u.beforeTab := by
  have hw := (resolveIds_ge u.where_ u.changesTabs.2).1
  have hv := (codeStmt_ge u.view (resolveIds u.where_ u.changesTabs.2).nTab).2
  unfold beforeTab
  split
  · exact (hw.trans hv).trans (Nat.le_add_right _ _)
  · exact hw.trans (Nat.le_add_right _ _)

theorem mem_temps (h : c ∈ u.temps) : ∃ ts ∈ u.changesTabs.1, c ∈ ts := by
  obtain ⟨i, -, hc⟩ := List.mem_flatMap.1 h
  rw [List.getD_eq_getElem?_getD] at hc
  cases hi : u.changesTabs.1[i]? with
  | none =>
    rw [hi] at hc
    cases hc
  | some ts =>
    rw [hi] at hc
    exact ⟨ts, List.mem_of_getElem? hi, hc⟩

/-- The temporary tables lie between the indices and what the BEFORE triggers open. -/
theorem temps_between (h : c ∈ u.temps) :
    u.cur + u.indices.length < c ∧ c < u.beforeTab := by
  obtain ⟨ts, hts, hc⟩ := mem_temps h
  obtain ⟨hlo, hhi⟩ := changesTabs_ge.2 ts hts c hc
  have hb : u.changesTabs.2 ≤ u.beforeTab := beforeTab_ge
  omega

theorem cur_lt_beforeTab : u.cur < u.beforeTab := by
  have h : u.cur + 1 + u.indices.length ≤ u.changesTabs.2 := changesTabs_ge.1
  have hb : u.changesTabs.2 ≤ u.beforeTab := beforeTab_ge
  omega

theorem idxCursors_between (h : c ∈ u.idxCursors) :
    u.cur < c ∧ c ≤ u.cur + u.indices.length := by
  obtain ⟨e, he, rfl⟩ := List.mem_map.1 h
  have hlt := (List.mem_zipIdx (List.mem_filter.1 he).1).2.1
  omega

/-- What the loop needs at the top of a round. -/
def kept (u : Update) : List Nat :=
  u.old_idx :: u.new_idx :: (if u.is_view_p then [u.cur] else []) ++ u.temps

theorem mem_ofTable {e : Ev Nat} {es : List (Ev Nat)} :
    e ∈ u.ofTable es ↔ u.is_view_p = false ∧ e ∈ es := by
  unfold ofTable
  cases u.is_view_p <;> simp

theorem mem_kept : c ∈ u.kept ↔
    c = u.old_idx ∨ c = u.new_idx ∨ (u.is_view_p = true ∧ c = u.cur) ∨ c ∈ u.temps := by
  unfold kept
  cases u.is_view_p <;> simp

/-- A round loses its table and the indices, and what the trigger programs open. -/
theorem lose_mem_row (h : Ev.lose c ∈ u.row) :
    (u.is_view_p = false ∧ u.cur ≤ c ∧ c ≤ u.cur + u.indices.length) ∨ u.beforeTab ≤ c ∨
      c ∈ u.afterCode.1 := by
  simp only [row, topOfRow, writeRow, closeRow, List.mem_append, mem_ofTable, List.mem_cons,
    List.mem_map, reduceCtorEq, and_false, false_or, or_false, exists_false, Ev.lose.injEq,
    exists_eq_right, List.not_mem_nil] at h
  rcases h with ⟨hv, rfl⟩ | h | ⟨hv, h | rfl⟩ | h
  · exact .inl ⟨hv, Nat.le_refl _, Nat.le_add_right _ _⟩
  · exact .inr (.inl ((codeRowTrigger_ge u.before u.beforeTab).1 c h))
  · exact .inl ⟨hv, (idxCursors_between h).1.le, (idxCursors_between h).2⟩
  · exact .inl ⟨hv, Nat.le_refl _, Nat.le_add_right _ _⟩
  · exact .inr (.inr h)

/-- What the loop needs lies outside of what it closes and of what the BEFORE triggers open. -/
theorem kept_not_lost (hafter : c ∉ u.afterCode.1) (h : c ∈ u.kept) : Ev.lose c ∉ u.row := by
  intro hl
  have hcur : u.cur < u.beforeTab := cur_lt_beforeTab
  have hold : u.old_idx + 1 = u.cur := rfl
  have hnew : u.new_idx + 2 = u.cur := rfl
  rcases lose_mem_row hl with ⟨hv, hlo, hhi⟩ | hb | ha
  · rcases mem_kept.1 h with rfl | rfl | ⟨hv', -⟩ | ht
    · omega
    · omega
    · rw [hv] at hv'
      cases hv'
    · have hbetween := temps_between ht
      omega
  · rcases mem_kept.1 h with rfl | rfl | ⟨-, rfl⟩ | ht
    · omega
    · omega
    · omega
    · have hbetween := temps_between ht
      omega
  · exact hafter ha

/-! ## Runs -/

variable {own : List Nat}

theorem safe_topOfRow (h : u.kept ⊆ own) : Safe own u.topOfRow := by
  refine safe_append.2 ⟨safe_of_no_use fun c hc => ?_, safe_of_held fun c hc => ⟨?_, ?_⟩⟩
  · simp [mem_ofTable] at hc
  · have hkept : ∀ d ∈ u.kept, d ∈ held own (u.ofTable [.take u.cur]) := fun d hd =>
      mem_held (h hd) (by simp [mem_ofTable])
    have hcur : u.cur ∈ held own (u.ofTable [.take u.cur]) := by
      cases hv : u.is_view_p with
      | true => exact hkept u.cur (mem_kept.2 (.inr (.inr (.inl ⟨hv, rfl⟩))))
      | false =>
        have htake : Ev.take u.cur ∈ u.ofTable [.take u.cur] :=
          mem_ofTable.2 ⟨hv, List.mem_singleton_self _⟩
        exact mem_held_of_take htake (by simp [mem_ofTable])
    simp only [List.mem_append, List.mem_cons, List.mem_map, Ev.use.injEq, exists_eq_right,
      List.not_mem_nil, or_false] at hc
    rcases hc with ((rfl | rfl) | ht) | rfl | rfl
    · exact hcur
    · exact hkept _ (mem_kept.2 (.inl rfl))
    · exact hkept c (mem_kept.2 (.inr (.inr (.inr ht))))
    · exact hcur
    · exact hkept _ (mem_kept.2 (.inr (.inl rfl)))
  · simp

/-- The table and its indices are opened here; the temporary tables are held. -/
theorem safe_writeRow (h : ∀ c ∈ u.temps, c ∈ own) : Safe own u.writeRow := by
  refine safe_append.2 ⟨safe_of_no_use fun c hc => ?_, safe_of_held fun c hc => ⟨?_, ?_⟩⟩
  · simp at hc
  · have htaken : Ev.lose c ∉ Ev.take u.cur :: u.idxCursors.map Ev.take := by simp
    simp only [List.mem_append, List.mem_cons, List.mem_map, Ev.use.injEq, exists_eq_right] at hc
    rcases hc with ht | rfl | hi
    · exact mem_held (h c ht) htaken
    · exact mem_held_of_take List.mem_cons_self htaken
    · exact mem_held_of_take (List.mem_cons_of_mem _ (List.mem_map_of_mem hi)) htaken
  · simp

theorem safe_ofTable {es : List (Ev Nat)} (h : Safe own es) : Safe own (u.ofTable es) := by
  unfold ofTable
  split
  · trivial
  · exact h

theorem safe_row (hafter : ∀ c ∈ u.kept, c ∉ u.afterCode.1) (h : u.kept ⊆ own) :
    Safe own u.row := by
  have hno : ∀ (own cs : List Nat), Safe own (cs.map Ev.lose) := fun own cs =>
    safe_of_no_use fun c hc => by simp at hc
  have hclose : ∀ own, Safe own (u.ofTable [Ev.lose u.cur]) := fun own =>
    safe_of_no_use fun c hc => by simp [mem_ofTable] at hc
  refine safe_append.2 ⟨safe_topOfRow h, safe_append.2 ⟨hclose _, safe_append.2 ⟨hno _ _, ?_⟩⟩⟩
  refine safe_append.2 ⟨safe_ofTable ?_, hno _ _⟩
  refine safe_append.2 ⟨safe_writeRow fun c hc => ?_, safe_append.2 ⟨hno _ _, trivial⟩⟩
  have hkept : c ∈ u.kept := mem_kept.2 (.inr (.inr (.inr hc)))
  have hl : Ev.lose c ∉ u.row := kept_not_lost (hafter c hkept) hkept
  simp only [row, List.mem_append, not_or] at hl
  exact mem_held (mem_held (mem_held (h hkept) hl.1) hl.2.1) hl.2.2.1

/-- Before the loop everything is opened that it needs. -/
theorem kept_subset_prologue : u.kept ⊆ held [] u.prologue := by
  intro c hc
  refine mem_held_of_take ?_ (by unfold prologue; split <;> simp)
  unfold prologue
  rcases mem_kept.1 hc with rfl | rfl | ⟨hv, rfl⟩ | ht
  · simp
  · simp
  · simp [hv]
  · obtain ⟨ts, hts, hct⟩ := mem_temps ht
    exact List.mem_append_left _ (List.mem_map_of_mem (List.mem_flatten.2 ⟨ts, hts, hct⟩))

theorem safe_prologue : Safe [] u.prologue := by
  refine safe_of_no_use fun c hc => ?_
  unfold prologue at hc
  split at hc <;> simp at hc

/-- A temporary table that an AFTER trigger has opened is used in the next round. -/
theorem not_safe_second_row {t : Nat} (ht : t ∈ u.temps) (hafter : t ∈ u.afterCode.1) :
    ¬ Safe own (u.row ++ u.row) := by
  intro hs
  have hcur := (temps_between ht).1
  have hrow := (safe_append.1 hs).2
  -- behind the AFTER triggers of the first row it is not held
  have hlost : t ∉ held own u.row := by
    have hsplit : ∃ xs, u.row = xs ++ u.afterCode.1.map Ev.lose := by
      refine ⟨u.topOfRow ++ (u.ofTable [.lose u.cur] ++ (u.beforeCode.1.map .lose ++
        u.ofTable (u.writeRow ++ u.closeRow))), ?_⟩
      simp [row]
    obtain ⟨xs, hxs⟩ := hsplit
    rw [hxs, held, List.foldl_append]
    exact not_mem_held_of_lose (List.mem_map_of_mem hafter) (by simp)
  -- and the second row begins with a use of it
  refine not_safe_of_use (c := t) ?_ hlost ?_ (safe_append.1 hrow).1
  · simp [topOfRow, ht]
  · simp [topOfRow, mem_ofTable]
    omega

/-- The numbers that the loop needs and the AFTER triggers open are those of temporary tables. -/
theorem kept_not_after (h : u.is_view_p = true ∨ ∀ t ∈ u.temps, t ∉ u.afterCode.1)
    (hc : c ∈ u.kept) : c ∉ u.afterCode.1 := by
  intro ha
  have hge := (codeRowTrigger_ge u.after u.afterTab).1 c ha
  have hcur : u.cur < u.beforeTab := cur_lt_beforeTab
  have hold : u.old_idx + 1 = u.cur := rfl
  have hnew : u.new_idx + 2 = u.cur := rfl
  have hbefore := (codeRowTrigger_ge u.before u.beforeTab).2
  cases hv : u.is_view_p with
  | true =>
    have htab : u.afterTab = u.beforeCode.2 := if_pos hv
    have hb : u.beforeTab ≤ u.afterTab := htab ▸ hbefore
    rcases mem_kept.1 hc with rfl | rfl | ⟨-, rfl⟩ | ht
    · omega
    · omega
    · omega
    · have hbetween := temps_between ht
      omega
  | false =>
    have htab : u.afterTab = u.cur := if_neg (by rw [hv]; exact Bool.false_ne_true)
    rcases mem_kept.1 hc with rfl | rfl | ⟨hv', -⟩ | ht
    · omega
    · omega
    · rw [hv] at hv'
      cases hv'
    · exact h.resolve_left (by rw [hv]; exact Bool.false_ne_true) c ht ha

end Update

/-- **Exactly a temporary table of the SET list can be overwritten.** -/
theorem never_overwritten_iff (u : Update) : u.NeverOverwritten ↔
    u.is_view_p = true ∨ ∀ t ∈ u.temps, t ∉ (codeRowTrigger u.after u.cur).1 := by
  constructor
  · intro h
    cases hv : u.is_view_p with
    | true => exact .inl rfl
    | false =>
      refine .inr fun t ht hafter => ?_
      have htab : u.afterTab = u.cur := if_neg (by rw [hv]; exact Bool.false_ne_true)
      have hrounds := (safe_append.1 (h [u.row.length, u.row.length])).2
      simp only [List.flatMap_cons, List.flatMap_nil, List.append_nil, List.take_length] at hrounds
      refine Update.not_safe_second_row ht ?_ hrounds
      unfold Update.afterCode
      rw [htab]
      exact hafter
  · intro h rounds
    have h' : u.is_view_p = true ∨ ∀ t ∈ u.temps, t ∉ u.afterCode.1 := by
      cases hv : u.is_view_p with
      | true => exact .inl rfl
      | false =>
        have htab : u.afterTab = u.cur := if_neg (by rw [hv]; exact Bool.false_ne_true)
        unfold Update.afterCode
        rw [htab]
        exact .inr (h.resolve_left (by rw [hv]; exact Bool.false_ne_true))
    refine safe_append.2 ⟨Update.safe_prologue, ?_⟩
    exact safe_rounds (P := u.kept)
      (fun c hc => Update.kept_not_lost (Update.kept_not_after h' hc) hc)
      (fun own => Update.safe_row fun c hc => Update.kept_not_after h' hc)
      Update.kept_subset_prologue rounds

/-- `UPDATE t SET a = a IN (SELECT b FROM u)` with an AFTER trigger that inserts into a table with
an index: 2 is `t`, 3 the temporary table, 4 `u`, and the trigger opens 2 and 3. -/
def inTempUpdate : Update where
  nTab := 0
  is_view_p := false
  indices := []
  changes := [[.inTemp [.alloc true]]]
  set := ⟨none, [some 0]⟩
  iPKey := none
  where_ := []
  view := []
  scan := 0
  before := []
  after := [⟨[], [[.alloc true, .alloc true]]⟩]

theorem inTempUpdate_overwritten : inTempUpdate.temps = [3] ∧
    inTempUpdate.afterCode.1 = [2, 3] ∧ ¬ inTempUpdate.NeverOverwritten :=
  ⟨by decide, by decide, fun h =>
    absurd (h [inTempUpdate.row.length, inTempUpdate.row.length]) (by decide)⟩

end Dbsql.L5.Cursors
