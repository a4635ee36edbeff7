import Dbsql.L5Codegen.CountLevels
/-!
# The rows that a statement gives to the callback

UPDATE does not count in a trigger program (cg_update.c:457, 513), but INSERT and DELETE do, and give
their counts to the callback while the statement that fires the trigger is running. UPDATE and DELETE leave
the rowid of a row on the stack, above the counter, if it is a row of a view, if it has gone from the table
(UPDATE), or if `RAISE(IGNORE)` jumps from a BEFORE trigger; what is counted from there on is added to that
rowid. DELETE counts the rows that it lists, deleted or not.

Results:
* `delivered_length`: how many rows a run gives to the callback.
* `count_delivered`: there is one, with the right count, where no branch is taken that matters.
* `count_wrong`: two statements for which it is not so.
-/
namespace Dbsql.L5.CountRows
open Dbsql.Core.Jumps Dbsql.L1

variable {D : Type}

/-! ## The statement itself -/

section
variable {n m cnt : Nat} {c b a : VmCode D} {s t : Vm D} {J : Exit → Vm D → Prop}

theorem levels_codeRowTrigger (ts : List (Trigger D)) (nMem : Nat) :
    Levels (ignoreJump (codeRowTrigger true nMem ts)) :=
  levels_ignoreJump (keeps_codeRowTrigger ts nMem) (climbs_codeRowTrigger ts nMem)

/-- The rows given to the callback are those of statements of trigger programs. -/
def Silent (s : Vm D) : Prop := s.rows.length = s.taken.count .counted

theorem Silent.rows (h : Silent s) (hc : .counted ∉ s.taken) : s.rows = [] := by
  rw [Silent, List.count_eq_zero_of_not_mem hc] at h
  exact List.length_eq_zero_iff.1 h

/-- There is one row more. -/
def Told (s : Vm D) : Prop := s.rows.length = s.taken.count .counted + 1

/-- A program that ends with an error gives none besides. -/
def Fails (e : Exit) (s : Vm D) : Prop := (e = .halt ∨ e = .stuck ∧ .lost ∈ s.taken) ∧ Silent s

theorem Frame.silent (h : Frame false n s t) (ht : s.taken = []) (hr : s.rows = []) : Silent t := by
  have := h.delivered
  rw [ht, hr] at this
  simpa [Silent] using this

/-- The rest of a statement, with what the first part says of the stack and of the rows. -/
theorem triple_silent {P Q : Vm D → Prop} {d : VmCode D} {R : Vm D → Prop} (hk : Keeps (Frame false n) c)
    (hp : ∀ s, P s → s.taken = [] ∧ s.rows = [])
    (h : Triple P c Q (Exits (fun _ => False) (Raised false [] 0)))
    (hd : Triple (fun s => Q s ∧ Silent s) d R Fails) : Triple P (block [c, d]) R Fails := by
  refine Triple.cons (((h.and (hk.triple fun s t hst hs => hst.silent (hp s hs).1 (hp s hs).2)).imp
    (fun s hs => ⟨hs, hs⟩) (fun _ hs => hs) fun e s hs => ?_)) (hd.cons (triple_nil fun _ hs => hs))
  obtain ⟨he, hs⟩ := hs
  cases e with
  | cont => exact he.elim
  | ignore => cases he.1
  | halt => exact ⟨.inl rfl, hs⟩
  | stuck => exact ⟨.inr ⟨rfl, he⟩, hs⟩

theorem triple_callback {base : List CInt} :
    Triple (fun s => At (D := D) base [(m : CInt)] m s ∧ Silent s) (callback false)
    (fun s => Told s ∧ (s.taken = [] → s.rows = [(s.changed : CInt)])) J := by
  intro s hs
  obtain ⟨hs, hr⟩ := hs
  have hd := hs.depth
  cases hst : s.stack with
  | nil => simp [hst] at hd
  | cons tos st =>
    have hrun : callback false s = (none, { s with stack := st, rows := s.rows ++ [tos] }) := by
      simp [callback, withTop, hst]
    rw [hrun]
    refine ⟨?_, fun ht => ?_⟩
    · simpa [Told, Silent] using hr
    · obtain ⟨hst', hm⟩ := hs.still ht
      rw [hst, List.cons_append, List.cons.injEq] at hst'
      simp only [hr.rows (by simp [show s.taken = [] from ht]), List.nil_append, hst'.1, hm]

/-- The cell of the counter of an INSERT. -/
def Cell (cnt : Nat) (s : Vm D) : Prop := s.aMem cnt = (s.changed : CInt)

theorem triple_cell (h : Keeps (Frame true (cnt + 1)) c) : Triple (Cell cnt) c (Cell cnt) fun _ => Cell cnt :=
  h.triple fun s t hst hs => by rw [Cell, hst.aMem cnt (Nat.lt_succ_self cnt), hst.changed rfl, hs]

theorem Insert.triple_cell_row {q : Insert D} (hb : Keeps (Frame true (cnt + 1)) b)
    (ha : Keeps (Frame true (cnt + 1)) a) (row : List CInt) :
    Triple (Cell cnt) (q.row true false cnt b a row) (Cell cnt) fun _ => Cell cnt := by
  have hnew : Keeps (Frame true (cnt + 1)) (block [part false true (q.newRow · row), b]) :=
    (keeps_part _).cons (hb.cons keeps_nil)
  have hrows : Triple (Cell cnt) (noteRows (D := D) false 1) (fun s => s.aMem cnt + 1 = (s.changed : CInt))
      fun _ => Cell cnt := by
    intro s hs
    show s.aMem cnt + 1 = ((s.changed + 1 : Nat) : CInt)
    rw [show s.aMem cnt = (s.changed : CInt) from hs]
    exact (BitVec.ofNat_add s.changed 1).symm
  have hincr : Triple (fun s : Vm D => s.aMem cnt + 1 = (s.changed : CInt)) (onlyIf true (memIncr cnt)) (Cell cnt)
      fun _ => Cell cnt := fun s hs => (Function.update_self _ _ _).trans hs
  refine Triple.land (((triple_cell (keeps_push _)).cons <| (triple_cell (keeps_onlyIf fun _ => hnew)).cons <|
    (triple_cell (keeps_onlyIf fun _ => keeps_store _ _)).cons <| hrows.cons <| hincr.cons <|
    (triple_cell (keeps_onlyIf fun _ => ha)).cons (triple_nil fun _ hs => hs)).imp (fun _ hs => hs)
    (fun _ hs => hs) fun e s hs => ?_) (triple_cell (keeps_pop _))
  split <;> exact hs

theorem Insert.triple_cell_change {q : Insert D} (hb : Keeps (Frame true (cnt + 1)) b)
    (ha : Keeps (Frame true (cnt + 1)) a) :
    Triple (fun s => s.changed = 0) (q.change true false cnt b a) (Cell cnt) fun _ _ => True := by
  have hfront : Triple (fun s => s.changed = 0) (q.source.front false) (fun s => s.changed = 0)
      fun _ _ => True := by
    have hk : Keeps (Frame true 0) (q.source.front false) := q.source.keeps_front
    exact (hk.triple fun s t hst hs => (hst.changed rfl).trans hs).imp (fun _ hs => hs) (fun _ hs => hs)
      fun _ _ _ => trivial
  have hinit : Triple (fun s : Vm D => s.changed = 0) (onlyIf true (block [integer 0, memStore cnt])) (Cell cnt)
      fun _ _ => True := by
    intro s hs
    have h : Cell cnt { s with aMem := Function.update s.aMem cnt 0 } := by
      simp [Cell, hs]
    exact h
  have hloop : Triple (Cell cnt) (fun s => each Exit.goesOn (q.row true false cnt b a) (q.source.rows s.data) s)
      (Cell cnt) fun _ _ => True := by
    have hrow : ∀ row, Triple (Cell cnt) (q.row true false cnt b a row) (Cell cnt)
        fun e s => if e.goesOn then Cell cnt s else True := by
      refine fun row => (triple_cell_row hb ha row).imp (fun _ hs => hs) (fun _ hs => hs) fun e s hs => ?_
      split
      · exact hs
      · trivial
    exact fun s hs => triple_each hrow _ s hs
  have hrear : Triple (Cell cnt) (q.source.rear false) (Cell cnt) fun _ _ => True :=
    (triple_cell q.source.keeps_rear).imp (fun _ hs => hs) (fun _ hs => hs) fun _ _ _ => trivial
  exact hfront.cons <| hinit.cons <| hloop.cons <| hrear.cons (triple_nil fun _ hs => hs)

/-- Before the first opcode. -/
def Starts (s : Vm D) : Prop :=
  At [] [] 0 s ∧ s.changed = 0 ∧ s.pList = [] ∧ s.taken = [] ∧ s.rows = []

theorem Stmt.triple_insert (q : Insert D) (before after : List (Trigger D)) :
    Triple Starts ((Stmt.insert q before after).code true false 0)
      (fun s => Told s ∧ (.counted ∉ s.taken → s.rows = [(s.changed : CInt)])) Fails := by
  have hb := levels_codeRowTrigger before (0 + 1)
  have ha := levels_codeRowTrigger after (0 + 1 + triggersCells before)
  have hkb := keeps_ignoreJump (keeps_codeRowTrigger before (0 + 1))
  have hka := (keeps_ignoreJump (keeps_codeRowTrigger after (0 + 1 + triggersCells before))).mono
    fun _ _ h => h.mono (Nat.le_add_right (0 + 1) _)
  have hk : Keeps (Frame false 0) (q.change true false 0 (ignoreJump (codeRowTrigger true (0 + 1) before))
      (ignoreJump (codeRowTrigger true (0 + 1 + triggersCells before) after))) :=
    q.keeps_change (hkb.mono fun _ _ h => (h.mono (Nat.zero_le _)).top)
      (hka.mono fun _ _ h => (h.mono (Nat.zero_le _)).top) le_rfl nofun
  rw [Stmt.code]
  refine triple_silent (Q := Cell 0) hk (fun s hs => hs.2.2.2) ?_ fun s hs => ?_
  · exact ((q.triple_change hb ha 0).and (q.triple_cell_change hkb hka)).imp (fun s hs => ⟨hs.1, hs.2.1⟩)
      (fun s hs => hs.2) fun _ _ hs => hs.1
  · obtain ⟨hcell, hs⟩ := hs
    refine ⟨(List.length_append ..).trans (congrArg (· + 1) hs), fun hc => ?_⟩
    show s.rows ++ [s.aMem 0] = [(s.changed : CInt)]
    rw [hs.rows hc, hcell, List.nil_append]

theorem Stmt.triple_update (q : Update D) (before after : List (Trigger D)) :
    Triple Starts ((Stmt.update q before after).code true false 0)
      (fun s => Told s ∧ (s.taken = [] → s.rows = [(s.changed : CInt)])) Fails := by
  have hb := levels_codeRowTrigger before 0
  have ha := levels_codeRowTrigger after (0 + triggersCells before)
  have hk : Keeps (Frame false 0) (q.change true false (ignoreJump (codeRowTrigger true 0 before))
      (ignoreJump (codeRowTrigger true (0 + triggersCells before) after))) :=
    q.keeps_change ((keeps_ignoreJump (keeps_codeRowTrigger before 0)).mono fun _ _ h => h.top)
      ((keeps_ignoreJump (keeps_codeRowTrigger after _)).mono fun _ _ h => (h.mono (Nat.zero_le _)).top) nofun
  rw [Stmt.code]
  refine triple_silent hk (fun s hs => hs.2.2.2) ((q.triple_change hb ha fun _ => rfl).imp
    (fun s hs => ⟨[], hs.1⟩) (fun _ hs => hs) fun _ _ hs => hs) fun s hs => ?_
  obtain ⟨⟨base, -, m, hs⟩, hr⟩ := hs
  exact triple_callback s ⟨hs, hr⟩

theorem Stmt.triple_deleteFrom (q : Delete D) (before after : List (Trigger D)) :
    Triple Starts ((Stmt.deleteFrom q before after).code true false 0)
      (fun s => Told s ∧ (s.taken = [] → s.rows = [(s.changed : CInt)])) Fails := by
  have hb := levels_codeRowTrigger before 0
  have ha := levels_codeRowTrigger after (0 + triggersCells before)
  have hk : Keeps (Frame false 0) (q.change true false (ignoreJump (codeRowTrigger true 0 before))
      (ignoreJump (codeRowTrigger true (0 + triggersCells before) after))) :=
    q.keeps_change ((keeps_ignoreJump (keeps_codeRowTrigger before 0)).mono fun _ _ h => h.top)
      ((keeps_ignoreJump (keeps_codeRowTrigger after _)).mono fun _ _ h => (h.mono (Nat.zero_le _)).top) nofun
  rw [Stmt.code]
  refine triple_silent hk (fun s hs => hs.2.2.2) ((q.triple_change hb ha fun _ => rfl).imp
    (fun s hs => ⟨⟨[], hs.1⟩, fun _ => hs.2.2.1⟩) (fun _ hs => hs) fun _ _ hs => hs) fun s hs => ?_
  obtain ⟨⟨base, -, K, m, hs, hK⟩, hr⟩ := hs
  obtain rfl : K = m := hK rfl
  exact triple_callback s ⟨hs, hr⟩

end

/-- The count is the number of rows, if they are not too many. -/
theorem toInt_count {n : Nat} (h : n < 2147483648) : (n : CInt).toInt = n := by
  show (BitVec.ofNat 32 n).toInt = n
  rw [BitVec.toInt_ofNat', Int.bmod_def]
  split <;> omega

theorem Stmt.starts (d : D) : Starts (⟨[], fun _ => 0, [], [], [], d, 0, []⟩ : Vm D) :=
  ⟨⟨List.suffix_rfl, le_rfl, fun _ => ⟨rfl, rfl⟩⟩, rfl, rfl, rfl, rfl⟩

/-- What a statement comes to, as long as it takes none of the branches that matter to it. -/
theorem Stmt.triple_run (q : Stmt D) :
    Triple Starts (q.code true false 0)
      (fun s => Told s ∧ ((∀ ev ∈ s.taken, q.harms ev = false) → s.rows = [(s.changed : CInt)])) Fails := by
  cases q with
  | insert q before after =>
    refine (Stmt.triple_insert q before after).imp (fun _ hs => hs)
      (fun s hs => ⟨hs.1, fun h => hs.2 fun hc => ?_⟩) fun _ _ hs => hs
    simpa [Stmt.harms] using h _ hc
  | update q before after =>
    refine (Stmt.triple_update q before after).imp (fun _ hs => hs)
      (fun s hs => ⟨hs.1, fun h => hs.2 ?_⟩) fun _ _ hs => hs
    simpa [Stmt.harms, List.eq_nil_iff_forall_not_mem] using h
  | deleteFrom q before after =>
    refine (Stmt.triple_deleteFrom q before after).imp (fun _ hs => hs)
      (fun s hs => ⟨hs.1, fun h => hs.2 ?_⟩) fun _ _ hs => hs
    simpa [Stmt.harms, List.eq_nil_iff_forall_not_mem] using h

theorem Stmt.harms_counted (q : Stmt D) : q.harms .counted = true := by cases q <;> rfl

theorem Stmt.harms_lost (q : Stmt D) : q.harms .lost = true := by cases q <;> rfl

theorem Stmt.run_cases (q : Stmt D) (d : D) :
    ((q.run d).1 = none ∧ Told (q.run d).2 ∧
      ((∀ ev ∈ (q.run d).2.taken, q.harms ev = false) → (q.run d).2.rows = [((q.run d).2.changed : CInt)])) ∨
    ∃ e, (q.run d).1 = some e ∧ Fails e (q.run d).2 := by
  have hrun := q.triple_run _ (Stmt.starts d)
  change (q.run d).1.elim (Told (q.run d).2 ∧ _) (Fails · (q.run d).2) at hrun
  cases he : (q.run d).1 with
  | none =>
    rw [he] at hrun
    exact .inl ⟨rfl, hrun⟩
  | some e =>
    rw [he] at hrun
    exact .inr ⟨e, rfl, hrun⟩

/-- **How many rows there are**, in every run that comes to its end: one, and one more for each INSERT and
DELETE of a trigger program. -/
theorem delivered_length (q : Stmt D) (d : D) (h : (q.run d).1 = none) :
    (q.run d).2.rows.length = (q.run d).2.taken.count .counted + 1 := by
  obtain ⟨-, htold, -⟩ | ⟨e, he, -⟩ := q.run_cases d
  · exact htold
  · rw [he] at h
    cases h

/-- **One row, with the number of the rows**: a statement that takes none of the branches that matter
gives its count to the callback once, and the statements of its trigger programs give none. -/
theorem count_delivered (q : Stmt D) (d : D) (h : q.Meets d) : q.Delivers d := by
  have hnone : ∀ ev, q.harms ev = true → ev ∉ (q.run d).2.taken := by
    intro ev hev hmem
    simp [h.taken ev hmem] at hev
  obtain ⟨he, -, hrows⟩ | ⟨e, he, rfl | ⟨-, hlost⟩, hsilent⟩ := q.run_cases d
  · exact .inl ⟨he, _, hrows h.taken, toInt_count h.few⟩
  · exact .inr ⟨he, hsilent.rows (hnone _ q.harms_counted)⟩
  · exact absurd hlost (hnone _ q.harms_lost)

/-! ### Two tables -/

/-- Two tables, with a rowid and a column in each row; the second is written by triggers. -/
abbrev TwoTables := Bool → List (CInt × CInt)

/-- `INSERT INTO tab VALUES(0)`, with rowid 1. -/
def insertOne (tab triggers : Bool) : Insert TwoTables where
  view_p := false
  before_triggers_p := false
  row_triggers_p := triggers
  triggers := nofun
  source := .values
  newRow d _ := .done d []
  store d _ := .stored (Function.update d tab ((1, 0) :: d tab))

/-- `UPDATE OR REPLACE tab SET x = 5`; with `unique` there is an index on the column. -/
def updateAll (tab unique triggers : Bool) : Update TwoTables where
  is_view_p := false
  row_triggers_exist := triggers
  triggers := nofun
  view d := .done d []
  scan d := ⟨(d tab).map fun x => ([], x.1), .done d []⟩
  oldNew d _ := .done d []
  exists_ d r := (d tab).any (·.1 = r)
  store d r :=
    .stored (Function.update d tab ((r, 5) :: (d tab).filter fun x => x.1 ≠ r ∧ ¬ (unique ∧ x.2 = 5)))

/-- A trigger without WHEN whose program is one statement. -/
def firing (q : Stmt TwoTables) : Trigger TwoTables := .mk (fun d => .done d []) (fun _ => true) [.stmt q]

def insertLogged : Stmt TwoTables :=
  .insert (insertOne false true) [] [firing (.insert (insertOne true false) [] [])]

def updateLogged : Stmt TwoTables :=
  .update (updateAll false false true) [] [firing (.update (updateAll true false false) [] [])]

/-- An UPDATE of two rows, with a trigger that updates another table. -/
theorem count_delivered_two : updateLogged.Delivers fun tab => if tab then [(9, 0)] else [(1, 0), (7, 0)] :=
  count_delivered updateLogged _ ⟨by decide +kernel, by decide +kernel⟩

/-- An INSERT with a trigger that inserts into another table; and an UPDATE whose first row replaces the
second one, with the rowid 7, that is given to the callback. -/
theorem count_wrong :
    ((insertLogged.run fun _ => []).2.rows = [1, 1] ∧ ¬ insertLogged.Delivers fun _ => []) ∧
    ((Stmt.update (updateAll false true false) [] []).run fun _ => [(1, 0), (7, 5)]).2.rows = [7] ∧
      ¬ (Stmt.update (updateAll false true false) [] []).Delivers fun _ => [(1, 0), (7, 5)] := by
  have h₁ : (insertLogged.run fun _ => []).2.rows = [1, 1] := by decide +kernel
  have h₂ : ((Stmt.update (updateAll false true false) [] []).run fun _ => [(1, 0), (7, 5)]).2.rows = [7] := by
    decide +kernel
  have h₃ : ((Stmt.update (updateAll false true false) [] []).run fun _ => [(1, 0), (7, 5)]).2.changed = 1 := by
    decide +kernel
  refine ⟨⟨h₁, fun h => ?_⟩, h₂, fun h => ?_⟩
  · rcases h with ⟨-, n, hn, -⟩ | ⟨-, hn⟩
    · simp [h₁] at hn
    · simp [h₁] at hn
  · rcases h with ⟨-, n, hn, hc⟩ | ⟨-, hn⟩
    · rw [h₂, List.cons.injEq] at hn
      rw [h₃, ← hn.1] at hc
      exact absurd hc (by decide)
    · rw [h₂] at hn
      cases hn

end Dbsql.L5.CountRows
