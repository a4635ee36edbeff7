import Dbsql.L5Codegen.RowDelete
/-!
# Checking a row (cg_insert.c:739-813)

The code of `__generate_constraint_checks` goes from the row on the stack to the row with its index
keys above it. It leaves in three ways: at its end, at the label of IGNORE, or at an `OP_Halt`.
Here its stack, and the NOT NULL tests.

Results:
* `notNullChecks_runs`: the NOT NULL tests fill in defaults, or leave.
-/
namespace Dbsql.L5.Rows
open Dbsql.Core Dbsql.L1 Dbsql.L2 Dbsql.L3 Dbsql.L3.Row

/-! ## The stack -/

/-- The row that is written: its rowid and the text the rowid may have, the rowid of the row
that it takes the place of, or else its own, and the stack below. -/
structure NewRow where
  new : CInt
  text : Option Bytes
  self : CInt
  st : List Val

/-- The stack with the index keys `keys`, its top first, over the columns. -/
def NewRow.stack (w : NewRow) (g : Args) (keys cols : List Val) : List Val :=
  keys ++ (cols.reverse ++ .int w.new w.text ::
    if g.twoRecnos = 1 then .int w.self none :: w.st else w.st)

section
variable {w : NewRow} {g : Args} {keys cols : List Val}

theorem twoRecnos_cases (g : Args) : g.twoRecnos = 0 ∨ g.twoRecnos = 1 := by
  unfold Args.twoRecnos
  split
  · exact .inr rfl
  · exact .inl rfl

theorem stack_col {i : Nat} (hi : i < cols.length) :
    (w.stack g keys cols)[keys.length + (cols.length - 1 - i)]? = some cols[i] := by
  rw [NewRow.stack, List.getElem?_append_right (by omega), Nat.add_sub_cancel_left,
    List.getElem?_append_left (by simp; omega), List.getElem?_reverse (by omega),
    List.getElem?_eq_getElem (by omega)]
  congr 2
  omega

theorem stack_set {i : Nat} (hi : i < cols.length) (v : Val) :
    (w.stack g [] cols).set (cols.length - 1 - i) v = w.stack g [] (cols.set i v) := by
  have hrev : cols.reverse.set (cols.length - 1 - i) v = (cols.set i v).reverse := by
    apply List.ext_getElem?
    intro j
    by_cases hj : j < cols.length
    · rw [List.getElem?_reverse (by simpa using hj), List.getElem?_set, List.getElem?_set,
        List.getElem?_reverse hj, List.length_set, List.length_reverse]
      by_cases hij : cols.length - 1 - i = j
      · rw [if_pos hij, if_pos (by omega), if_pos (by omega), if_pos hi]
      · rw [if_neg hij, if_neg (by omega)]
    · rw [List.getElem?_eq_none (by simp; omega), List.getElem?_eq_none (by simp; omega)]
  rw [NewRow.stack, NewRow.stack, List.nil_append, List.nil_append, List.set_append_left _ _
    (by simp; omega),
    hrev]

theorem stack_rowid : (w.stack g keys cols)[keys.length + cols.length]? =
    some (.int w.new w.text) := by
  rw [NewRow.stack, List.getElem?_append_right (by omega), Nat.add_sub_cancel_left,
    List.getElem?_append_right (by simp)]
  simp

theorem stack_self (h : g.twoRecnos = 0 → w.self = w.new) :
    ∃ x, (w.stack g keys cols)[keys.length + cols.length + g.twoRecnos]? = some (.int w.self x) := by
  rcases twoRecnos_cases g with h0 | h1
  · refine ⟨w.text, ?_⟩
    rw [h0, Nat.add_zero, stack_rowid, h h0]
  · refine ⟨none, ?_⟩
    rw [NewRow.stack, h1, List.getElem?_append_right (by omega),
      List.getElem?_append_right (by simp; omega)]
    simp [Nat.add_assoc]

theorem stack_drop : (w.stack g keys cols).drop (keys.length + cols.length + 1 + g.twoRecnos) =
    w.st := by
  rw [NewRow.stack, Nat.add_assoc keys.length, Nat.add_assoc keys.length, List.drop_length_add_append,
    Nat.add_assoc cols.length, ← List.length_reverse, List.drop_length_add_append]
  rcases twoRecnos_cases g with h | h <;> simp [h]

theorem stack_length :
    (w.stack g keys cols).length = keys.length + cols.length + 1 + g.twoRecnos + w.st.length := by
  rw [NewRow.stack]
  rcases twoRecnos_cases g with h | h <;> simp [h] <;> omega

end

/-! ## NOT NULL -/

/-- The columns after the NOT NULL test of the column `i`. -/
def fillOne (tab : Table) (g : Args) (i : Nat) (col : Column) (cols : List Val) : List Val :=
  if tab.iPKey = some i then cols
  else
    match col.notNull with
    | none => cols
    | some declared =>
      if notNullAction g col declared = .replace ∧ (cols.getD i .null).isNull then
        cols.set i (Stack.stringVal col.zDflt)
      else cols

/-- The columns after the NOT NULL tests, from the column `i` on. -/
def fillDefaults (tab : Table) (g : Args) : Nat → List Column → List Val → List Val
  | _, [], cols => cols
  | i, col :: rest, cols => fillDefaults tab g (i + 1) rest (fillOne tab g i col cols)

theorem fillOne_length (tab : Table) (g : Args) (i : Nat) (col : Column) (cols : List Val) :
    (fillOne tab g i col cols).length = cols.length := by
  unfold fillOne
  split
  · rfl
  · split
    · rfl
    · split
      · exact List.length_set
      · rfl

theorem fillDefaults_length (tab : Table) (g : Args) (rest : List Column) :
    ∀ (i : Nat) (cols : List Val),
    (fillDefaults tab g i rest cols).length = cols.length := by
  induction rest with
  | nil => exact fun _ _ => rfl
  | cons col rest ih => exact fun i cols => (ih (i + 1) _).trans (fillOne_length tab g i col cols)

/-- There is an `OP_Halt` at the address. -/
def HaltAt (prog : Nat → Option Op) (b : Nat) : Prop := ∃ oe msg, prog b = some (.halt .constraint oe msg)

section
variable {L : Type} {ar : Arith L} {en : Endian} {junk : Unset} {prog : Nat → Option Op}
variable {tab : Table} {g : Args} {w : NewRow} {Q : Nat × Vm → Prop}

theorem notNullCheck_runs {i a : Nat} {col : Column} {cols : List Val} {s : Vm}
    (hc : CodeAt prog a (notNullCheck tab g i col a)) (hi : i < tab.nCol)
      (hlen : cols.length = tab.nCol)
    (hst : s.stack = w.stack g [] cols)
    (hend : Ends (Row.exec ar en junk) prog Q (a + (notNullCheck tab g i col a).length,
      { s with stack := w.stack g [] (fillOne tab g i col cols) }))
    (hign : Ends (Row.exec ar en junk) prog Q (g.ignoreDest, { s with stack := w.st }))
    (hhalt : ∀ b st, HaltAt prog b → Q (b, { s with stack := st })) :
    Ends (Row.exec ar en junk) prog Q (a, s) := by
  rw [notNullCheck] at hc hend
  rw [fillOne] at hend
  by_cases hpk : tab.iPKey = some i
  · rw [if_pos hpk, if_pos hpk, ← hst] at hend
    exact hend
  rw [if_neg hpk] at hc hend
  rw [if_neg hpk] at hend
  cases hnn : col.notNull with
  | none =>
    simp only [hnn, ← hst] at hend
    exact hend
  | some declared =>
    simp only [hnn] at hc hend
    rw [List.length_append, ← Nat.add_assoc] at hend
    have hget : s.stack[tab.nCol - 1 - i]? = some cols[i] := by
      rw [hst, ← hlen]
      simpa using @stack_col w g [] cols i (by omega)
    refine Ends.op hc.left.head (exec_dup hget) (Ends.op hc.left.tail.head (exec_notNull rfl) ?_)
    have hbody := hc.after (b := a + 2) rfl
    cases hnull : (cols[i]).isNull with
    | false =>
      rw [if_neg (by simp)]
      rw [if_neg (by simp [hnull, show i < cols.length by omega]), ← hst] at hend
      exact hend
    | true =>
      rw [if_pos rfl]
      have hlt : i < cols.length := by omega
      unfold notNullConflict at hbody hend
      cases hact : notNullAction g col declared with
      | rollback | abort | fail =>
        simp only [hact] at hbody
        exact .here (hhalt _ _ ⟨_, _, hbody.head⟩)
      | ignore =>
        simp only [hact] at hbody
        have hpop : tab.nCol + 1 + g.twoRecnos ≤ s.stack.length := by
          rw [hst, stack_length]
          simp
          omega
        refine Ends.op hbody.head (exec_pop hpop) (Ends.op hbody.tail.head rfl ?_)
        have hdrop := @stack_drop w g [] cols
        rw [List.length_nil, Nat.zero_add, hlen, ← hst] at hdrop
        rw [← hdrop] at hign
        exact hign
      | replace =>
        simp only [hact] at hbody hend
        rw [if_pos ⟨trivial, by simpa [hlt] using hnull⟩] at hend
        have hpush : tab.nCol - i ≤ s.stack.length := by
          rw [hst, stack_length]
          simp
          omega
        refine Ends.op hbody.head rfl (Ends.op hbody.tail.head (exec_push rfl hpush) ?_)
        have hset : ((Stack.stringVal col.zDflt :: s.stack).set (tab.nCol - i)
          (Stack.stringVal col.zDflt)).tail =
            w.stack g [] (cols.set i (Stack.stringVal col.zDflt)) := by
          rw [show tab.nCol - i =
            cols.length - 1 - i + 1 by omega, List.set_cons_succ, List.tail_cons, hst,
            stack_set hlt]
        rw [hset]
        exact hend

/-- The NOT NULL tests fill in defaults, or leave. -/
theorem notNullChecks_runs : ∀ (rest : List Column) (i a : Nat) (cols : List Val) (s : Vm),
    tab.aCol.drop i = rest → CodeAt prog a (notNullChecks tab g i rest a) → cols.length = tab.nCol →
    s.stack = w.stack g [] cols →
    Ends (Row.exec ar en junk) prog Q (a + (notNullChecks tab g i rest a).length,
      { s with stack := w.stack g [] (fillDefaults tab g i rest cols) }) →
    Ends (Row.exec ar en junk) prog Q (g.ignoreDest, { s with stack := w.st }) →
    (∀ b st, HaltAt prog b → Q (b, { s with stack := st })) →
    Ends (Row.exec ar en junk) prog Q (a, s) := by
  intro rest
  induction rest with
  | nil =>
    intro i a cols s _ _ _ hst hend _ _
    rw [fillDefaults, ← hst] at hend
    exact hend
  | cons col rest ih =>
    intro i a cols s hl hc hlen hst hend hign hhalt
    have hlt : i < tab.nCol := by
      have h := congrArg List.length hl
      rw [List.length_drop, List.length_cons] at h
      unfold Table.nCol
      omega
    have hl' : tab.aCol.drop (i + 1) = rest := by
      rw [← List.drop_drop, hl]
      rfl
    rw [notNullChecks] at hc hend
    refine notNullCheck_runs hc.left hlt hlen hst ?_ hign hhalt
    refine ih (i + 1) _ _ _ hl' hc.right ((fillOne_length ..).trans hlen) rfl ?_ hign hhalt
    rw [List.length_append, ← Nat.add_assoc] at hend
    exact hend

end
end Dbsql.L5.Rows
