import Dbsql.L3Vdbe.SqlCompare
import Dbsql.L5Codegen.Expr
/-!
# The value of an expression

`exprValue` is the value of an expression under one of three readings (`Sem`). In SQL's, the
operators yield NULL for a NULL operand except where truth values decide (AND, OR, IS NULL,
CASE). Comparisons are those of the values (`sqlCompare`): `x BETWEEN a AND b` compares as
`x >= a AND x <= b` does, `CASE x WHEN w` as `x = w` does, and `x IN (a, …)` is
`x = a OR …`, so that a NULL on the right leaves it unknown unless another value is equal. An
expression that meets a RAISE, a function that fails, or a division that traps has no value.

In the code's, comparisons are those of the opcodes, BETWEEN and CASE always compare as
numbers, and IN looks for the text of `x`. An expression has no value either when it meets an
IN with a NULL on its left, or one of `NOT ~ & | << >>` that would write its result into an
integer literal. The third has a value when the two agree at every step.

Results:
* `exprValue_of_both`: a value of the third reading is the value of the others.
* `truth_exprValue_not`, `truth_exprValue_and`, `truth_exprValue_or`: the truth value of NOT,
  AND and OR is that of three-valued logic.
-/
namespace Dbsql.L5
open Dbsql.Core Dbsql.L1 Dbsql.L3 Dbsql.L3.Stack

/-- The value of a literal: an `int` keeps its text. -/
def litVal (op : Lit) (token : Bytes) : Val :=
  if op = .integer ∧ strIntIn32b token then
    .int (dbsqlAtoi token).1 (some (nulTerm (strUnquote token)))
  else .str (nulTerm (strUnquote token))

/-- The value of a number with a minus before it. -/
def negLitVal (op : Lit) (token : Bytes) : Val :=
  let z := 45 :: token
  if op = .integer ∧ strIntIn32b z then .int (dbsqlAtoi z).1 (some (nulTerm z)) else .str (nulTerm z)

section
variable {L : Type} (ar : Arith L) (env : Env) (g : Gen)

/-- The value of a column reference. -/
def columnVal (iTable : Nat) (iColumn : Int) (iAgg : Nat) : Val :=
  if g.useAgg then env.aggMem iAgg
  else if 0 ≤ iColumn then env.column iTable iColumn.toNat
  else env.recno iTable

/-- Whether the set or table of an IN holds the value. -/
def inHolds (pSelect : Bool) (iTable : Nat) (v : Val) : Bool :=
  if pSelect then env.found iTable v.text else env.aSet iTable v.text

/-- The right sides of the INs: of a list, or of the rows of a sub-select, the types and the
values. -/
abbrev RightSides := Bool → Nat → List (So × Val)

/-- SQL's value of `x IN (...)`, where `x` has the type `t`: whether `x = e` for one of the `e`. -/
def sqlIn (t : Option So) (x : Val) (es : List (So × Val)) : Option Bool :=
  es.foldr (fun e b => or3 (sqlCompare ar (orNum t (some e.1) = some .text) .eq x e.2) b) (some false)

/-- Which value of an expression is meant. -/
inductive Sem
  | sql (rhs : RightSides)
  | code
  | both (rhs : RightSides)

/-- Whether an opcode's assertion counts. -/
def Sem.strict : Sem → Bool
  | .sql _ => false
  | _ => true

/-- The right sides that SQL's value is about. -/
def Sem.rhs : Sem → RightSides
  | .sql rhs | .both rhs => rhs
  | .code => fun _ _ => []

/-- SQL's result, the code's, or the one of both. -/
def Sem.pick {α : Type} [DecidableEq α] (sem : Sem) (sql code : α) : Option α :=
  match sem with
  | .sql _ => some sql
  | .code => some code
  | .both _ => if sql = code then some sql else none

variable (sem : Sem)

/-- Whether a WHEN is taken: it is true, or equal to the operand. -/
def whenTaken (text : Bool) (operand : Option Val) (v : Val) : Option Bool :=
  match operand with
  | none => some (v.truth ar = some true)
  | some x => sem.pick (sqlCompare ar text .eq x v = some true) (compare3 ar false .eq v x = some true)

mutual
/-- The value of an expression. -/
def exprValue : Expr → Option Val
  | .column iTable iColumn iAgg _ => some (columnVal env g iTable iColumn iAgg)
  | .lit op token => some (litVal op token)
  | .null => some .null
  | .variable_ iTable => some (variableVal env iTable)
  | .aggFunction iAgg _ => some (env.aggMem iAgg)
  | .select iColumn _ => some (env.aMem iColumn)
  | .arith op left right => do
    let l ← exprValue left
    let r ← exprValue right
    opArith ar op l r
  | .bit .shiftLeft left right => do
    let r ← exprValue right
    let l ← exprValue left
    opBit ar sem.strict .shiftLeft r l
  | .bit .shiftRight left right => do
    let r ← exprValue right
    let l ← exprValue left
    opBit ar sem.strict .shiftRight r l
  | .bit op left right => do
    let l ← exprValue left
    let r ← exprValue right
    opBit ar sem.strict op l r
  | .and left right => do
    let l ← exprValue left
    let r ← exprValue right
    some (.ofTruth (and3 (l.truth ar) (r.truth ar)))
  | .or left right => do
    let l ← exprValue left
    let r ← exprValue right
    some (.ofTruth (or3 (l.truth ar) (r.truth ar)))
  | .concat left right => do
    let l ← exprValue left
    let r ← exprValue right
    some (opConcat l r)
  | .compare op left right => do
    let l ← exprValue left
    let r ← exprValue right
    let t ← sem.pick (sqlCompare ar (isText op left right) op l r) (compare3 ar (isText op left right) op l r)
    some (.ofTruth t)
  | .uminus (.lit .float token) => some (negLitVal .float token)
  | .uminus (.lit .integer token) => some (negLitVal .integer token)
  | .uminus left => (exprValue left).map (opNegative ar)
  | .bitNot left => (exprValue left).bind (opBitNot ar sem.strict)
  | .not left => (exprValue left).bind (opNot ar sem.strict)
  | .uplus left | .as_ left => exprValue left
  | .isNull left => (exprValue left).map fun v => .ofTruth (some v.isNull)
  | .notNull left => (exprValue left).map fun v => .ofTruth (some (!v.isNull))
  | .function fn list => do
    let vs ← exprsValue list
    env.xFunc fn.name (vs.map Val.arg)
  | .in_ left pSelect iTable => do
    let v ← exprValue left
    if v.isNull && sem.strict then none
    else
      let t ← sem.pick (sqlIn ar (exprType left) v (sem.rhs pSelect iTable)) (some (inHolds env pSelect iTable v))
      some (.ofTruth t)
  | .between left lo hi => do
    let x ← exprValue left
    let a ← exprValue lo
    let b ← exprValue hi
    let t ← sem.pick
      (and3 (sqlCompare ar (isText .ge left lo) .ge x a) (sqlCompare ar (isText .le left hi) .le x b))
      (and3 (compare3 ar false .ge x a) (compare3 ar false .le x b))
    some (.ofTruth t)
  | .case_ list => whensValue (fun _ => false) none list
  | .caseOf left list => do
    let x ← exprValue left
    whensValue (isText .eq left) (some x) list
  | .raise _ _ => none

def exprsValue : Exprs → Option (List Val)
  | .nil => some []
  | .cons e es => do
    let v ← exprValue e
    let vs ← exprsValue es
    some (v :: vs)

/-- The value of the first WHEN that is taken, or of the ELSE; `text` says which WHEN the
operand is compared with as a text. -/
def whensValue (text : Expr → Bool) (operand : Option Val) : Whens → Option Val
  | .noElse => some .null
  | .orElse right => exprValue right
  | .when e r rest => do
    let v ← exprValue e
    let taken ← whenTaken ar sem (text e) operand v
    if taken then exprValue r else whensValue text operand rest
end

end

/-! ## Minus -/

/-- A minus joins a number, or negates. -/
theorem number_or (left : Expr) :
    (∃ op token, op ≠ Lit.string ∧ left = .lit op token) ∨
      ∀ op token, left = .lit op token → op = .string := by
  cases left with
  | lit op token =>
    by_cases hop : op = .string
    · exact .inr fun _ _ h => by cases h; exact hop
    · exact .inl ⟨op, token, hop, rfl⟩
  | _ => exact .inr fun _ _ h => by cases h

section
variable {L : Type} {ar : Arith L} {env : Env} {g : Gen} {sem : Sem}

theorem exprValue_uminus_lit {op : Lit} {token : Bytes} (h : op ≠ .string) :
    exprValue ar env g sem (.uminus (.lit op token)) = some (negLitVal op token) := by
  cases op with
  | string => exact absurd rfl h
  | _ => rw [exprValue]

theorem exprValue_uminus {left : Expr} (h : ∀ op token, left = .lit op token → op = .string) :
    exprValue ar env g sem (.uminus left) =
      (exprValue ar env g sem left).map (opNegative ar) := by
  rw [exprValue]
  · exact fun token hl => by cases h _ _ hl
  · exact fun token hl => by cases h _ _ hl

end

/-! ## Where both agree -/

section
variable {L : Type} {ar : Arith L} {env : Env} {g : Gen} {rhs : RightSides} {sem : Sem}

theorem opNot_of_strict {asserted : Bool} {v w : Val} (h : opNot ar true v = some w) :
    opNot ar asserted v = some w := by
  unfold opNot at h ⊢
  split at h
  · rename_i hn
    rwa [if_pos hn]
  · rename_i hn
    split at h
    · cases h
    · rename_i ha
      rwa [if_neg hn, if_neg (by simp_all)]

theorem opBitNot_of_strict {asserted : Bool} {v w : Val} (h : opBitNot ar true v = some w) :
    opBitNot ar asserted v = some w := by
  unfold opBitNot at h ⊢
  split at h
  · rename_i hn
    rwa [if_pos hn]
  · rename_i hn
    split at h
    · cases h
    · rename_i ha
      rwa [if_neg hn, if_neg (by simp_all)]

theorem opBit_of_strict {asserted : Bool} {op : BitOp} {nos tos w : Val}
    (h : opBit ar true op nos tos = some w) : opBit ar asserted op nos tos = some w := by
  unfold opBit at h ⊢
  split at h
  · rename_i hn
    rwa [if_pos hn]
  · rename_i hn
    split at h
    · cases h
    · rename_i ha
      rwa [if_neg hn, if_neg (by simp_all)]

theorem Sem.pick_both {α : Type} [DecidableEq α] {sql code t : α}
    (h : (Sem.both rhs).pick sql code = some t) : sql = t ∧ code = t := by
  have hsame : sql = code ∧ sql = t := by simpa [Sem.pick] using h
  obtain ⟨rfl, rfl⟩ := hsame
  exact ⟨rfl, rfl⟩

theorem Sem.pick_of_both {α : Type} [DecidableEq α] {sql code t : α}
    (h : (Sem.both rhs).pick sql code = some t) : sem.pick sql code = some t := by
  obtain ⟨rfl, rfl⟩ := Sem.pick_both h
  cases sem with
  | both => exact if_pos rfl
  | _ => rfl

theorem whenTaken_of_both {text : Bool} {operand : Option Val} {v : Val} {taken : Bool}
    (h : whenTaken ar (.both rhs) text operand v = some taken) :
    whenTaken ar sem text operand v = some taken := by
  cases operand with
  | none => exact h
  | some x =>
    have hboth : (Sem.both rhs).pick (decide (sqlCompare ar text .eq x v = some true))
        (decide (compare3 ar false .eq v x = some true)) = some taken := h
    exact Sem.pick_of_both hboth

mutual
/-- **Where the readings agree at every step they have one value.** -/
theorem exprValue_of_both (hs : sem = .code ∨ sem = .sql rhs) :
    (e : Expr) → {v : Val} → exprValue ar env g (.both rhs) e = some v →
      exprValue ar env g sem e = some v
  | .column _ _ _ _, _, h | .lit _ _, _, h | .null, _, h | .variable_ _, _, h
  | .aggFunction _ _, _, h | .select _ _, _, h => by
    unfold exprValue at h ⊢
    exact h
  | .arith op left right, v, h | .concat left right, v, h | .and left right, v, h
  | .or left right, v, h => by
    unfold exprValue at h ⊢
    simp only [Option.bind_eq_bind, Option.bind_eq_some_iff] at h ⊢
    obtain ⟨x, hx, y, hy, h⟩ := h
    exact ⟨x, exprValue_of_both hs left hx, y, exprValue_of_both hs right hy, h⟩
  | .compare op left right, v, h => by
    unfold exprValue at h ⊢
    simp only [Option.bind_eq_bind, Option.bind_eq_some_iff] at h ⊢
    obtain ⟨x, hx, y, hy, t, ht, h⟩ := h
    exact ⟨x, exprValue_of_both hs left hx, y, exprValue_of_both hs right hy, t, Sem.pick_of_both ht, h⟩
  | .bit op left right, v, h => by
    cases op <;>
    · unfold exprValue at h ⊢
      simp only [Option.bind_eq_bind, Option.bind_eq_some_iff] at h ⊢
      obtain ⟨x, hx, y, hy, h⟩ := h
      refine ⟨x, exprValue_of_both hs _ hx, y, exprValue_of_both hs _ hy, opBit_of_strict h⟩
  | .uminus left, v, h => by
    rcases number_or left with ⟨op, token, hop, rfl⟩ | hl
    · rw [exprValue_uminus_lit hop] at h ⊢
      exact h
    · rw [exprValue_uminus hl, Option.map_eq_some_iff] at h ⊢
      obtain ⟨x, hx, h⟩ := h
      exact ⟨x, exprValue_of_both hs left hx, h⟩
  | .bitNot left, v, h => by
    unfold exprValue at h ⊢
    rw [Option.bind_eq_some_iff] at h ⊢
    obtain ⟨x, hx, h⟩ := h
    exact ⟨x, exprValue_of_both hs left hx, opBitNot_of_strict h⟩
  | .not left, v, h => by
    unfold exprValue at h ⊢
    rw [Option.bind_eq_some_iff] at h ⊢
    obtain ⟨x, hx, h⟩ := h
    exact ⟨x, exprValue_of_both hs left hx, opNot_of_strict h⟩
  | .uplus left, v, h | .as_ left, v, h => by
    unfold exprValue at h ⊢
    exact exprValue_of_both hs left h
  | .isNull left, v, h | .notNull left, v, h => by
    unfold exprValue at h ⊢
    rw [Option.map_eq_some_iff] at h ⊢
    obtain ⟨x, hx, h⟩ := h
    exact ⟨x, exprValue_of_both hs left hx, h⟩
  | .function fn list, v, h => by
    unfold exprValue at h ⊢
    simp only [Option.bind_eq_bind, Option.bind_eq_some_iff] at h ⊢
    obtain ⟨vs, hvs, h⟩ := h
    exact ⟨vs, exprsValue_of_both hs list hvs, h⟩
  | .in_ left pSelect iTable, v, h => by
    unfold exprValue at h ⊢
    simp only [Option.bind_eq_bind, Option.bind_eq_some_iff] at h ⊢
    obtain ⟨x, hx, h⟩ := h
    refine ⟨x, exprValue_of_both hs left hx, ?_⟩
    split at h
    · cases h
    · rename_i hn
      have hx' : x.isNull = false := by simpa [Sem.strict] using hn
      obtain ⟨t, ht, h⟩ := Option.bind_eq_some_iff.1 h
      rw [hx', Bool.false_and, if_neg Bool.false_ne_true]
      refine Option.bind_eq_some_iff.2 ⟨t, ?_, h⟩
      rcases hs with rfl | rfl
      · exact congrArg some (Sem.pick_both ht).2
      · exact Sem.pick_of_both ht
  | .between left lo hi, v, h => by
    unfold exprValue at h ⊢
    simp only [Option.bind_eq_bind, Option.bind_eq_some_iff] at h ⊢
    obtain ⟨x, hx, a, ha, b, hb, t, ht, h⟩ := h
    exact ⟨x, exprValue_of_both hs left hx, a, exprValue_of_both hs lo ha, b, exprValue_of_both hs hi hb, t,
      Sem.pick_of_both ht, h⟩
  | .case_ list, v, h => by
    unfold exprValue at h ⊢
    exact whensValue_of_both hs list h
  | .caseOf left list, v, h => by
    unfold exprValue at h ⊢
    simp only [Option.bind_eq_bind, Option.bind_eq_some_iff] at h ⊢
    obtain ⟨b, hb, h⟩ := h
    exact ⟨b, exprValue_of_both hs left hb, whensValue_of_both hs list h⟩
  | .raise _ _, v, h => by
    unfold exprValue at h
    cases h

theorem exprsValue_of_both (hs : sem = .code ∨ sem = .sql rhs) :
    (es : Exprs) → {vs : List Val} → exprsValue ar env g (.both rhs) es = some vs →
      exprsValue ar env g sem es = some vs
  | .nil, _, h => by
    unfold exprsValue at h ⊢
    exact h
  | .cons e es, vs, h => by
    unfold exprsValue at h ⊢
    simp only [Option.bind_eq_bind, Option.bind_eq_some_iff] at h ⊢
    obtain ⟨x, hx, xs, hxs, h⟩ := h
    exact ⟨x, exprValue_of_both hs e hx, xs, exprsValue_of_both hs es hxs, h⟩

theorem whensValue_of_both {text : Expr → Bool} {operand : Option Val} (hs : sem = .code ∨ sem = .sql rhs) :
    (w : Whens) → {v : Val} → whensValue ar env g (.both rhs) text operand w = some v →
      whensValue ar env g sem text operand w = some v
  | .noElse, _, h => by
    unfold whensValue at h ⊢
    exact h
  | .orElse right, v, h => by
    unfold whensValue at h ⊢
    exact exprValue_of_both hs right h
  | .when e r rest, v, h => by
    unfold whensValue at h ⊢
    simp only [Option.bind_eq_bind, Option.bind_eq_some_iff] at h ⊢
    obtain ⟨x, hx, taken, ht, h⟩ := h
    refine ⟨x, exprValue_of_both hs e hx, taken, whenTaken_of_both ht, ?_⟩
    cases taken with
    | true => exact exprValue_of_both hs r h
    | false => exact whensValue_of_both hs rest h
end

end

/-! ## Truth values -/

section
variable {L : Type} {ar : Arith L} {env : Env} {g : Gen} {sem : Sem}

/-- The truth value of NOT. -/
theorem truth_exprValue_not {e : Expr} {w : Val}
    (h : exprValue ar env g sem (.not e) = some w) :
    ∃ v, exprValue ar env g sem e = some v ∧ w.truth ar = not3 (v.truth ar) := by
  unfold exprValue at h
  obtain ⟨v, hv, h⟩ := Option.bind_eq_some_iff.1 h
  exact ⟨v, hv, truth_opNot ar h⟩

/-- The truth value of AND. -/
theorem truth_exprValue_and {left right : Expr} {w : Val}
    (h : exprValue ar env g sem (.and left right) = some w) :
    ∃ l r, exprValue ar env g sem left = some l ∧ exprValue ar env g sem right = some r ∧
      w.truth ar = and3 (l.truth ar) (r.truth ar) := by
  unfold exprValue at h
  simp only [Option.bind_eq_bind, Option.bind_eq_some_iff] at h
  obtain ⟨l, hl, r, hr, h⟩ := h
  cases h
  exact ⟨l, r, hl, hr, truth_ofTruth ar _⟩

/-- The truth value of OR. -/
theorem truth_exprValue_or {left right : Expr} {w : Val}
    (h : exprValue ar env g sem (.or left right) = some w) :
    ∃ l r, exprValue ar env g sem left = some l ∧ exprValue ar env g sem right = some r ∧
      w.truth ar = or3 (l.truth ar) (r.truth ar) := by
  unfold exprValue at h
  simp only [Option.bind_eq_bind, Option.bind_eq_some_iff] at h
  obtain ⟨l, hl, r, hr, h⟩ := h
  cases h
  exact ⟨l, r, hl, hr, truth_ofTruth ar _⟩

end
end Dbsql.L5
