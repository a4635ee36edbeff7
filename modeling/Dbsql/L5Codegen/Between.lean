import Dbsql.L5Codegen.ExprJump
/-!
# BETWEEN and the two comparisons (cg_expr.c:1478-1487, 1631-1641, 1736-1746)

`x BETWEEN a AND b` is compiled three times: to its value, and to a jump if it is true or if it is false.
Each time the operand `x` is coded once, and compared as a number with both bounds. A comparison
`x >= a` is one of texts if `__expr_type` says so.

A code gives a truth value when it leaves it on the stack, and jumps as it says (`Gives`).

Results:
* `gives`: what the code of an expression with a truth value gives.
* `between_gives_same_iff`: when BETWEEN gives what `x >= a AND x <= b` gives.
* `between_gives_same_of_num`: so it does where no comparison is one of texts.
-/
namespace Dbsql.L5
open Dbsql.Core Dbsql.L1 Dbsql.L3 Dbsql.L3.Stack

/-- `x >= a AND x <= b`. -/
def andForm (x lo hi : Expr) : Expr := .and (.compare .ge x lo) (.compare .le x hi)

section
variable {L : Type} (ar : Arith L) (env : Env) (g : Gen)

/-- The code of `e` at the address `a` leaves the truth value `t` on top of the stack, and the codes
that jump on `e` do so as `t` says; the stack is otherwise as it was. -/
structure Gives (e : Expr) (a : Nat) (st : List Val) (t : Option Bool) : Prop where
  value : Comes ar env (block a (exprCode g a e)) (a + exprLen g e, .ofTruth t :: st) (a, st)
  jump : ∀ neg dest p1, Labels neg g a dest p1 e →
    GoesOn ar env (exprIf neg g a dest p1 e) a dest (condJumps neg p1 t) st

variable {ar env g}

theorem gives {e : Expr} {a : Nat} {st : List Val} {t : Option Bool}
    (hj : IgnoreOutside g a (exprLen g e)) (hc : compiles g e = true)
    (hv : exprValue ar env g .code e = some (.ofTruth t)) : Gives ar env g e a st t where
  value := (comes_iff ar env hj hc).2 hv
  jump neg dest p1 hl := by
    have hgo : GoesOn ar env (exprIf neg g a dest p1 e) a dest (ifJumps ar neg p1 (.ofTruth t)) st :=
      goesOn_exprIf hl hc hv
    rwa [ifJumps_ofTruth] at hgo

/-- The code gives one truth value, which is the expression's. -/
theorem Gives.exprValue {e : Expr} {a : Nat} {st : List Val} {t : Option Bool}
    (h : Gives ar env g e a st t) (hj : IgnoreOutside g a (exprLen g e)) (hc : compiles g e = true) :
    exprValue ar env g .code e = some (.ofTruth t) :=
  (comes_iff ar env hj hc).1 h.value

theorem ofTruth_injective : Function.Injective Val.ofTruth := by
  intro t t' h
  have ht : (Val.ofTruth t).truth exactMachine = t := truth_ofTruth exactMachine t
  rw [h, truth_ofTruth] at ht
  exact ht.symm

/-! ## Both forms -/

variable {x lo hi : Expr} {vx va vb : Val}

theorem compiles_between (h : compiles g (andForm x lo hi) = true) :
    compiles g (.between x lo hi) = true := by
  simp only [andForm, compiles, Bool.and_eq_true] at h ⊢
  exact ⟨⟨h.1.1.2, h.1.2⟩, h.2.2⟩

/-- BETWEEN compares numbers. -/
theorem exprValue_between_code (hx : exprValue ar env g .code x = some vx)
    (ha : exprValue ar env g .code lo = some va) (hb : exprValue ar env g .code hi = some vb) :
    exprValue ar env g .code (.between x lo hi) =
      some (.ofTruth (and3 (compare3 ar false .ge vx va) (compare3 ar false .le vx vb))) := by
  rw [exprValue, hx, ha, hb]
  rfl

/-- The operators compare what `__expr_type` says. -/
theorem exprValue_andForm (hx : exprValue ar env g .code x = some vx)
    (ha : exprValue ar env g .code lo = some va) (hb : exprValue ar env g .code hi = some vb) :
    exprValue ar env g .code (andForm x lo hi) =
      some (.ofTruth (and3 (compare3 ar (isText .ge x lo) .ge vx va)
        (compare3 ar (isText .le x hi) .le vx vb))) := by
  have hge : exprValue ar env g .code (.compare .ge x lo) =
      some (.ofTruth (compare3 ar (isText .ge x lo) .ge vx va)) := by
    rw [exprValue, hx, ha]
    rfl
  have hle : exprValue ar env g .code (.compare .le x hi) =
      some (.ofTruth (compare3 ar (isText .le x hi) .le vx vb)) := by
    rw [exprValue, hx, hb]
    rfl
  rw [andForm, exprValue, hge, hle]
  simp only [Option.bind_eq_bind, Option.bind_some, truth_ofTruth]

end

/-- BETWEEN gives what the two comparisons give, just where the comparisons of the types that the
operators take come to what the comparisons of numbers come to. -/
theorem between_gives_same_iff {L : Type} (ar : Arith L) (env : Env) (g : Gen) (x lo hi : Expr) (a : Nat)
    (st : List Val) (vx va vb : Val) (hc : compiles g (andForm x lo hi) = true)
    (hj : IgnoreOutside g a (exprLen g (.between x lo hi)))
    (hj' : IgnoreOutside g a (exprLen g (andForm x lo hi)))
    (hx : exprValue ar env g .code x = some vx) (ha : exprValue ar env g .code lo = some va)
    (hb : exprValue ar env g .code hi = some vb) :
    (∃ t, Gives ar env g (.between x lo hi) a st t ∧ Gives ar env g (andForm x lo hi) a st t) ↔
      and3 (compare3 ar (isText .ge x lo) .ge vx va) (compare3 ar (isText .le x hi) .le vx vb) =
        and3 (compare3 ar false .ge vx va) (compare3 ar false .le vx vb) := by
  have hbet := exprValue_between_code hx ha hb
  have hand := exprValue_andForm hx ha hb
  have hc' := compiles_between hc
  constructor
  · intro h
    obtain ⟨t, hg, hg'⟩ := h
    have ht := ofTruth_injective (Option.some.inj ((hg.exprValue hj hc').symm.trans hbet))
    have ht' := ofTruth_injective (Option.some.inj ((hg'.exprValue hj' hc).symm.trans hand))
    exact ht'.symm.trans ht
  · intro h
    rw [h] at hand
    exact ⟨_, gives hj hc' hbet, gives hj' hc hand⟩

/-- `5 BETWEEN 1 AND 7`. -/
theorem between_gives_same_iff_five :
    ∃ t, Gives exactMachine emptyEnv ⟨false, none⟩
        (.between (.lit .integer (ascii "5")) (.lit .integer (ascii "1")) (.lit .integer (ascii "7"))) 0 [] t ∧
      Gives exactMachine emptyEnv ⟨false, none⟩
        (andForm (.lit .integer (ascii "5")) (.lit .integer (ascii "1")) (.lit .integer (ascii "7"))) 0 [] t :=
  (between_gives_same_iff exactMachine emptyEnv ⟨false, none⟩ _ _ _ 0 []
    (litVal .integer (ascii "5")) (litVal .integer (ascii "1")) (litVal .integer (ascii "7")) (by decide)
    (fun _ h => nomatch h) (fun _ h => nomatch h) rfl rfl rfl).2 (by decide)

/-- Where neither comparison is one of texts they agree. -/
theorem between_gives_same_of_num {L : Type} (ar : Arith L) (env : Env) (g : Gen) {x lo hi : Expr} {a : Nat}
    {st : List Val} {vx va vb : Val} (hc : compiles g (andForm x lo hi) = true)
    (hj : IgnoreOutside g a (exprLen g (.between x lo hi)))
    (hj' : IgnoreOutside g a (exprLen g (andForm x lo hi)))
    (hx : exprValue ar env g .code x = some vx) (ha : exprValue ar env g .code lo = some va)
    (hb : exprValue ar env g .code hi = some vb) (hlo : isText .ge x lo = false)
    (hhi : isText .le x hi = false) :
    ∃ t, Gives ar env g (.between x lo hi) a st t ∧ Gives ar env g (andForm x lo hi) a st t := by
  have hand := exprValue_andForm hx ha hb
  rw [hlo, hhi] at hand
  exact ⟨_, gives hj (compiles_between hc) (exprValue_between_code hx ha hb), gives hj' hc hand⟩

/-- `'9' BETWEEN '10' AND '95'` is false, and `'9' >= '10' AND '9' <= '95'` is true. -/
theorem between_gives_same_fails :
    ¬ ∃ t, Gives exactMachine emptyEnv ⟨false, none⟩
        (.between (.lit .string (ascii "'9'")) (.lit .string (ascii "'10'")) (.lit .string (ascii "'95'")))
        0 [] t ∧
      Gives exactMachine emptyEnv ⟨false, none⟩
        (andForm (.lit .string (ascii "'9'")) (.lit .string (ascii "'10'")) (.lit .string (ascii "'95'")))
        0 [] t := by
  intro h
  obtain ⟨t, hg, hg'⟩ := h
  have ht := hg.exprValue (fun _ h => nomatch h) (by decide)
  have ht' := hg'.exprValue (fun _ h => nomatch h) (by decide)
  have hsame := ht.trans ht'.symm
  exact absurd hsame (by decide +kernel)

end Dbsql.L5
