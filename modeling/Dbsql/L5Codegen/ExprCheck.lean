import Dbsql.Core.Lts
import Dbsql.L5Codegen.ExprTree
/-!
# Checking an expression (cg_expr.c)

`__expr_check` looks up the functions that an expression calls, reports the first that is unknown
or misused, and writes a data type to each call. The type of a call comes from the definition of
its function: a number, text, the type of one argument, or (`DBSQL_ARGS`) a number when some
argument is one.

For `DBSQL_ARGS` the type `DBSQL_SO_TEXT` is written to the definition and not to the expression.
The definition is shared by all statements of the handle, and the next check reads 2 there: the
type of the third argument.

Results:
* `exprCheck_spec`: a check changes the definitions just when it meets such a call.
* `checks_run_iff`: a run of checks leaves the definitions, and with them the type of every
  expression, just when none of its checks meets one.
-/
namespace Dbsql.L5.Tree
open Dbsql.Core Dbsql.L1 Dbsql.L3

/-! ## Functions -/

/-- `func_def_t`; `xFunc` and `xStep` say whether there is one. -/
structure FuncDef where
  nArg : Int
  dataType : Int
  xFunc : Bool
  xStep : Bool
  deriving DecidableEq, Repr

/-- `DBSQL_NUMERIC`; the other negative types but `DBSQL_ARGS` are text. -/
def dbsqlNumeric : Int := -1

/-- `DBSQL_ARGS`. -/
def dbsqlArgs : Int := -3

/-- `DBSQL_SO_TEXT`. -/
def dbsqlSoText : Int := 2

def FuncDef.valid (p : FuncDef) : Bool := p.xFunc || p.xStep

/-- `dbp->fns`: the chain of each name, folded. -/
abbrev Fns := Bytes → List FuncDef

/-- The second loop of `__find_function` and what follows it; `i` is the place of `p`. -/
def findLoop (nargs : Int) (i : Nat) (maybe : Option Nat) : List FuncDef → Option Nat
  | [] => maybe
  | p :: pNext =>
    if p.nArg = nargs then if p.valid then some i else none
    else findLoop nargs (i + 1) (if p.nArg < 0 ∧ p.valid then some i else maybe) pNext

/-- `__find_function` (cg_expr.c:1938-1978) without `create`: a place in the chain of the name. -/
def findFunction (fns : Fns) (name : Bytes) (nargs : Int) : Option Nat :=
  let first := fns (foldName name)
  if nargs < 0 then first.findIdx? FuncDef.valid
  else findLoop nargs 0 none first

/-- The definition at a place. -/
def funcAt (fns : Fns) (name : Bytes) (i : Nat) : FuncDef :=
  (fns (foldName name)).getD i ⟨0, 0, false, false⟩

/-- `def->dataType = dataType`. -/
def setDataType (fns : Fns) (name : Bytes) (i : Nat) (dataType : Int) : Fns :=
  Function.update fns (foldName name)
    ((fns (foldName name)).modify i fun p => { p with dataType := dataType })

/-! ## The check -/

/-- `parser_t`, with the functions of the handle and the cell of `agg`. -/
structure Parser where
  fns : Fns
  zErrMsg : Bytes
  nErr : Nat
  /-- none for a null pointer -/
  agg : Option Bool

def Parser.error (s : Parser) : Option Bytes → Parser
  | none => s
  | some zErrMsg => { s with zErrMsg := zErrMsg, nErr := s.nErr + 1 }

def Parser.setAgg (s : Parser) (isAgg : Bool) : Parser :=
  { s with agg := s.agg.map fun agg => agg || isAgg }

@[simp] theorem Parser.error_fns (s : Parser) (msg : Option Bytes) : (s.error msg).fns = s.fns := by
  cases msg <;> rfl

@[simp] theorem Parser.setAgg_fns (s : Parser) (isAgg : Bool) : (s.setAgg isAgg).fns = s.fns := rfl

/-- `__get_function_name` (cg_expr.c); none for a node that is no call. -/
def callName (d : Data) : Option Bytes :=
  match d.op with
  | .function => some (d.token.getD [])
  | .like => some (ascii "like")
  | .glob => some (ascii "glob")
  | _ => none

/-- `def`, `is_type_of`, `no_such_func` and `wrong_num_args`. -/
inductive Callee
  | def_ (i : Nat)
  | isTypeOf
  | noSuchFunc
  | wrongNumArgs
  deriving DecidableEq, Repr

def callee (fns : Fns) (name : Bytes) (n : Nat) : Callee :=
  match findFunction fns name n with
  | some i => .def_ i
  | none =>
    match findFunction fns name (-1) with
    | some _ => .wrongNumArgs
    | none => if n = 1 ∧ foldName name = ascii "typeof" then .isTypeOf else .noSuchFunc

/-- `is_agg`, before a misuse clears it. -/
def isAggregate (fns : Fns) (name : Bytes) : Callee → Bool
  | .def_ i => !(funcAt fns name i).xFunc
  | _ => false

/-- The error in a call. -/
def callError (aggAllowed : Bool) (fns : Fns) (name : Bytes) (c : Callee) : Option Bytes :=
  if isAggregate fns name c && !aggAllowed then
    some (ascii "misuse of aggregate function " ++ name ++ ascii "()")
  else
    match c with
    | .noSuchFunc => some (ascii "no such function: " ++ name)
    | .wrongNumArgs => some (ascii "wrong number of arguments to function " ++ name ++ ascii "()")
    | .def_ _ | .isTypeOf => none

/-- The loop over the arguments of a `DBSQL_ARGS` function. -/
def anyNum : Nodes → Option Bool
  | .null | .nil => some false
  | .cons e rest => (exprType e).bind fun t => if t = .num then some true else anyNum rest

/-- What a call becomes when its arguments are checked, and the definitions. -/
def callType (fns : Fns) (d : Data) (name : Bytes) (list : Nodes) : Callee → Option (Data × Fns)
  | .def_ i =>
    let t := (funcAt fns name i).dataType
    if 0 ≤ t then
      if t < list.nExpr then (exprType (list.get t.toNat)).map fun t => ({ d with dataType := t }, fns)
      else some ({ d with dataType := .num }, fns)
    else if t = dbsqlArgs then
      (anyNum list).map fun num =>
        (if num then { d with dataType := .num } else d, setDataType fns name i dbsqlSoText)
    else some ({ d with dataType := if t = dbsqlNumeric then .num else .text }, fns)
  | .isTypeOf =>
    (exprType (list.get 0)).map fun t =>
      ({ d with op := .lit .string, token := some (if t = .num then ascii "numeric" else ascii "text") }, fns)
  | .noSuchFunc | .wrongNumArgs => some (d, fns)

/-- A call, before its arguments are checked. -/
def Data.called (d : Data) (isAgg : Bool) : Data := if isAgg then { d with op := .aggFunction } else d

mutual
/-- `__expr_check` (cg_expr.c:1069-1202): the expression, whether there is an error, and the
parser; none where an assertion of `__expr_type` fails. -/
def exprCheck (aggAllowed : Bool) (s : Parser) : Node → Option (Node × Bool × Parser)
  | .null => some (.null, false, s)
  | .node d pLeft pRight pList pSelect =>
    match callName d with
    | some name =>
      let c := callee s.fns name pList.nExpr
      let msg := callError aggAllowed s.fns name c
      let isAgg := isAggregate s.fns name c && msg.isNone
      let s := (s.error msg).setAgg isAgg
      -- after an error the arguments are not looked at, but the call still gets its type
      (if msg.isSome then some (pList, true, s) else exprsCheck (aggAllowed && !isAgg) s pList).bind
        fun (list, nerr, s) =>
          (callType s.fns (d.called isAgg) name list c).map fun (d, fns) =>
            (.node d pLeft pRight list pSelect, nerr, { s with fns := fns })
    | none =>
      (exprCheck aggAllowed s pLeft).bind fun (l, nerr, s) =>
        (if nerr then some (pRight, true, s) else exprCheck aggAllowed s pRight).bind fun (r, nerr, s) =>
          (if nerr then some (pList, true, s) else exprsCheck aggAllowed s pList).map fun (list, nerr, s) =>
            (.node d l r list pSelect, nerr, s)

/-- The loop over a list, up to the first error. -/
def exprsCheck (aggAllowed : Bool) (s : Parser) : Nodes → Option (Nodes × Bool × Parser)
  | .null => some (.null, false, s)
  | .nil => some (.nil, false, s)
  | .cons e rest =>
    (exprCheck aggAllowed s e).bind fun (e, nerr, s) =>
      (if nerr then some (rest, true, s) else exprsCheck aggAllowed s rest).map fun (rest, nerr, s) =>
        (.cons e rest, nerr, s)
end

/-! ## Calls that change a definition -/

/-- Whether the type of a call is left to its arguments. -/
def argsTyped (fns : Fns) (name : Bytes) : Callee → Bool
  | .def_ i => (funcAt fns name i).dataType = dbsqlArgs
  | _ => false

mutual
/-- Whether an expression has a call that is in error. -/
def fails (fns : Fns) (aggAllowed : Bool) : Node → Bool
  | .null => false
  | .node d pLeft pRight pList _ =>
    match callName d with
    | some name =>
      let c := callee fns name pList.nExpr
      (callError aggAllowed fns name c).isSome ||
        failsList fns (aggAllowed && !isAggregate fns name c) pList
    | none => (fails fns aggAllowed pLeft || fails fns aggAllowed pRight) || failsList fns aggAllowed pList

def failsList (fns : Fns) (aggAllowed : Bool) : Nodes → Bool
  | .null | .nil => false
  | .cons e rest => fails fns aggAllowed e || failsList fns aggAllowed rest
end

mutual
/-- Whether an expression has a call of a `DBSQL_ARGS` function that no error stands before. -/
def meetsArgs (fns : Fns) (aggAllowed : Bool) : Node → Bool
  | .null => false
  | .node d pLeft pRight pList _ =>
    match callName d with
    | some name =>
      let c := callee fns name pList.nExpr
      argsTyped fns name c ||
        (!(callError aggAllowed fns name c).isSome &&
          meetsArgsList fns (aggAllowed && !isAggregate fns name c) pList)
    | none =>
      (meetsArgs fns aggAllowed pLeft || (!fails fns aggAllowed pLeft && meetsArgs fns aggAllowed pRight)) ||
        (!(fails fns aggAllowed pLeft || fails fns aggAllowed pRight) && meetsArgsList fns aggAllowed pList)

def meetsArgsList (fns : Fns) (aggAllowed : Bool) : Nodes → Bool
  | .null | .nil => false
  | .cons e rest =>
    meetsArgs fns aggAllowed e || (!fails fns aggAllowed e && meetsArgsList fns aggAllowed rest)
end

/-- Each definition of `fns'` is that of `fns`, or has lost its `DBSQL_ARGS`. -/
def Marked (fns fns' : Fns) : Prop :=
  ∀ (name : Bytes) (i : Nat), (fns' name)[i]? = (fns name)[i]? ∨
    ∃ p : FuncDef, (fns name)[i]? = some p ∧ p.dataType = dbsqlArgs ∧
      (fns' name)[i]? = some { p with dataType := dbsqlSoText }

theorem Marked.refl (fns : Fns) : Marked fns fns := fun _ _ => .inl rfl

theorem Marked.trans {fns fns' fns'' : Fns} (h : Marked fns fns') (h' : Marked fns' fns'') :
    Marked fns fns'' := by
  intro name i
  rcases h' name i with heq | ⟨p, hp, ht, hp'⟩
  · rw [heq]
    exact h name i
  · rcases h name i with heq | ⟨q, -, -, hq⟩
    · exact .inr ⟨p, heq ▸ hp, ht, hp'⟩
    · obtain rfl := Option.some.inj (hp.symm.trans hq)
      cases ht

/-- A definition that has lost its type does not get it back. -/
theorem Marked.antisymm {fns fns' : Fns} (h : Marked fns fns') (h' : Marked fns' fns) : fns' = fns := by
  funext name
  refine List.ext_getElem? fun i => ?_
  rcases h name i with heq | ⟨p, hp, ht, hp'⟩
  · exact heq
  · rcases h' name i with heq | ⟨q, hq, htq, -⟩
    · exact heq.symm
    · obtain rfl := Option.some.inj (hp'.symm.trans hq)
      cases htq

theorem Marked.ne_of_ne {fns fns₁ fns' : Fns} (h : Marked fns fns₁) (h' : Marked fns₁ fns') (hne : fns₁ ≠ fns) :
    fns' ≠ fns := by
  rintro rfl
  exact hne (h.antisymm h')

theorem setDataType_marked {fns : Fns} {name : Bytes} {i : Nat} (ht : (funcAt fns name i).dataType = dbsqlArgs) :
    Marked fns (setDataType fns name i dbsqlSoText) ∧ setDataType fns name i dbsqlSoText ≠ fns := by
  have hp : (fns (foldName name))[i]? = some (funcAt fns name i) := by
    unfold funcAt at ht ⊢
    rw [List.getD_eq_getElem?_getD] at ht ⊢
    cases h : (fns (foldName name))[i]? with
    | none =>
      rw [h] at ht
      cases ht
    | some p => rfl
  constructor
  · intro name' j
    unfold setDataType
    by_cases hname : name' = foldName name
    · subst hname
      rw [Function.update_self, List.getElem?_modify]
      by_cases hj : i = j
      · subst hj
        exact .inr ⟨_, hp, ht, by rw [hp]; simp⟩
      · left
        simp [hj]
    · rw [Function.update_of_ne hname]
      exact .inl rfl
  · intro heq
    have h := congrArg (·[i]?) (congrFun heq (foldName name))
    simp only [setDataType, Function.update_self, List.getElem?_modify, hp, if_pos] at h
    have := congrArg FuncDef.dataType (Option.some.inj h)
    rw [ht] at this
    cases this

/-! ## What a check does -/

/-- A part of a check that goes from `fns` to `fns'` and says `nerr`. -/
structure Spec (fns fns' : Fns) (meets err nerr : Bool) : Prop where
  marked : Marked fns fns'
  clear : meets = false → fns' = fns ∧ nerr = err
  met : meets = true → fns' ≠ fns

theorem Spec.done (fns : Fns) (nerr : Bool) : Spec fns fns false nerr nerr :=
  ⟨.refl fns, fun _ => ⟨rfl, rfl⟩, fun h => Bool.noConfusion h⟩

/-- One part after another, which is left out after an error. -/
theorem Spec.seq {fns fns₁ fns' : Fns} {m₁ f₁ n₁ n' : Bool} (h₁ : Spec fns fns₁ m₁ f₁ n₁) (m₂ f₂ : Fns → Bool)
    (herr : n₁ = true → n' = true ∧ fns' = fns₁)
    (hnext : n₁ = false → Spec fns₁ fns' (m₂ fns₁) (f₂ fns₁) n') :
    Spec fns fns' (m₁ || (!f₁ && m₂ fns)) (f₁ || f₂ fns) n' := by
  have hmarked : Marked fns₁ fns' := by
    cases n₁ with
    | true =>
      rw [(herr rfl).2]
      exact .refl fns₁
    | false => exact (hnext rfl).marked
  refine ⟨h₁.marked.trans hmarked, fun h => ?_, fun h => ?_⟩
  · obtain ⟨hm₁, hm₂⟩ := Bool.or_eq_false_iff.1 h
    obtain ⟨rfl, rfl⟩ := h₁.clear hm₁
    cases n₁ with
    | true =>
      obtain ⟨rfl, rfl⟩ := herr rfl
      exact ⟨rfl, rfl⟩
    | false => exact (hnext rfl).clear hm₂
  · cases hm₁ : m₁ with
    | true => exact h₁.marked.ne_of_ne hmarked (h₁.met hm₁)
    | false =>
      obtain ⟨rfl, rfl⟩ := h₁.clear hm₁
      rw [hm₁] at h
      cases n₁ with
      | true => cases h
      | false => exact (hnext rfl).met h

theorem callType_marked {fns fns' : Fns} {d d' : Data} {name : Bytes} {list : Nodes} {c : Callee}
    (h : callType fns d name list c = some (d', fns')) :
    Marked fns fns' ∧ if argsTyped fns name c then fns' ≠ fns else fns' = fns := by
  have hsame : argsTyped fns name c = false → fns' = fns →
      Marked fns fns' ∧ if argsTyped fns name c then fns' ≠ fns else fns' = fns := by
    rintro hc rfl
    rw [hc]
    exact ⟨.refl fns', rfl⟩
  cases c with
  | def_ i =>
    unfold callType at h
    dsimp only at h
    have hclear : (funcAt fns name i).dataType ≠ dbsqlArgs → argsTyped fns name (.def_ i) = false :=
      fun ht => decide_eq_false ht
    split at h
    · next ht =>
      have hne : (funcAt fns name i).dataType ≠ dbsqlArgs := fun heq => by
        rw [heq] at ht
        exact absurd ht (by decide)
      split at h
      · obtain ⟨t, -, ht⟩ := Option.map_eq_some_iff.1 h
        cases ht
        exact hsame (hclear hne) rfl
      · cases h
        exact hsame (hclear hne) rfl
    · split at h
      · next ht =>
        obtain ⟨num, -, hnum⟩ := Option.map_eq_some_iff.1 h
        cases hnum
        rw [show argsTyped fns name (.def_ i) = true from decide_eq_true ht]
        exact setDataType_marked ht
      · next ht =>
        cases h
        exact hsame (hclear ht) rfl
  | isTypeOf =>
    obtain ⟨t, -, ht⟩ := Option.map_eq_some_iff.1 h
    cases ht
    exact hsame rfl rfl
  | noSuchFunc | wrongNumArgs =>
    cases h
    exact hsame rfl rfl

/-- A call: its arguments, and then its type. -/
theorem Spec.call {fns fns₁ fns' : Fns} {m f n : Bool} {d d' : Data} {name : Bytes} {list : Nodes} {c : Callee}
    (h : Spec fns fns₁ m f n) (hcall : callType fns₁ d name list c = some (d', fns')) :
    Spec fns fns' (argsTyped fns name c || m) f n := by
  obtain ⟨hmarked, htyped⟩ := callType_marked hcall
  cases m with
  | true =>
    refine ⟨h.marked.trans hmarked, fun hm => ?_, fun _ => h.marked.ne_of_ne hmarked (h.met rfl)⟩
    rw [Bool.or_true] at hm
    cases hm
  | false =>
    obtain ⟨rfl, rfl⟩ := h.clear rfl
    rw [Bool.or_false]
    refine ⟨hmarked, fun hm => ?_, fun hm => ?_⟩
    · rw [hm] at htyped
      exact ⟨htyped, rfl⟩
    · rw [hm] at htyped
      exact htyped

mutual
/-- A check changes the definitions just when it meets a call of a `DBSQL_ARGS` function. -/
theorem exprCheck_spec (aggAllowed : Bool) (s s' : Parser) : (e e' : Node) → (nerr : Bool) →
    exprCheck aggAllowed s e = some (e', nerr, s') →
    Spec s.fns s'.fns (meetsArgs s.fns aggAllowed e) (fails s.fns aggAllowed e) nerr
  | .null, _, _, h => by
    cases h
    exact .done s.fns false
  | .node d pLeft pRight pList pSelect, e', nerr, h => by
    unfold exprCheck at h
    unfold fails
    unfold meetsArgs
    cases hname : callName d with
    | some name =>
      simp only [hname] at h ⊢
      obtain ⟨⟨list, nerr, s₁⟩, hargs, h⟩ := Option.bind_eq_some_iff.1 h
      obtain ⟨⟨d', fns'⟩, hcall, h⟩ := Option.map_eq_some_iff.1 h
      cases h
      refine Spec.call ?_ hcall
      cases hmsg : callError aggAllowed s.fns name (callee s.fns name pList.nExpr) with
      | some msg =>
        rw [hmsg] at hargs
        cases hargs
        exact .done s.fns true
      | none =>
        rw [hmsg] at hargs
        have hspec := exprsCheck_spec _ _ _ pList list nerr hargs
        rw [Option.isNone_none, Bool.and_true] at hspec
        exact hspec
    | none =>
      simp only [hname] at h ⊢
      obtain ⟨⟨l, nl, s₁⟩, hl, h⟩ := Option.bind_eq_some_iff.1 h
      obtain ⟨⟨r, nr, s₂⟩, hr, h⟩ := Option.bind_eq_some_iff.1 h
      obtain ⟨⟨list, n, s₃⟩, hlist, h⟩ := Option.map_eq_some_iff.1 h
      cases h
      have hleft := exprCheck_spec aggAllowed s s₁ pLeft l nl hl
      have hboth : Spec s.fns s₂.fns _ _ nr := hleft.seq (fun fns => meetsArgs fns aggAllowed pRight)
        (fun fns => fails fns aggAllowed pRight)
        (by rintro rfl; cases hr; exact ⟨rfl, rfl⟩)
        (by rintro rfl; exact exprCheck_spec aggAllowed s₁ s₂ pRight r nr hr)
      refine hboth.seq (fun fns => meetsArgsList fns aggAllowed pList)
        (fun fns => failsList fns aggAllowed pList) ?_ ?_
      · rintro rfl
        cases hlist
        exact ⟨rfl, rfl⟩
      · rintro rfl
        exact exprsCheck_spec aggAllowed s₂ s₃ pList list n hlist

theorem exprsCheck_spec (aggAllowed : Bool) (s s' : Parser) : (es es' : Nodes) → (nerr : Bool) →
    exprsCheck aggAllowed s es = some (es', nerr, s') →
    Spec s.fns s'.fns (meetsArgsList s.fns aggAllowed es) (failsList s.fns aggAllowed es) nerr
  | .null, _, _, h => by
    cases h
    exact .done s.fns false
  | .nil, _, _, h => by
    cases h
    exact .done s.fns false
  | .cons e rest, es', nerr, h => by
    unfold exprsCheck at h
    obtain ⟨⟨e', n₁, s₁⟩, he, h⟩ := Option.bind_eq_some_iff.1 h
    obtain ⟨⟨rest', n₂, s₂⟩, hrest, h⟩ := Option.map_eq_some_iff.1 h
    cases h
    unfold failsList
    unfold meetsArgsList
    refine (exprCheck_spec aggAllowed s s₁ e e' n₁ he).seq (fun fns => meetsArgsList fns aggAllowed rest)
      (fun fns => failsList fns aggAllowed rest) ?_ ?_
    · rintro rfl
      cases hrest
      exact ⟨rfl, rfl⟩
    · rintro rfl
      exact exprsCheck_spec aggAllowed s₁ s' rest rest' nerr hrest
end

/-! ## Types do not depend on the errors before -/

/-- What of a check does not concern the error message and the cell of `agg`. -/
def outcome {α : Type} (r : α × Bool × Parser) : α × Bool × Fns := (r.1, r.2.1, r.2.2.fns)

theorem outcome_bind {α β : Type} {x y : Option (α × Bool × Parser)} {f g : α × Bool × Parser → Option (β × Bool × Parser)}
    (h : x.map outcome = y.map outcome)
    (hf : ∀ a b, outcome a = outcome b → (f a).map outcome = (g b).map outcome) :
    (x.bind f).map outcome = (y.bind g).map outcome := by
  cases x with
  | none =>
    cases y with
    | none => rfl
    | some b => cases h
  | some a =>
    cases y with
    | none => cases h
    | some b => exact hf a b (Option.some.inj h)

theorem outcome_map {α β : Type} {x y : Option (α × Bool × Parser)} {f g : α × Bool × Parser → β × Bool × Parser}
    (h : x.map outcome = y.map outcome) (hf : ∀ a b, outcome a = outcome b → outcome (f a) = outcome (g b)) :
    (x.map f).map outcome = (y.map g).map outcome := by
  have h' := outcome_bind (f := some ∘ f) (g := some ∘ g) h fun a b hab => congrArg some (hf a b hab)
  rwa [← Option.map_eq_bind, ← Option.map_eq_bind] at h'

theorem outcome_eq {α : Type} {a a' : α} {n n' : Bool} {s t : Parser} (h : outcome (a, n, s) = outcome (a', n', t)) :
    a = a' ∧ n = n' ∧ s.fns = t.fns := by
  simpa [outcome] using h

/-- One part after another, on two parsers. -/
theorem outcome_seq {α : Type} {a : α} {n : Bool} {s t : Parser} {x y : Option (α × Bool × Parser)}
    (h : s.fns = t.fns) (hxy : x.map outcome = y.map outcome) :
    (if n then some (a, true, s) else x).map outcome = (if n then some (a, true, t) else y).map outcome := by
  cases n with
  | true => exact congrArg (fun fns => some (a, true, fns)) h
  | false => exact hxy

mutual
theorem exprCheck_congr (aggAllowed : Bool) : (e : Node) → ∀ s t : Parser, s.fns = t.fns →
    (exprCheck aggAllowed s e).map outcome = (exprCheck aggAllowed t e).map outcome
  | .null, s, t, h => congrArg (fun fns => some (Node.null, false, fns)) h
  | .node d pLeft pRight pList pSelect, s, t, h => by
    unfold exprCheck
    cases hname : callName d with
    | some name =>
      dsimp only
      rw [h]
      refine outcome_bind ?_ ?_
      · refine outcome_seq ?_ (exprsCheck_congr _ pList _ _ ?_)
        · rw [Parser.setAgg_fns, Parser.setAgg_fns, Parser.error_fns, Parser.error_fns, h]
        · rw [Parser.setAgg_fns, Parser.setAgg_fns, Parser.error_fns, Parser.error_fns, h]
      · rintro ⟨list, n, s₁⟩ ⟨list', n', t₁⟩ hout
        obtain ⟨rfl, rfl, hs⟩ := outcome_eq hout
        dsimp only
        rw [hs, Option.map_map, Option.map_map]
        rfl
    | none =>
      dsimp only
      refine outcome_bind (exprCheck_congr aggAllowed pLeft s t h) ?_
      rintro ⟨l, n, s₁⟩ ⟨l', n', t₁⟩ hout
      obtain ⟨rfl, rfl, hs⟩ := outcome_eq hout
      refine outcome_bind (outcome_seq hs (exprCheck_congr aggAllowed pRight s₁ t₁ hs)) ?_
      rintro ⟨r, n, s₂⟩ ⟨r', n', t₂⟩ hout
      obtain ⟨rfl, rfl, hs⟩ := outcome_eq hout
      refine outcome_map (outcome_seq hs (exprsCheck_congr aggAllowed pList s₂ t₂ hs)) ?_
      rintro ⟨list, n, s₃⟩ ⟨list', n', t₃⟩ hout
      obtain ⟨rfl, rfl, hs⟩ := outcome_eq hout
      exact congrArg (fun fns => (Node.node d l r list pSelect, n, fns)) hs

theorem exprsCheck_congr (aggAllowed : Bool) : (es : Nodes) → ∀ s t : Parser, s.fns = t.fns →
    (exprsCheck aggAllowed s es).map outcome = (exprsCheck aggAllowed t es).map outcome
  | .null, s, t, h => congrArg (fun fns => some (Nodes.null, false, fns)) h
  | .nil, s, t, h => congrArg (fun fns => some (Nodes.nil, false, fns)) h
  | .cons e rest, s, t, h => by
    unfold exprsCheck
    refine outcome_bind (exprCheck_congr aggAllowed e s t h) ?_
    rintro ⟨e', n, s₁⟩ ⟨e'', n', t₁⟩ hout
    obtain ⟨rfl, rfl, hs⟩ := outcome_eq hout
    refine outcome_map (outcome_seq hs (exprsCheck_congr aggAllowed rest s₁ t₁ hs)) ?_
    rintro ⟨rest', n, s₂⟩ ⟨rest'', n', t₂⟩ hout
    obtain ⟨rfl, rfl, hs⟩ := outcome_eq hout
    exact congrArg (fun fns => (Nodes.cons e' rest', n, fns)) hs
end

/-! ## Runs -/

/-- One call of `__expr_check`, but for the functions of the handle. -/
structure Check where
  expr : Node
  aggAllowed : Bool
  zErrMsg : Bytes
  nErr : Nat
  agg : Option Bool

def Check.run (c : Check) (fns : Fns) : Option (Node × Bool × Parser) :=
  exprCheck c.aggAllowed ⟨fns, c.zErrMsg, c.nErr, c.agg⟩ c.expr

/-- The data type of the expression when it is checked. -/
def Check.dataType (c : Check) (fns : Fns) : Option So := (c.run fns).bind fun r => exprType r.1

/-- The checks that the statements of one handle make, one after another. -/
def checks : LTS Fns Check where
  init _ := True
  step fns c fns' := ∃ e nerr s, c.run fns = some (e, nerr, s) ∧ s.fns = fns'

theorem checks_spec {fns fns' : Fns} {c : Check} (h : checks.step fns c fns') :
    Marked fns fns' ∧ (fns' = fns ↔ meetsArgs fns c.aggAllowed c.expr = false) := by
  obtain ⟨e, nerr, s, hrun, rfl⟩ := h
  have hspec := exprCheck_spec _ _ s c.expr e nerr hrun
  refine ⟨hspec.marked, fun heq => ?_, fun hm => (hspec.clear hm).1⟩
  rw [← Bool.not_eq_true]
  exact fun hm => hspec.met hm heq

theorem checks_marked {fns fns' : Fns} {cs : List Check} (h : checks.Run fns cs fns') : Marked fns fns' := by
  induction h with
  | nil fns => exact .refl fns
  | cons hstep _ ih => exact (checks_spec hstep).1.trans ih

theorem checks_same_iff {fns fns' : Fns} {cs : List Check} (h : checks.Run fns cs fns') :
    fns' = fns ↔ ∀ c ∈ cs, meetsArgs fns c.aggAllowed c.expr = false := by
  induction h with
  | nil fns => exact ⟨fun _ _ hc => (List.not_mem_nil hc).elim, fun _ => rfl⟩
  | @cons fns fns₁ fns' c cs hstep hrest ih =>
    obtain ⟨hmarked, hsame⟩ := checks_spec hstep
    rw [List.forall_mem_cons]
    constructor
    · rintro rfl
      -- the first check cannot have changed what the others would have to change back
      obtain rfl := (checks_marked hrest).antisymm hmarked
      exact ⟨hsame.1 rfl, ih.1 rfl⟩
    · rintro ⟨hc, hcs⟩
      obtain rfl := hsame.2 hc
      exact ih.2 hcs

/-- The checks leave the definitions, and every expression has the type it had before them. -/
def Unaffected (fns fns' : Fns) : Prop :=
  fns' = fns ∧ ∀ c c' : Check, c.expr = c'.expr → c.aggAllowed = c'.aggAllowed → c'.dataType fns' = c.dataType fns

theorem dataType_congr {c c' : Check} (fns : Fns) (he : c.expr = c'.expr) (ha : c.aggAllowed = c'.aggAllowed) :
    c'.dataType fns = c.dataType fns := by
  have h := exprCheck_congr c.aggAllowed c.expr ⟨fns, c.zErrMsg, c.nErr, c.agg⟩ ⟨fns, c'.zErrMsg, c'.nErr, c'.agg⟩ rfl
  have hfst : ∀ x : Option (Node × Bool × Parser), (x.bind fun r => exprType r.1) =
      (x.map outcome).bind fun r => exprType r.1 := fun x => by cases x <;> rfl
  unfold Check.dataType Check.run
  rw [hfst, hfst, ← he, ← ha, h]

theorem checks_run_iff {fns fns' : Fns} {cs : List Check} (h : checks.Run fns cs fns') :
    Unaffected fns fns' ↔ ∀ c ∈ cs, meetsArgs fns c.aggAllowed c.expr = false := by
  rw [← checks_same_iff h]
  constructor
  · exact And.left
  · rintro rfl
    exact ⟨rfl, fun c c' he ha => dataType_congr fns' he ha⟩

/-- `coalesce`, as `__register_builtin_funcs` leaves it, and `abs`. -/
def builtins : Fns := fun name =>
  if name = ascii "coalesce" then [⟨1, dbsqlArgs, false, false⟩, ⟨0, dbsqlArgs, false, false⟩, ⟨-1, dbsqlArgs, true, false⟩]
  else if name = ascii "abs" then [⟨1, dbsqlNumeric, true, false⟩]
  else []

/-- A node of the parser. -/
def token (op : Tk) (z : String) (list : Nodes) : Node :=
  .node ⟨op, .unk, false, some (ascii z), 0, 0, 0⟩ .null .null list .null

/-- `abs('a')`. -/
def absText : Check := ⟨token .function "abs" (.cons (token (.lit .string) "'a'" .null) .nil), false, [], 0, none⟩

/-- `coalesce('a', 'b')`. -/
def coalesceTexts : Check :=
  ⟨token .function "coalesce" (.cons (token (.lit .string) "'a'" .null) (.cons (token (.lit .string) "'b'" .null) .nil)),
    false, [], 0, none⟩

theorem checks_run_iff_abs :
    ∃ fns, checks.Run builtins [absText] fns ∧
      (Unaffected builtins fns ↔ ∀ c ∈ [absText], meetsArgs builtins c.aggAllowed c.expr = false) :=
  have hrun : checks.Run builtins [absText] builtins := .cons ⟨_, _, _, rfl, rfl⟩ (.nil _)
  ⟨builtins, hrun, checks_run_iff hrun⟩

/-- `coalesce('a', 'b')` is of no type when it is checked first, and a number when it is checked
again. -/
theorem checks_run_coalesce :
    ¬ ∀ (fns fns' : Fns) (cs : List Check), checks.Run fns cs fns' → Unaffected fns fns' := by
  intro h
  have hrun : checks.Run builtins [coalesceTexts] (setDataType builtins (ascii "coalesce") 2 dbsqlSoText) :=
    .cons ⟨_, _, _, rfl, rfl⟩ (.nil _)
  have htype := (h _ _ _ hrun).2 coalesceTexts coalesceTexts rfl rfl
  exact absurd htype (by decide)

end Dbsql.L5.Tree
