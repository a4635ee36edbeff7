import Dbsql.L2Storage.Hash
import Dbsql.L5Codegen.ExprValue
/-!
# Expression trees (cg_expr.c)

`expr_t` as the parser builds it: every node has all its fields, and a null pointer is a tree of
its own. `toExpr` is the expression that `__expr_code` reads from a tree: it looks at the fields
that the operator has, and at nothing else. At the place of a column in the aggregate it looks only
when `useAgg` is set. A function is found by its name without regard to case, so the name is folded.

Results:
* `exprType_toExpr`: `__expr_type` of a tree is the type of its expression.
-/
namespace Dbsql.L5.Tree
open Dbsql.L1 Dbsql.L3
open Dbsql.L2.HashTable (strUpperToLower)

/-- The `op` of an `expr_t`. -/
inductive Tk
  | column
  | lit (op : Lit)
  | null
  | variable_
  | function
  | like
  | glob
  | aggFunction
  | select
  | arith (op : ArithOp)
  | bit (op : BitOp)
  | and
  | or
  | concat
  | compare (op : Cmp)
  | uminus
  | bitNot
  | not
  | uplus
  | as_
  | isNull
  | notNull
  | in_
  | between
  | case_
  | raise
  | id
  | dot
  deriving DecidableEq, Repr

/-- The fields of an `expr_t` but for its subtrees. -/
structure Data where
  op : Tk
  dataType : So
  /-- `EP_FromJoin` -/
  fromJoin : Bool
  /-- `token.z`, up to `token.n` -/
  token : Option Bytes
  iTable : Int
  iColumn : Int
  iAgg : Nat
  deriving DecidableEq, Repr

mutual
/-- `expr_t *`. -/
inductive Node
  | null
  /-- `pSelect` is its result columns -/
  | node (d : Data) (pLeft pRight : Node) (pList pSelect : Nodes)

/-- `expr_list_t *`. -/
inductive Nodes
  | null
  | nil
  | cons (pExpr : Node) (rest : Nodes)
end

/-- `nExpr`. -/
def Nodes.nExpr : Nodes → Nat
  | .null | .nil => 0
  | .cons _ rest => rest.nExpr + 1

/-- `a[i].pExpr`. -/
def Nodes.get : Nodes → Nat → Node
  | .cons e _, 0 => e
  | .cons _ rest, i + 1 => rest.get i
  | _, _ => .null

/-! ## The expression of a tree -/

/-- A name without regard to case. -/
def foldName (z : Bytes) : Bytes := z.map strUpperToLower

/-- The ELSE of a CASE whose `pRight` is the expression `e`. -/
def orElseOf (pRight : Node) (e : Option Expr) : Option Whens :=
  match pRight with
  | .null => some .noElse
  | _ => e.map .orElse

section
variable (useAgg : Bool)

mutual
/-- The expression that a tree is; none for one that is not resolved, and for RAISE. -/
def toExpr : Node → Option Expr
  | .null => none
  | .node d pLeft pRight pList pSelect =>
    match d.op with
    | .column => some (.column d.iTable.toNat d.iColumn (if useAgg then d.iAgg else 0) d.dataType)
    | .lit op => d.token.map (.lit op)
    | .null => some .null
    | .variable_ => some (.variable_ d.iTable.toNat)
    | .function => d.token.bind fun name => (toExprs pList).map (.function (.function (foldName name) d.dataType))
    | .like => (toExprs pList).map (.function .like)
    | .glob => (toExprs pList).map (.function .glob)
    | .aggFunction => some (.aggFunction d.iAgg d.dataType)
    | .select =>
      match pSelect with
      | .cons first _ => (toExpr first).map (.select d.iColumn.toNat)
      | _ => none
    | .arith op => (toExpr pLeft).bind fun l => (toExpr pRight).map (.arith op l)
    | .bit op => (toExpr pLeft).bind fun l => (toExpr pRight).map (.bit op l)
    | .and => (toExpr pLeft).bind fun l => (toExpr pRight).map (.and l)
    | .or => (toExpr pLeft).bind fun l => (toExpr pRight).map (.or l)
    | .concat => (toExpr pLeft).bind fun l => (toExpr pRight).map (.concat l)
    | .compare op => (toExpr pLeft).bind fun l => (toExpr pRight).map (.compare op l)
    | .uminus => (toExpr pLeft).map .uminus
    | .bitNot => (toExpr pLeft).map .bitNot
    | .not => (toExpr pLeft).map .not
    | .uplus => (toExpr pLeft).map .uplus
    | .as_ => (toExpr pLeft).map .as_
    | .isNull => (toExpr pLeft).map .isNull
    | .notNull => (toExpr pLeft).map .notNull
    | .in_ =>
      (toExpr pLeft).map fun l =>
        .in_ l (match pSelect with
          | .null => false
          | _ => true) d.iTable.toNat
    | .between =>
      match pList with
      | .cons lo (.cons hi _) =>
        (toExpr pLeft).bind fun l => (toExpr lo).bind fun lo => (toExpr hi).map (.between l lo)
      | _ => none
    | .case_ =>
      let list := (orElseOf pRight (toExpr pRight)).bind fun w => toWhens w pList
      match pLeft with
      | .null => list.map .case_
      | _ => (toExpr pLeft).bind fun l => list.map (.caseOf l)
    | .raise | .id | .dot => none

def toExprs : Nodes → Option Exprs
  | .null | .nil => some .nil
  | .cons e rest => (toExpr e).bind fun e => (toExprs rest).map (.cons e)

/-- The WHEN and THEN of a list, and the ELSE behind them. -/
def toWhens (orElse : Whens) : Nodes → Option Whens
  | .cons e (.cons r rest) => (toExpr e).bind fun e => (toExpr r).bind fun r => (toWhens orElse rest).map (.when e r)
  | .cons _ _ => none
  | _ => some orElse
end

end

/-! ## Types -/

/-- The type of an ELSE whose `pRight` has the type `t`. -/
def elseTypeOf (pRight : Node) (t : Option So) : Option So :=
  match pRight with
  | .null => some .text
  | _ => t

mutual
/-- `__expr_type` (cg_expr.c:1212-1298) of a tree; none where its assertion fails. -/
def exprType : Node → Option So
  | .null => some .num
  | .node d pLeft pRight pList pSelect =>
    match d.op with
    | .lit .string | .null | .concat | .variable_ => some .text
    | .compare _ => orNum (exprType pLeft) (exprType pRight)
    | .as_ => exprType pLeft
    | .column | .function | .aggFunction => some d.dataType
    | .select =>
      match pSelect with
      | .cons first _ => exprType first
      | _ => none
    | .case_ => orNum (elseTypeOf pRight (exprType pRight)) (thenType pList)
    | .raise | .id | .dot => none
    | _ => some .num

/-- The loop over the THEN of a CASE. -/
def thenType : Nodes → Option So
  | .cons _ (.cons r rest) => orNum (exprType r) (thenType rest)
  | _ => some .text
end

theorem elseTypeOf_toExpr {useAgg : Bool} {pRight : Node} {w : Whens}
    (hr : ∀ e, toExpr useAgg pRight = some e → exprType pRight = L5.exprType e)
    (h : orElseOf pRight (toExpr useAgg pRight) = some w) :
    elseTypeOf pRight (exprType pRight) = elseType w ∧ L5.thenType w = some .text := by
  cases pRight with
  | null =>
    obtain rfl := Option.some.inj h
    exact ⟨rfl, rfl⟩
  | node d l r list sel =>
    obtain ⟨e, he, rfl⟩ := Option.map_eq_some_iff.1 h
    exact ⟨hr e he, rfl⟩

mutual
theorem exprType_toExpr {useAgg : Bool} : (n : Node) → ∀ e, toExpr useAgg n = some e → exprType n = L5.exprType e
  | .null, e, h => by cases h
  | .node d pLeft pRight pList pSelect, e, h => by
    have hl := @exprType_toExpr useAgg pLeft
    have hr := @exprType_toExpr useAgg pRight
    unfold toExpr at h
    unfold exprType
    cases hop : d.op with
    | column | null | variable_ | aggFunction =>
      rw [hop] at h
      cases h
      rfl
    | lit op =>
      rw [hop] at h
      obtain ⟨token, -, rfl⟩ := Option.map_eq_some_iff.1 h
      cases op <;> rfl
    | function =>
      rw [hop] at h
      obtain ⟨name, -, h⟩ := Option.bind_eq_some_iff.1 h
      obtain ⟨args, -, rfl⟩ := Option.map_eq_some_iff.1 h
      rfl
    | like | glob | uminus | bitNot | not | uplus | isNull | notNull | in_ =>
      rw [hop] at h
      obtain ⟨x, -, rfl⟩ := Option.map_eq_some_iff.1 h
      rfl
    | arith _ | bit _ | and | or | concat =>
      rw [hop] at h
      obtain ⟨l, -, h⟩ := Option.bind_eq_some_iff.1 h
      obtain ⟨r, -, rfl⟩ := Option.map_eq_some_iff.1 h
      rfl
    | compare op =>
      rw [hop] at h
      obtain ⟨l, hle, h⟩ := Option.bind_eq_some_iff.1 h
      obtain ⟨r, hre, rfl⟩ := Option.map_eq_some_iff.1 h
      exact congrArg₂ orNum (hl l hle) (hr r hre)
    | as_ =>
      rw [hop] at h
      obtain ⟨l, hle, rfl⟩ := Option.map_eq_some_iff.1 h
      exact hl l hle
    | select =>
      rw [hop] at h
      match pSelect, h with
      | .cons first _, h =>
        obtain ⟨x, hx, rfl⟩ := Option.map_eq_some_iff.1 h
        exact exprType_toExpr first x hx
    | between =>
      rw [hop] at h
      match pList, h with
      | .cons lo (.cons hi _), h =>
        obtain ⟨l, -, h⟩ := Option.bind_eq_some_iff.1 h
        obtain ⟨x, -, h⟩ := Option.bind_eq_some_iff.1 h
        obtain ⟨y, -, rfl⟩ := Option.map_eq_some_iff.1 h
        rfl
    | case_ =>
      rw [hop] at h
      dsimp only at h ⊢
      have hw : ∀ x, ((orElseOf pRight (toExpr useAgg pRight)).bind fun w => toWhens useAgg w pList) = some x →
          orNum (elseTypeOf pRight (exprType pRight)) (thenType pList) = orNum (elseType x) (L5.thenType x) := by
        intro x hx
        obtain ⟨w, hw, hx⟩ := Option.bind_eq_some_iff.1 hx
        obtain ⟨htype, hend⟩ := elseTypeOf_toExpr hr hw
        obtain ⟨helse, hthen⟩ := whensType_toWhens hend pList x hx
        rw [htype, helse, hthen]
      cases pLeft with
      | null =>
        obtain ⟨x, hx, rfl⟩ := Option.map_eq_some_iff.1 h
        exact hw x hx
      | node d' l r list sel =>
        obtain ⟨y, -, h⟩ := Option.bind_eq_some_iff.1 h
        obtain ⟨x, hx, rfl⟩ := Option.map_eq_some_iff.1 h
        exact hw x hx
    | raise | id | dot =>
      rw [hop] at h
      cases h

theorem whensType_toWhens {useAgg : Bool} {orElse : Whens} (hend : L5.thenType orElse = some .text) : (ns : Nodes) →
    ∀ w, toWhens useAgg orElse ns = some w → elseType orElse = elseType w ∧ thenType ns = L5.thenType w
  | .null, w, h => by
    obtain rfl := Option.some.inj h
    exact ⟨rfl, hend.symm⟩
  | .nil, w, h => by
    obtain rfl := Option.some.inj h
    exact ⟨rfl, hend.symm⟩
  | .cons e .null, w, h => by cases h
  | .cons e .nil, w, h => by cases h
  | .cons e (.cons r rest), w, h => by
    obtain ⟨x, -, h⟩ := Option.bind_eq_some_iff.1 h
    obtain ⟨y, hy, h⟩ := Option.bind_eq_some_iff.1 h
    obtain ⟨w', hw', rfl⟩ := Option.map_eq_some_iff.1 h
    obtain ⟨helse, hthen⟩ := whensType_toWhens hend rest w' hw'
    exact ⟨helse, congrArg₂ orNum (exprType_toExpr r y hy) hthen⟩
end

end Dbsql.L5.Tree
