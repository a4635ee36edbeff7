import Dbsql.L1Encoding.Format
/-!
# Parse trees (dbsql_int.in)

`expr_t`, `expr_list_t`, `src_list_t`, `id_list_t` and `select_t` with all their fields. A null
pointer is a tree of its own, or `none`. `A` is what tells two blocks of memory apart: their
addresses, or `Unit` where memory does not matter.
-/
namespace Dbsql.L5.Ast
open Dbsql.L1

/-- A text and where it lies: the bytes up to the NUL. -/
structure Str (A : Type) where
  addr : A
  text : Bytes
  deriving DecidableEq, Repr

/-- A `token_t` whose `z` is not null: the first `n` bytes at `z`. -/
structure Token (A : Type) where
  z : Str A
  n : Nat
  dyn : Bool
  deriving DecidableEq, Repr

/-- The fields of an `expr_t` but for its subtrees. -/
structure ExprData (A : Type) where
  addr : A
  op : Nat
  dataType : Nat
  iDb : Nat
  flags : Nat
  token : Option (Token A)
  span : Option (Token A)
  iTable : Int
  iColumn : Int
  iAgg : Int
  deriving DecidableEq, Repr

/-- An item of an `expr_list_t` but for its expression. -/
structure ExprItem (A : Type) where
  zName : Option (Str A)
  sortOrder : Nat
  isAgg : Nat
  done : Nat
  deriving DecidableEq, Repr

structure IdItem (A : Type) where
  zName : Option (Str A)
  idx : Int
  deriving DecidableEq, Repr

structure IdList (A : Type) where
  addr : A
  /-- the block of the items, null where none was taken -/
  block : Option A
  a : List (IdItem A)
  deriving DecidableEq, Repr

/-- An item of a `src_list_t` but for its subtrees. -/
structure SrcItem (A : Type) where
  zDatabase : Option (Str A)
  zName : Option (Str A)
  zAlias : Option (Str A)
  /-- `pTab`: which table of the schema -/
  pTab : Option Nat
  jointype : Nat
  iCursor : Int
  deriving DecidableEq, Repr

/-- The fields of a `select_t` but for its subtrees. -/
structure SelectData (A : Type) where
  addr : A
  op : Nat
  isDistinct : Nat
  nLimit : Int
  nOffset : Int
  iLimit : Int
  iOffset : Int
  zSelect : Option (Str A)
  deriving DecidableEq, Repr

mutual
/-- `expr_t *`. -/
inductive Expr (A : Type)
  | null
  | node (d : ExprData A) (pLeft pRight : Expr A) (pList : ExprList A) (pSelect : Select A)

/-- `expr_list_t *`; `block` is the block of the items. -/
inductive ExprList (A : Type)
  | null
  | list (addr : A) (block : Option A) (a : ExprItems A)

inductive ExprItems (A : Type)
  | nil
  | cons (d : ExprItem A) (pExpr : Expr A) (rest : ExprItems A)

/-- `src_list_t *`; the items are in the block of the list. -/
inductive SrcList (A : Type)
  | null
  | list (addr : A) (a : SrcItems A)

inductive SrcItems (A : Type)
  | nil
  | cons (d : SrcItem A) (pSelect : Select A) (pOn : Expr A) (pUsing : Option (IdList A))
      (rest : SrcItems A)

/-- `select_t *`. -/
inductive Select (A : Type)
  | null
  | node (d : SelectData A) (pEList : ExprList A) (pSrc : SrcList A) (pWhere : Expr A)
      (pGroupBy : ExprList A) (pHaving : Expr A) (pOrderBy : ExprList A) (pPrior : Select A)
end

end Dbsql.L5.Ast
