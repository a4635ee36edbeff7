import Dbsql.L3Vdbe.Stack
/-!
# Expressions and their code (cg_expr.c)

`__expr_code` leaves the value of an expression on the stack; `__expr_if_true` and
`__expr_if_false` jump on it. Column references are resolved; the set of `x IN (...)` and the
memory cell of a scalar sub-select have been filled by code that stands before.

Code is generated at a known address. A label that `__vdbe_make_label` makes and the same
call resolves is the address it gets; `exprLen` is the number of opcodes.

The list of a CASE is its WHEN and THEN expressions; `Whens` also holds the ELSE, for which
the code stands at the end of the list.
-/
namespace Dbsql.L5
open Dbsql.Core Dbsql.L1 Dbsql.L3 Dbsql.L3.Stack

/-! ## Expressions -/

/-- `DBSQL_SO_NUM`, `DBSQL_SO_TEXT`, and `DBSQL_SO_UNK`, from which `__expr` starts. -/
inductive So | num | text | unk
  deriving DecidableEq, Repr

/-- `TK_STRING`, `TK_FLOAT` and `TK_INTEGER`. -/
inductive Lit | string | float | integer
  deriving DecidableEq, Repr

/-- `TK_FUNCTION`, `TK_LIKE` and `TK_GLOB`. -/
inductive Fn
  | function (name : Bytes) (dataType : So)
  | like
  | glob
  deriving DecidableEq, Repr

/-- `__get_function_name` (cg_expr.c). -/
def Fn.name : Fn → Bytes
  | .function name _ => name
  | .like => ascii "like"
  | .glob => ascii "glob"

mutual
/-- `expr_t`. -/
inductive Expr
  | column (iTable : Nat) (iColumn : Int) (iAgg : Nat) (dataType : So)
  | lit (op : Lit) (token : Bytes)
  | null
  | variable_ (iTable : Nat)
  | aggFunction (iAgg : Nat) (dataType : So)
  /-- a scalar sub-select; `first` is its first result column -/
  | select (iColumn : Nat) (first : Expr)
  | arith (op : ArithOp) (left right : Expr)
  | bit (op : BitOp) (left right : Expr)
  | and (left right : Expr)
  | or (left right : Expr)
  | concat (left right : Expr)
  | compare (op : Cmp) (left right : Expr)
  | uminus (left : Expr)
  | bitNot (left : Expr)
  | not (left : Expr)
  | uplus (left : Expr)
  | as_ (left : Expr)
  | isNull (left : Expr)
  | notNull (left : Expr)
  | function (fn : Fn) (list : Exprs)
  | in_ (left : Expr) (pSelect : Bool) (iTable : Nat)
  | between (left lo hi : Expr)
  | case_ (list : Whens)
  | caseOf (left : Expr) (list : Whens)
  | raise (onError : Oe) (msg : Bytes)

/-- `expr_list_t`. -/
inductive Exprs
  | nil
  | cons (e : Expr) (es : Exprs)

/-- The list and the ELSE of a CASE. -/
inductive Whens
  | noElse
  | orElse (right : Expr)
  | when (e r : Expr) (rest : Whens)
end

def Exprs.nExpr : Exprs → Nat
  | .nil => 0
  | .cons _ es => es.nExpr + 1

/-! ## Types -/

/-- A type that is numeric decides; otherwise the next one is asked. -/
def orNum (t t' : Option So) : Option So :=
  match t with
  | some .text | some .unk => t'
  | _ => t

mutual
/-- `__expr_type` (cg_expr.c:1210-1298); none where its assertion fails. -/
def exprType : Expr → Option So
  | .column _ _ _ dataType | .aggFunction _ dataType | .function (.function _ dataType) _ => some dataType
  | .lit .string _ | .null | .variable_ _ | .concat _ _ => some .text
  | .compare _ left right => orNum (exprType left) (exprType right)
  | .as_ left => exprType left
  | .select _ first => exprType first
  | .case_ list | .caseOf _ list => orNum (elseType list) (thenType list)
  | .raise _ _ => none
  | _ => some .num

def elseType : Whens → Option So
  | .noElse => some .text
  | .orElse right => exprType right
  | .when _ _ rest => elseType rest

def thenType : Whens → Option So
  | .noElse | .orElse _ => some .text
  | .when _ r rest => orNum (exprType r) (thenType rest)
end

/-- Whether a comparison takes the text opcodes. -/
def isText (op : Cmp) (left right : Expr) : Bool := exprType (.compare op left right) = some .text

/-! ## Constants -/

/-- The loop of `__str_unquote`, and whether it came to the closing quote. -/
def unquoteLoop (quote : UInt8) : Bytes → Bytes × Bool
  | [] => ([], false)
  | [c] => if c = quote then ([], true) else ([c], false)
  | c :: c' :: z =>
    if c = quote then
      if c' = quote then (quote :: (unquoteLoop quote z).1, (unquoteLoop quote z).2) else ([], true)
    else (c :: (unquoteLoop quote (c' :: z)).1, (unquoteLoop quote (c' :: z)).2)

/-- `__str_unquote` (str.c:227-256); without a closing quote the end of `z` stays. -/
def strUnquote (z : Bytes) : Bytes :=
  let unquoted (quote : UInt8) : Bytes :=
    let (out, closed) := unquoteLoop quote z.tail
    if closed then out else out ++ z.drop out.length
  match peek z with
  | 39 => unquoted 39
  | 34 => unquoted 34
  | 91 => unquoted 93
  | _ => z

/-- The opcode of a literal. -/
def litOp (op : Lit) (token : Bytes) : Op :=
  if op = .integer ∧ strIntIn32b token then
    .integer (dbsqlAtoi token).1 (some (strUnquote token))
  else .string (some (strUnquote token))

/-- The opcode of a number with a minus before it. -/
def negLitOp (op : Lit) (token : Bytes) : Op :=
  let z := 45 :: token
  if op = .integer ∧ strIntIn32b z then .integer (dbsqlAtoi z).1 (some z) else .string (some z)

/-! ## Code -/

/-- `parser_t`: `useAgg`, and `trigStack->ignoreJump` inside a trigger. -/
structure Gen where
  useAgg : Bool
  ignoreJump : Option Nat

mutual
/-- The number of opcodes `__expr_code` emits. -/
def exprLen (g : Gen) : Expr → Nat
  | .column _ _ _ _ | .lit _ _ | .null | .variable_ _ | .aggFunction _ _ | .select _ _ => 1
  | .arith _ left right | .bit _ left right | .and left right | .or left right
  | .concat left right | .compare _ left right => exprLen g left + exprLen g right + 1
  | .uminus (.lit .float _) | .uminus (.lit .integer _) => 1
  | .uminus left | .bitNot left | .not left => exprLen g left + 1
  | .uplus left | .as_ left => exprLen g left
  | .isNull left | .notNull left => exprLen g left + 3
  | .function _ list => exprsLen g list + 1
  | .in_ left _ _ => exprLen g left + 7
  | .between left lo hi => exprLen g left + exprLen g lo + exprLen g hi + 5
  | .case_ list => whensLen g false list
  | .caseOf left list => exprLen g left + whensLen g true list
  | .raise _ _ => if g.ignoreJump.isSome then 1 else 0

def exprsLen (g : Gen) : Exprs → Nat
  | .nil => 0
  | .cons e es => exprLen g e + exprsLen g es

/-- The number of opcodes from a WHEN on; `operand` says whether the CASE has one. -/
def whensLen (g : Gen) (operand : Bool) : Whens → Nat
  | .noElse => if operand then 2 else 1
  | .orElse right => (if operand then 1 else 0) + exprLen g right
  | .when e r rest =>
    exprLen g e + (if operand then 3 else 1) + exprLen g r + 1 + whensLen g operand rest
end

/-- The opcode of a column reference. -/
def columnOp (g : Gen) (iTable : Nat) (iColumn : Int) (iAgg : Nat) : Op :=
  if g.useAgg then .aggGet iAgg
  else if 0 ≤ iColumn then .column iTable iColumn.toNat
  else .recno iTable

/-- The search of the set or table of an IN. -/
def inOp (pSelect neg : Bool) (iTable dest : Nat) : Op :=
  if pSelect then .found neg iTable dest else .setFound neg iTable dest

/-- The opcode of RAISE; outside a trigger it is an error. -/
def raiseCode (g : Gen) (onError : Oe) (msg : Bytes) : List Op :=
  match g.ignoreJump with
  | none => []
  | some ignoreJump =>
    if onError = .rollback ∨ onError = .abort ∨ onError = .fail then
      [.halt .constraint onError (strUnquote msg)]
    else [.goto ignoreJump]

mutual
/-- `__expr_code` (cg_expr.c:1306-1552) at address `addr`. -/
def exprCode (g : Gen) (addr : Nat) : Expr → List Op
  | .column iTable iColumn iAgg _ => [columnOp g iTable iColumn iAgg]
  | .lit op token => [litOp op token]
  | .null => [.string none]
  | .variable_ iTable => [.variable_ iTable]
  | .aggFunction iAgg _ => [.aggGet iAgg]
  | .select iColumn _ => [.memLoad iColumn]
  | .arith op left right =>
    exprCode g addr left ++ exprCode g (addr + exprLen g left) right ++ [.arith op]
  | .bit .shiftLeft left right =>
    exprCode g addr right ++ exprCode g (addr + exprLen g right) left ++ [.bit .shiftLeft]
  | .bit .shiftRight left right =>
    exprCode g addr right ++ exprCode g (addr + exprLen g right) left ++ [.bit .shiftRight]
  | .bit op left right =>
    exprCode g addr left ++ exprCode g (addr + exprLen g left) right ++ [.bit op]
  | .and left right => exprCode g addr left ++ exprCode g (addr + exprLen g left) right ++ [.and]
  | .or left right => exprCode g addr left ++ exprCode g (addr + exprLen g left) right ++ [.or]
  | .concat left right =>
    exprCode g addr left ++ exprCode g (addr + exprLen g left) right ++ [.concat]
  | .compare op left right =>
    exprCode g addr left ++ exprCode g (addr + exprLen g left) right ++
      [.cmp (isText op left right) op false 0]
  | .uminus (.lit .float token) => [negLitOp .float token]
  | .uminus (.lit .integer token) => [negLitOp .integer token]
  | .uminus left => exprCode g addr left ++ [.negative]
  | .bitNot left => exprCode g addr left ++ [.bitNot]
  | .not left => exprCode g addr left ++ [.not]
  | .uplus left | .as_ left => exprCode g addr left
  | .isNull left =>
    [.integer 1 none] ++ exprCode g (addr + 1) left ++
      [.isNull (addr + 1 + exprLen g left + 2), .addImm (-1)]
  | .notNull left =>
    [.integer 1 none] ++ exprCode g (addr + 1) left ++
      [.notNull false (addr + 1 + exprLen g left + 2), .addImm (-1)]
  | .function fn list => exprsCode g addr list ++ [.function list.nExpr fn.name]
  | .in_ left pSelect iTable =>
    let a := addr + 1 + exprLen g left
    [.integer 1 none] ++ exprCode g (addr + 1) left ++
      [.notNull true (a + 4), .pop 1, .string none, .goto (a + 6),
        inOp pSelect false iTable (a + 6), .addImm (-1)]
  | .between left lo hi =>
    let a := addr + exprLen g left + 1
    let a' := a + exprLen g lo + 2
    exprCode g addr left ++ [.dup 0] ++ exprCode g a lo ++ [.cmp false .ge false 0, .pull 1] ++
      exprCode g a' hi ++ [.cmp false .le false 0, .and]
  | .case_ list => whensCode g false addr (addr + whensLen g false list) list
  | .caseOf left list =>
    let a := addr + exprLen g left
    exprCode g addr left ++ whensCode g true a (a + whensLen g true list) list
  | .raise onError msg => raiseCode g onError msg

/-- The arguments of a function. -/
def exprsCode (g : Gen) (addr : Nat) : Exprs → List Op
  | .nil => []
  | .cons e es => exprCode g addr e ++ exprsCode g (addr + exprLen g e) es

/-- The loop over the list of a CASE, and its ELSE. -/
def whensCode (g : Gen) (operand : Bool) (addr exprEnd : Nat) : Whens → List Op
  | .noElse => (if operand then [.pop 1] else []) ++ [.string none]
  | .orElse right =>
    (if operand then [.pop 1] else []) ++ exprCode g (addr + if operand then 1 else 0) right
  | .when e r rest =>
    let a := addr + exprLen g e + if operand then 3 else 1
    let next := a + exprLen g r + 1
    exprCode g addr e ++
      (if operand then [.dup 1, .cmp false .ne true next, .pop 1] else [.ifNot true next]) ++
      exprCode g a r ++ [.goto exprEnd] ++ whensCode g operand next exprEnd rest
end

mutual
/-- Whether `__expr_code` passes: each comparison has a type, and RAISE is in a trigger. -/
def compiles (g : Gen) : Expr → Bool
  | .column _ _ _ _ | .lit _ _ | .null | .variable_ _ | .aggFunction _ _ | .select _ _ => true
  | .arith _ left right | .bit _ left right | .and left right | .or left right
  | .concat left right => compiles g left && compiles g right
  | .compare op left right =>
    (exprType (.compare op left right)).isSome && compiles g left && compiles g right
  | .uminus left | .bitNot left | .not left | .uplus left | .as_ left | .isNull left
  | .notNull left | .in_ left _ _ => compiles g left
  | .function _ list => exprsCompile g list
  | .between left lo hi => compiles g left && compiles g lo && compiles g hi
  | .case_ list => whensCompile g list
  | .caseOf left list => compiles g left && whensCompile g list
  | .raise _ _ => g.ignoreJump.isSome

def exprsCompile (g : Gen) : Exprs → Bool
  | .nil => true
  | .cons e es => compiles g e && exprsCompile g es

def whensCompile (g : Gen) : Whens → Bool
  | .noElse => true
  | .orElse right => compiles g right
  | .when e r rest => compiles g e && compiles g r && whensCompile g rest
end

mutual
/-- The number of opcodes `__expr_if_true` emits. -/
def ifTrueLen (g : Gen) : Expr → Nat
  | .and left right => ifFalseLen g left + ifTrueLen g right
  | .or left right => ifTrueLen g left + ifTrueLen g right
  | .not left => ifFalseLen g left
  | .isNull left | .notNull left => exprLen g left + 1
  | .in_ left _ _ => exprLen g left + 4
  | .between left lo hi => exprLen g left + exprLen g lo + exprLen g hi + 5
  | .compare _ left right => exprLen g left + exprLen g right + 1
  | e => exprLen g e + 1

/-- The number of opcodes `__expr_if_false` emits. -/
def ifFalseLen (g : Gen) : Expr → Nat
  | .and left right => ifFalseLen g left + ifFalseLen g right
  | .or left right => ifTrueLen g left + ifFalseLen g right
  | .not left => ifTrueLen g left
  | .isNull left | .notNull left => exprLen g left + 1
  | .in_ left _ _ => exprLen g left + 4
  | .between left lo hi => exprLen g left + exprLen g lo + exprLen g hi + 5
  | .compare _ left right => exprLen g left + exprLen g right + 1
  | e => exprLen g e + 1
end

mutual
/-- `__expr_if_true` (cg_expr.c:1566-1649) at address `addr`. -/
def exprIfTrue (g : Gen) (addr : Nat) (dest : Nat) (jumpIfNull : Bool) : Expr → List Op
  | .and left right =>
    let a := addr + ifFalseLen g left
    exprIfFalse g addr (a + ifTrueLen g right) (!jumpIfNull) left ++
      exprIfTrue g a dest jumpIfNull right
  | .or left right =>
    exprIfTrue g addr dest jumpIfNull left ++
      exprIfTrue g (addr + ifTrueLen g left) dest jumpIfNull right
  | .not left => exprIfFalse g addr dest jumpIfNull left
  | .compare op left right =>
    exprCode g addr left ++ exprCode g (addr + exprLen g left) right ++
      [.cmp (isText op left right) op jumpIfNull dest]
  | .isNull left => exprCode g addr left ++ [.isNull dest]
  | .notNull left => exprCode g addr left ++ [.notNull false dest]
  | .in_ left pSelect iTable =>
    let a := addr + exprLen g left
    exprCode g addr left ++
      [.notNull true (a + 3), .pop 1, .goto (if jumpIfNull then dest else a + 4),
        inOp pSelect false iTable dest]
  | .between left lo hi =>
    let a := addr + exprLen g left + 1
    let a' := a + exprLen g lo + 1
    exprCode g addr left ++ [.dup 0] ++ exprCode g a lo ++
      [.cmp false .lt (!jumpIfNull) (a' + exprLen g hi + 2)] ++ exprCode g a' hi ++
      [.cmp false .le jumpIfNull dest, .integer 0 none, .pop 1]
  | e => exprCode g addr e ++ [.if_ jumpIfNull dest]

/-- `__expr_if_false` (cg_expr.c:1661-1752) at address `addr`. -/
def exprIfFalse (g : Gen) (addr : Nat) (dest : Nat) (jumpIfNull : Bool) : Expr → List Op
  | .and left right =>
    exprIfFalse g addr dest jumpIfNull left ++
      exprIfFalse g (addr + ifFalseLen g left) dest jumpIfNull right
  | .or left right =>
    let a := addr + ifTrueLen g left
    exprIfTrue g addr (a + ifFalseLen g right) (!jumpIfNull) left ++
      exprIfFalse g a dest jumpIfNull right
  | .not left => exprIfTrue g addr dest jumpIfNull left
  | .compare op left right =>
    exprCode g addr left ++ exprCode g (addr + exprLen g left) right ++
      [.cmp (isText op left right) op.negate jumpIfNull dest]
  | .isNull left => exprCode g addr left ++ [.notNull false dest]
  | .notNull left => exprCode g addr left ++ [.isNull dest]
  | .in_ left pSelect iTable =>
    let a := addr + exprLen g left
    exprCode g addr left ++
      [.notNull true (a + 3), .pop 1, .goto (if jumpIfNull then dest else a + 4),
        inOp pSelect true iTable dest]
  | .between left lo hi =>
    let a := addr + exprLen g left + 1
    let a' := a + exprLen g lo + 3
    exprCode g addr left ++ [.dup 0] ++ exprCode g a lo ++
      [.cmp false .ge (!jumpIfNull) a', .pop 1, .goto dest] ++ exprCode g a' hi ++
      [.cmp false .gt jumpIfNull dest]
  | e => exprCode g addr e ++ [.ifNot jumpIfNull dest]
end

end Dbsql.L5
