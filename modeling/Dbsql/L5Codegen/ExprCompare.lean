import Dbsql.L5Codegen.ExprCheck
/-!
# Comparing expressions (cg_expr.c)

`__expr_compare` goes down two trees, and compares the tokens of their nodes without regard to
case. For a name that is right, for a literal it is not: 'abc' and 'ABC' compare equal. Of a node
without a token it asks nothing, and it does not look at the data types.

`__expr_analyze_aggregates` gives each call of an aggregate a place in `aAgg`, an earlier one when
the call there compares equal.

A row is read by two environments when an expression is evaluated twice on it: a function such as
random() need not yield the same value again (`SameRow`).

Results:
* `exprValue_sameRow`: without such a function the two evaluations agree.
* `toExpr_of_compare`: trees that compare equal, with the same literals and data types, are the
  same expression.
* `exprCompare_merge`: under that condition they have one value, and an analysis merges only calls
  that have one result.
-/
namespace Dbsql.L5.Tree
open Dbsql.Core Dbsql.L1 Dbsql.L3 Dbsql.L3.Stack

/-! ## The comparison -/

def Nodes.isNull : Nodes → Bool
  | .null => true
  | _ => false

/-- The end of `__expr_compare`: equal lengths, and `strncasecmp`. -/
def tokenCompare (a b : Option Bytes) : Bool :=
  match a, b with
  | none, _ => true
  | some _, none => false
  | some a, some b => b.length == a.length && foldName a == foldName b

mutual
/-- `__expr_compare` (cg_expr.c:1761-1807). -/
def exprCompare : Node → Node → Bool
  | .null, .null => true
  | .node a aLeft aRight aList aSelect, .node b bLeft bRight bList bSelect =>
    a.op == b.op && exprCompare aLeft bLeft && exprCompare aRight bRight && exprsCompare aList bList &&
      (aSelect.isNull && bSelect.isNull) && (a.iTable == b.iTable && a.iColumn == b.iColumn) &&
      tokenCompare a.token b.token
  | _, _ => false

def exprsCompare : Nodes → Nodes → Bool
  | .null, .null | .nil, .nil => true
  | .cons a as, .cons b bs => exprCompare a b && exprsCompare as bs
  | _, _ => false
end

/-! ## One expression -/

/-- The data of two nodes that compare equal: the same literal, and the same types. -/
def Data.alike (a b : Data) : Bool :=
  match a.op with
  | .lit _ => a.token == b.token
  | .function => a.token.isNone == b.token.isNone && a.dataType == b.dataType
  | .aggFunction => a.iAgg == b.iAgg && a.dataType == b.dataType
  | .column => a.dataType == b.dataType
  | _ => true

mutual
/-- What `__expr_compare` leaves out, at the nodes of two trees of one shape. -/
def alike : Node → Node → Bool
  | .node a aLeft aRight aList _, .node b bLeft bRight bList _ =>
    a.alike b && alike aLeft bLeft && alike aRight bRight && alikes aList bList
  | _, _ => true

def alikes : Nodes → Nodes → Bool
  | .cons a as, .cons b bs => alike a b && alikes as bs
  | _, _ => true
end

/-- The fields that `toExpr` reads. -/
structure Data.Same (a b : Data) : Prop where
  op : a.op = b.op
  iTable : a.iTable = b.iTable
  iColumn : a.iColumn = b.iColumn
  lit : ∀ op, a.op = .lit op → a.token = b.token
  name : a.op = .function → a.token.map foldName = b.token.map foldName
  iAgg : a.op = .aggFunction → a.iAgg = b.iAgg
  dataType : a.op = .column ∨ a.op = .function ∨ a.op = .aggFunction → a.dataType = b.dataType

theorem foldName_of_tokenCompare {a b : Option Bytes} (h : tokenCompare a b = true) (hnone : a.isNone = b.isNone) :
    a.map foldName = b.map foldName := by
  cases a with
  | none =>
    cases b with
    | none => rfl
    | some b => cases hnone
  | some a =>
    cases b with
    | none => cases hnone
    | some b =>
      obtain ⟨-, hfold⟩ := Bool.and_eq_true_iff.1 h
      exact congrArg some (eq_of_beq hfold)

theorem Data.same_of_alike {a b : Data} (hop : a.op = b.op) (hi : a.iTable = b.iTable ∧ a.iColumn = b.iColumn)
    (htoken : tokenCompare a.token b.token = true) (h : a.alike b = true) : a.Same b := by
  unfold Data.alike at h
  refine ⟨hop, hi.1, hi.2, fun op ha => ?_, fun ha => ?_, fun ha => ?_, fun ha => ?_⟩
  · simp only [ha] at h
    exact eq_of_beq h
  · simp only [ha, Bool.and_eq_true, beq_iff_eq] at h
    exact foldName_of_tokenCompare htoken h.1
  · simp only [ha, Bool.and_eq_true, beq_iff_eq] at h
    exact h.1
  · rcases ha with ha | ha | ha <;> simp only [ha, Bool.and_eq_true, beq_iff_eq] at h
    · exact h
    · exact h.2
    · exact h.2

theorem orElseOf_of_compare {a b : Node} (h : exprCompare a b = true) (e : Option Expr) : orElseOf a e = orElseOf b e := by
  cases a with
  | null =>
    cases b with
    | null => rfl
    | node => cases h
  | node =>
    cases b with
    | null => cases h
    | node => rfl

mutual
/-- **Trees that compare equal, with the same literals and data types, are one expression.** -/
theorem toExpr_of_compare : (a b : Node) → exprCompare a b = true → alike a b = true →
    toExpr false a = toExpr false b
  | .null, .null, _, _ => rfl
  | .null, .node _ _ _ _ _, h, _ => by cases h
  | .node _ _ _ _ _, .null, h, _ => by cases h
  | .node a aLeft aRight aList aSelect, .node b bLeft bRight bList bSelect, h, hal => by
    unfold exprCompare at h
    unfold alike at hal
    simp only [Bool.and_eq_true, beq_iff_eq] at h hal
    obtain ⟨⟨⟨⟨⟨⟨hop, hl⟩, hr⟩, hlist⟩, hsel⟩, hi⟩, htoken⟩ := h
    obtain ⟨⟨⟨hdata, hal⟩, har⟩, halist⟩ := hal
    have hs := Data.same_of_alike hop hi htoken hdata
    have hleft := toExpr_of_compare aLeft bLeft hl hal
    have hright := toExpr_of_compare aRight bRight hr har
    obtain ⟨hargs, hwhens⟩ := toExprs_of_compare aList bList hlist halist
    unfold toExpr
    rw [← hop]
    cases ha : a.op with
    | column => rw [hs.iTable, hs.iColumn, hs.dataType (.inl ha)]; rfl
    | lit op => rw [hs.lit op ha]
    | null | raise | id | dot => rfl
    | variable_ => rw [hs.iTable]
    | function =>
      have hfold (t : Option Bytes) : (t.bind fun name => (toExprs false bList).map
          (Expr.function (.function (foldName name) b.dataType))) =
          (t.map foldName).bind fun name =>
            (toExprs false bList).map (Expr.function (.function name b.dataType)) := by
        cases t <;> rfl
      rw [hargs, hs.dataType (.inr (.inl ha))]
      dsimp only
      rw [hfold, hfold, hs.name ha]
    | aggFunction => rw [hs.iAgg ha, hs.dataType (.inr (.inr ha))]
    | like | glob => rw [hargs]
    | arith _ | bit _ | and | or | concat | compare _ => rw [hleft, hright]
    | uminus | bitNot | not | uplus | as_ | isNull | notNull => rw [hleft]
    | select =>
      obtain ⟨hsa, hsb⟩ := hsel
      cases aSelect with
      | null =>
        cases bSelect with
        | null => rfl
        | nil | cons => cases hsb
      | nil | cons => cases hsa
    | in_ =>
      obtain ⟨hsa, hsb⟩ := hsel
      rw [hleft, hs.iTable]
      cases aSelect with
      | null =>
        cases bSelect with
        | null => rfl
        | nil | cons => cases hsb
      | nil | cons => cases hsa
    | between =>
      match aList, bList, hlist, halist with
      | .null, .null, _, _ | .nil, .nil, _, _ | .cons _ .null, .cons _ .null, _, _ => rfl
      | .cons _ .nil, .cons _ .nil, _, _ => rfl
      | .cons lo (.cons hi _), .cons lo' (.cons hi' _), hlist, halist =>
        unfold exprsCompare exprsCompare at hlist
        unfold alikes alikes at halist
        simp only [Bool.and_eq_true] at hlist halist
        obtain ⟨hlo, hhi, -⟩ := hlist
        obtain ⟨halo, hahi, -⟩ := halist
        dsimp only
        rw [hleft, toExpr_of_compare lo lo' hlo halo, toExpr_of_compare hi hi' hhi hahi]
      | .cons _ .null, .cons _ (.cons _ _), hlist, _ | .cons _ .null, .cons _ .nil, hlist, _
      | .cons _ .nil, .cons _ (.cons _ _), hlist, _ | .cons _ .nil, .cons _ .null, hlist, _
      | .cons _ (.cons _ _), .cons _ .null, hlist, _ | .cons _ (.cons _ _), .cons _ .nil, hlist, _ =>
        unfold exprsCompare at hlist
        simp [exprsCompare] at hlist
    | case_ =>
      rw [hright, hleft, orElseOf_of_compare hr]
      simp only [hwhens]
      cases aLeft with
      | null =>
        cases bLeft with
        | null => rfl
        | node => cases hl
      | node =>
        cases bLeft with
        | null => cases hl
        | node => rfl

theorem toExprs_of_compare : (as bs : Nodes) → exprsCompare as bs = true → alikes as bs = true →
    toExprs false as = toExprs false bs ∧ ∀ w, toWhens false w as = toWhens false w bs
  | .null, .null, _, _ => ⟨rfl, fun _ => rfl⟩
  | .nil, .nil, _, _ => ⟨rfl, fun _ => rfl⟩
  | .null, .nil, h, _ => by cases h
  | .null, .cons _ _, h, _ => by cases h
  | .nil, .null, h, _ => by cases h
  | .nil, .cons _ _, h, _ => by cases h
  | .cons _ _, .null, h, _ => by cases h
  | .cons _ _, .nil, h, _ => by cases h
  | .cons a as, .cons b bs, h, hal => by
    unfold exprsCompare at h
    unfold alikes at hal
    simp only [Bool.and_eq_true] at h hal
    have ha := toExpr_of_compare a b h.1 hal.1
    obtain ⟨has, -⟩ := toExprs_of_compare as bs h.2 hal.2
    refine ⟨?_, fun w => ?_⟩
    · unfold toExprs
      rw [ha, has]
    · -- the list of a CASE goes two by two
      match as, bs, h.2, hal.2 with
      | .null, .null, _, _ | .nil, .nil, _, _ => rfl
      | .cons r as, .cons r' bs, h, hal =>
        unfold exprsCompare at h
        unfold alikes at hal
        simp only [Bool.and_eq_true] at h hal
        unfold toWhens
        rw [ha, toExpr_of_compare r r' h.1 hal.1, (toExprs_of_compare as bs h.2 hal.2).2]
end

/-! ## Two evaluations on a row -/

/-- The environments of two evaluations on one row; the functions in `volatile` need not yield the
same value twice. -/
structure SameRow (volatile : Bytes → Bool) (env env' : Env) : Prop where
  cells : env' = { env with xFunc := env'.xFunc }
  xFunc : ∀ name, volatile name = false → env'.xFunc name = env.xFunc name

theorem SameRow.refl (volatile : Bytes → Bool) (env : Env) : SameRow volatile env env := ⟨rfl, fun _ _ => rfl⟩

section
variable (volatile : Bytes → Bool)

mutual
/-- Whether an expression calls no function in `volatile`. -/
def calm : Expr → Bool
  | .column _ _ _ _ | .lit _ _ | .null | .variable_ _ | .aggFunction _ _ | .select _ _ | .raise _ _ => true
  | .arith _ left right | .bit _ left right | .and left right | .or left right | .concat left right
  | .compare _ left right => calm left && calm right
  | .uminus left | .bitNot left | .not left | .uplus left | .as_ left | .isNull left | .notNull left
  | .in_ left _ _ => calm left
  | .function fn list => !volatile fn.name && calms list
  | .between left lo hi => calm left && calm lo && calm hi
  | .case_ list => calmWhens list
  | .caseOf left list => calm left && calmWhens list

def calms : Exprs → Bool
  | .nil => true
  | .cons e es => calm e && calms es

def calmWhens : Whens → Bool
  | .noElse => true
  | .orElse right => calm right
  | .when e r rest => calm e && calm r && calmWhens rest
end

variable {volatile} {L : Type} (ar : Arith L) (g : Gen) (sem : Sem) {env : Env}
  {xFunc : Bytes → List (Option Bytes) → Option Val}

mutual
theorem exprValue_calm (h : ∀ name, volatile name = false → xFunc name = env.xFunc name) : (e : Expr) → calm volatile e = true →
    exprValue ar { env with xFunc := xFunc } g sem e = exprValue ar env g sem e
  | .column _ _ _ _, _ | .lit _ _, _ | .null, _ | .variable_ _, _ | .aggFunction _ _, _ | .select _ _, _
  | .raise _ _, _ => by
    unfold exprValue
    rfl
  | .arith _ left right, hc | .and left right, hc | .or left right, hc | .concat left right, hc
  | .compare _ left right, hc => by
    obtain ⟨hl, hr⟩ := Bool.and_eq_true_iff.1 hc
    unfold exprValue
    rw [exprValue_calm h left hl, exprValue_calm h right hr]
  | .bit op left right, hc => by
    obtain ⟨hl, hr⟩ := Bool.and_eq_true_iff.1 hc
    cases op <;>
    · unfold exprValue
      rw [exprValue_calm h left hl, exprValue_calm h right hr]
  | .uminus left, hc => by
    rcases number_or left with ⟨op, token, hop, rfl⟩ | hl
    · rw [exprValue_uminus_lit hop, exprValue_uminus_lit hop]
    · rw [exprValue_uminus hl, exprValue_uminus hl, exprValue_calm h left hc]
  | .bitNot left, hc | .not left, hc | .uplus left, hc | .as_ left, hc | .isNull left, hc | .notNull left, hc => by
    unfold exprValue
    rw [exprValue_calm h left hc]
  | .in_ left _ _, hc => by
    unfold exprValue
    rw [exprValue_calm h left hc]
    rfl
  | .function fn list, hc => by
    obtain ⟨hname, hlist⟩ := Bool.and_eq_true_iff.1 hc
    unfold exprValue
    rw [exprsValue_calm h list hlist]
    dsimp only
    rw [h fn.name (by simpa using hname)]
  | .between left lo hi, hc => by
    obtain ⟨hc, hhi⟩ := Bool.and_eq_true_iff.1 hc
    obtain ⟨hl, hlo⟩ := Bool.and_eq_true_iff.1 hc
    unfold exprValue
    rw [exprValue_calm h left hl, exprValue_calm h lo hlo, exprValue_calm h hi hhi]
  | .case_ list, hc => by
    unfold exprValue
    exact whensValue_calm h list hc
  | .caseOf left list, hc => by
    obtain ⟨hl, hlist⟩ := Bool.and_eq_true_iff.1 hc
    unfold exprValue
    rw [exprValue_calm h left hl]
    simp only [whensValue_calm h list hlist]

theorem exprsValue_calm (h : ∀ name, volatile name = false → xFunc name = env.xFunc name) : (es : Exprs) → calms volatile es = true →
    exprsValue ar { env with xFunc := xFunc } g sem es = exprsValue ar env g sem es
  | .nil, _ => by
    unfold exprsValue
    rfl
  | .cons e es, hc => by
    obtain ⟨he, hes⟩ := Bool.and_eq_true_iff.1 hc
    unfold exprsValue
    rw [exprValue_calm h e he, exprsValue_calm h es hes]

theorem whensValue_calm (h : ∀ name, volatile name = false → xFunc name = env.xFunc name)
    {text : Expr → Bool} {operand : Option Val} : (w : Whens) → calmWhens volatile w = true →
    whensValue ar { env with xFunc := xFunc } g sem text operand w = whensValue ar env g sem text operand w
  | .noElse, _ => by
    unfold whensValue
    rfl
  | .orElse right, hc => by
    unfold whensValue
    exact exprValue_calm h right hc
  | .when e r rest, hc => by
    obtain ⟨hc, hrest⟩ := Bool.and_eq_true_iff.1 hc
    obtain ⟨he, hr⟩ := Bool.and_eq_true_iff.1 hc
    unfold whensValue
    rw [exprValue_calm h e he]
    simp only [exprValue_calm h r hr, whensValue_calm h rest hrest]
end

/-- The value of an expression on a row, where no column is read from an aggregate. -/
def rowValue (env : Env) (ignoreJump : Option Nat) (e : Node) : Option Val :=
  (toExpr false e).bind (exprValue ar env ⟨false, ignoreJump⟩ sem)

/-- The values of the arguments of a call on a row. -/
def argsValue (env : Env) (ignoreJump : Option Nat) (es : Nodes) : Option (List Val) :=
  (toExprs false es).bind (exprsValue ar env ⟨false, ignoreJump⟩ sem)

end

/-- What two trees that compare equal must have in common besides. -/
structure Alike (volatile : Bytes → Bool) (a b : Node) : Prop where
  nodes : alike a b = true
  calm : ∀ e, toExpr false a = some e → calm volatile e = true

section
variable {L : Type} {ar : Arith L} {sem : Sem} {volatile : Bytes → Bool} {env env' : Env} {ignoreJump : Option Nat}

theorem exprValue_sameRow (h : SameRow volatile env env') {g : Gen} {e : Expr} (hc : calm volatile e = true) :
    exprValue ar env' g sem e = exprValue ar env g sem e := by
  rw [h.cells]
  exact exprValue_calm ar g sem h.xFunc e hc

theorem exprsValue_sameRow (h : SameRow volatile env env') {g : Gen} {es : Exprs} (hc : calms volatile es = true) :
    exprsValue ar env' g sem es = exprsValue ar env g sem es := by
  rw [h.cells]
  exact exprsValue_calm ar g sem h.xFunc es hc

theorem rowValue_of_compare {a b : Node} (h : exprCompare a b = true) (hal : Alike volatile a b)
    (hrow : SameRow volatile env env') : rowValue ar sem env ignoreJump a = rowValue ar sem env' ignoreJump b := by
  unfold rowValue
  rw [← toExpr_of_compare a b h hal.nodes]
  cases he : toExpr false a with
  | none => rfl
  | some e => exact (exprValue_sameRow hrow (hal.calm e he)).symm

end

/-! ## The analysis of aggregates -/

def Node.iTable : Node → Int
  | .null => 0
  | .node d _ _ _ _ => d.iTable

def Node.iColumn : Node → Int
  | .null => 0
  | .node d _ _ _ _ => d.iColumn

def Node.iAgg : Node → Nat
  | .null => 0
  | .node d _ _ _ _ => d.iAgg

def Node.pList : Node → Nodes
  | .null => .null
  | .node _ _ _ list _ => list

/-- `token.z`, where it is a name. -/
def Node.name : Node → Bytes
  | .null => []
  | .node d _ _ _ _ => d.token.getD []

/-- `agg_expr_t`; `pFunc` is the place of the function in the chain of its name. -/
structure AggExpr where
  isAgg : Bool
  pExpr : Node
  pFunc : Option Nat

/-- The first entry that is `p`, or else a new one. -/
def findOrAppend (aAgg : List AggExpr) (p : AggExpr → Bool) (new : AggExpr) : Nat × List AggExpr :=
  match aAgg.findIdx? p with
  | some i => (i, aAgg)
  | none => (aAgg.length, aAgg ++ [new])

/-- The entry of the call of an aggregate. -/
def aggExpr (fns : Fns) (e : Node) : AggExpr := ⟨true, e, findFunction fns e.name e.pList.nExpr⟩

/-- `expr->iAgg = i`. -/
def Data.setAgg (d : Data) (i : Nat) : Data := { d with iAgg := i }

mutual
/-- `__expr_analyze_aggregates` (cg_expr.c:1841-1912): the expression, and `aAgg`. -/
def analyze (fns : Fns) (aAgg : List AggExpr) : Node → Node × List AggExpr
  | .null => (.null, aAgg)
  | .node d pLeft pRight pList pSelect =>
    let expr := Node.node d pLeft pRight pList pSelect
    match d.op with
    | .column =>
      let (i, aAgg) := findOrAppend aAgg
        (fun x => !x.isAgg && (x.pExpr.iTable == d.iTable && x.pExpr.iColumn == d.iColumn)) ⟨false, expr, none⟩
      (.node (d.setAgg i) pLeft pRight pList pSelect, aAgg)
    | .aggFunction =>
      let (i, aAgg) := findOrAppend aAgg (fun x => x.isAgg && exprCompare x.pExpr expr) (aggExpr fns expr)
      (.node (d.setAgg i) pLeft pRight pList pSelect, aAgg)
    | _ =>
      let (pLeft, aAgg) := analyze fns aAgg pLeft
      let (pRight, aAgg) := analyze fns aAgg pRight
      let (pList, aAgg) := analyzeList fns aAgg pList
      (.node d pLeft pRight pList pSelect, aAgg)

def analyzeList (fns : Fns) (aAgg : List AggExpr) : Nodes → Nodes × List AggExpr
  | .null => (.null, aAgg)
  | .nil => (.nil, aAgg)
  | .cons e rest =>
    let (e, aAgg) := analyze fns aAgg e
    let (rest, aAgg) := analyzeList fns aAgg rest
    (.cons e rest, aAgg)
end

/-- The expressions of a SELECT, one after another. -/
def analyzeAll (fns : Fns) (aAgg : List AggExpr) : List Node → List Node × List AggExpr
  | [] => ([], aAgg)
  | e :: es =>
    let (e, aAgg) := analyze fns aAgg e
    let (es, aAgg) := analyzeAll fns aAgg es
    (e :: es, aAgg)

mutual
/-- The calls of aggregates in an expression, in the order of the analysis. -/
def calls : Node → List Node
  | .null => []
  | .node d pLeft pRight pList pSelect =>
    match d.op with
    | .column => []
    | .aggFunction => [.node d pLeft pRight pList pSelect]
    | _ => calls pLeft ++ calls pRight ++ callsList pList

def callsList : Nodes → List Node
  | .null | .nil => []
  | .cons e rest => calls e ++ callsList rest
end

/-- What two calls that compare equal must have in common besides: they have names, and the same
arguments. -/
structure AlikeCalls (volatile : Bytes → Bool) (a b : Node) : Prop where
  name : a.name.isEmpty = b.name.isEmpty
  args : alikes a.pList b.pList = true
  calm : ∀ es, toExprs false a.pList = some es → calms volatile es = true

section
variable {L : Type} (ar : Arith L) (sem : Sem) (ignoreJump : Option Nat)
  (impl : Bytes → Option Nat → List (List Val) → Option Val)

/-- The result of the function at `pFunc` for the arguments of a call on the rows of a group. -/
def callResult (pFunc : Option Nat) (rows : List Env) (call : Node) : Option Val :=
  (rows.mapM fun env => argsValue ar sem env ignoreJump call.pList).bind (impl (foldName call.name) pFunc)

/-- The result of a call by itself. -/
def ownResult (fns : Fns) (rows : List Env) (call : Node) : Option Val :=
  callResult ar sem ignoreJump impl (findFunction fns call.name call.pList.nExpr) rows call

end

theorem nExpr_of_compare : {as bs : Nodes} → exprsCompare as bs = true → as.nExpr = bs.nExpr
  | .null, .null, _ | .nil, .nil, _ => rfl
  | .cons _ _, .cons _ _, h => congrArg (· + 1) (nExpr_of_compare (Bool.and_eq_true_iff.1 h).2)

theorem foldName_of_compare {a b : Node} (h : exprCompare a b = true) (hname : a.name.isEmpty = b.name.isEmpty) :
    foldName a.name = foldName b.name ∧ exprsCompare a.pList b.pList = true := by
  match a, b, h with
  | .null, .null, _ => exact ⟨rfl, rfl⟩
  | .node a aLeft aRight aList aSelect, .node b bLeft bRight bList bSelect, h =>
    unfold exprCompare at h
    simp only [Bool.and_eq_true] at h
    obtain ⟨⟨⟨⟨⟨⟨-, -⟩, -⟩, hlist⟩, -⟩, -⟩, htoken⟩ := h
    refine ⟨?_, hlist⟩
    unfold Node.name at hname ⊢
    dsimp only at hname ⊢
    cases ha : a.token with
    | none =>
      rw [ha] at hname
      rw [List.isEmpty_iff.1 hname.symm]
      rfl
    | some za =>
      rw [ha] at htoken
      cases hb : b.token with
      | none =>
        rw [hb] at htoken
        cases htoken
      | some zb =>
        rw [hb] at htoken
        exact eq_of_beq (Bool.and_eq_true_iff.1 htoken).2

section
variable {L : Type} {ar : Arith L} {sem : Sem} {ignoreJump : Option Nat}
  {impl : Bytes → Option Nat → List (List Val) → Option Val} {volatile : Bytes → Bool} {fns : Fns}

/-- Two calls that compare equal have one result on the rows of a group. -/
theorem ownResult_of_compare {a b : Node} (h : exprCompare a b = true) (hal : AlikeCalls volatile a b)
    {rows rows' : List Env} (hrows : List.Forall₂ (SameRow volatile) rows rows') :
    ownResult ar sem ignoreJump impl fns rows a = ownResult ar sem ignoreJump impl fns rows' b := by
  obtain ⟨hname, hlist⟩ := foldName_of_compare h hal.name
  have hexprs := (toExprs_of_compare a.pList b.pList hlist hal.args).1
  have hargs {env env' : Env} (hrow : SameRow volatile env env') :
      argsValue ar sem env ignoreJump a.pList = argsValue ar sem env' ignoreJump b.pList := by
    unfold argsValue
    rw [← hexprs]
    cases hes : toExprs false a.pList with
    | none => rfl
    | some es => exact (exprsValue_sameRow hrow (hal.calm es hes)).symm
  have hmap : rows.mapM (fun env => argsValue ar sem env ignoreJump a.pList) =
      rows'.mapM fun env => argsValue ar sem env ignoreJump b.pList := by
    induction hrows with
    | nil => rfl
    | cons hrow _ ih => rw [List.mapM_cons, List.mapM_cons, hargs hrow, ih]
  have hfind : findFunction fns a.name a.pList.nExpr = findFunction fns b.name b.pList.nExpr := by
    unfold findFunction
    rw [hname, nExpr_of_compare hlist]
  unfold ownResult callResult
  rw [hmap, hname, hfind]

end

theorem findOrAppend_spec {aAgg aAgg' : List AggExpr} {p : AggExpr → Bool} {new : AggExpr} {i : Nat}
    (h : findOrAppend aAgg p new = (i, aAgg')) :
    (aAgg' = aAgg ∧ ∃ x, aAgg[i]? = some x ∧ p x = true) ∨ (i = aAgg.length ∧ aAgg' = aAgg ++ [new]) := by
  unfold findOrAppend at h
  split at h
  · next j hj =>
    cases h
    obtain ⟨hlt, hp, -⟩ := List.findIdx?_eq_some_iff_getElem.1 hj
    exact .inl ⟨rfl, _, List.getElem?_eq_getElem hlt, hp⟩
  · cases h
    exact .inr ⟨rfl, rfl⟩

section
variable {L : Type} (ar : Arith L) (sem : Sem) (ignoreJump : Option Nat)
  (impl : Bytes → Option Nat → List (List Val) → Option Val) (volatile : Bytes → Bool) (fns : Fns)

/-- The calls `done` have been analysed, and have become `cs`. -/
structure Analyzed (done cs : List Node) (aAgg : List AggExpr) : Prop where
  entries : ∀ x ∈ aAgg, x.isAgg = true → x.pExpr ∈ done ∧ x = aggExpr fns x.pExpr
  own : ∀ c ∈ cs, ∃ x, aAgg[c.iAgg]? = some x ∧ x.isAgg = true ∧ ∀ rows,
    callResult ar sem ignoreJump impl x.pFunc rows x.pExpr = ownResult ar sem ignoreJump impl fns rows c
  merged : cs.Pairwise fun c c' => c.iAgg = c'.iAgg → ∀ rows rows', List.Forall₂ (SameRow volatile) rows rows' →
    ownResult ar sem ignoreJump impl fns rows c = ownResult ar sem ignoreJump impl fns rows' c'

variable {ar sem ignoreJump impl volatile fns} {done cs : List Node} {aAgg aAgg' : List AggExpr}

theorem Analyzed.init : Analyzed ar sem ignoreJump impl volatile fns [] [] [] :=
  ⟨fun _ h => (List.not_mem_nil h).elim, fun _ h => (List.not_mem_nil h).elim, .nil⟩

/-- A new entry leaves the others where they are. -/
theorem Analyzed.own_append (h : Analyzed ar sem ignoreJump impl volatile fns done cs aAgg) (new : AggExpr) :
    ∀ c ∈ cs, c.iAgg < aAgg.length ∧ ∃ x, (aAgg ++ [new])[c.iAgg]? = some x ∧ x.isAgg = true ∧ ∀ rows,
      callResult ar sem ignoreJump impl x.pFunc rows x.pExpr = ownResult ar sem ignoreJump impl fns rows c := by
  intro c hc
  obtain ⟨x, hx, hagg, hown⟩ := h.own c hc
  have hlt := (List.getElem?_eq_some_iff.1 hx).1
  exact ⟨hlt, x, by rw [List.getElem?_append_left hlt, hx], hagg, hown⟩

theorem Analyzed.column (h : Analyzed ar sem ignoreJump impl volatile fns done cs aAgg) {p : AggExpr → Bool}
    {e : Node} {i : Nat} (hfind : findOrAppend aAgg p ⟨false, e, none⟩ = (i, aAgg')) :
    Analyzed ar sem ignoreJump impl volatile fns done cs aAgg' := by
  obtain ⟨rfl, -⟩ | ⟨-, rfl⟩ := findOrAppend_spec hfind
  · exact h
  · refine ⟨fun x hx hagg => ?_, fun c hc => (h.own_append _ c hc).2, h.merged⟩
    rcases List.mem_append.1 hx with hx | hx
    · exact h.entries x hx hagg
    · rw [List.mem_singleton.1 hx] at hagg
      cases hagg

theorem Analyzed.call (h : Analyzed ar sem ignoreJump impl volatile fns done cs aAgg) {d : Data} {l r : Node}
    {list sel : Nodes} {i : Nat}
    (hdone : ∀ x ∈ done, exprCompare x (.node d l r list sel) = true → AlikeCalls volatile x (.node d l r list sel))
    (hfind : findOrAppend aAgg (fun x => x.isAgg && exprCompare x.pExpr (.node d l r list sel))
      (aggExpr fns (.node d l r list sel)) = (i, aAgg')) :
    Analyzed ar sem ignoreJump impl volatile fns (done ++ [.node d l r list sel])
      (cs ++ [.node (d.setAgg i) l r list sel]) aAgg' := by
  obtain ⟨rfl, x, hx, hp⟩ | ⟨rfl, rfl⟩ := findOrAppend_spec hfind
  · obtain ⟨hagg, hcmp⟩ := Bool.and_eq_true_iff.1 hp
    obtain ⟨hmem, hentry⟩ := h.entries x (List.mem_of_getElem? hx) hagg
    -- the call that made the entry has the result of this one, however often they are evaluated
    have hsame {rows rows' : List Env} (hrows : List.Forall₂ (SameRow volatile) rows rows') :
        callResult ar sem ignoreJump impl x.pFunc rows x.pExpr =
          ownResult ar sem ignoreJump impl fns rows' (.node (d.setAgg i) l r list sel) := by
      rw [hentry]
      exact ownResult_of_compare hcmp (hdone _ hmem hcmp) hrows
    have hrefl (rows : List Env) : List.Forall₂ (SameRow volatile) rows rows :=
      List.forall₂_same.2 fun env _ => .refl volatile env
    refine ⟨fun y hy hagg => ?_, fun c hc => ?_, ?_⟩
    · obtain ⟨hy, heq⟩ := h.entries y hy hagg
      exact ⟨List.mem_append_left _ hy, heq⟩
    · rcases List.mem_append.1 hc with hc | hc
      · exact h.own c hc
      · obtain rfl := List.mem_singleton.1 hc
        exact ⟨x, hx, hagg, fun rows => hsame (hrefl rows)⟩
    · refine List.pairwise_append.2 ⟨h.merged, List.pairwise_singleton _ _, fun c hc c' hc' hi rows rows' hrows => ?_⟩
      obtain rfl := List.mem_singleton.1 hc'
      obtain ⟨y, hy, -, hown⟩ := h.own c hc
      obtain rfl := Option.some.inj ((hi ▸ hy).symm.trans hx)
      rw [← hown rows]
      exact hsame hrows
  · refine ⟨fun y hy hagg => ?_, fun c hc => ?_, ?_⟩
    · rcases List.mem_append.1 hy with hy | hy
      · obtain ⟨hy, heq⟩ := h.entries y hy hagg
        exact ⟨List.mem_append_left _ hy, heq⟩
      · obtain rfl := List.mem_singleton.1 hy
        exact ⟨List.mem_append_right _ (List.mem_singleton.2 rfl), rfl⟩
    · rcases List.mem_append.1 hc with hc | hc
      · exact (h.own_append _ c hc).2
      · obtain rfl := List.mem_singleton.1 hc
        exact ⟨_, List.getElem?_concat_length, rfl, fun rows => rfl⟩
    · refine List.pairwise_append.2 ⟨h.merged, List.pairwise_singleton _ _, fun c hc c' hc' hi => ?_⟩
      obtain rfl := List.mem_singleton.1 hc'
      exact absurd hi (Nat.ne_of_lt (h.own_append (aggExpr fns (.node d l r list sel)) c hc).1)

theorem calls_column {d : Data} (hop : d.op = .column) (l r : Node) (list sel : Nodes) :
    calls (.node d l r list sel) = [] := by
  rw [calls, hop]

theorem calls_call {d : Data} (hop : d.op = .aggFunction) (l r : Node) (list sel : Nodes) :
    calls (.node d l r list sel) = [.node d l r list sel] := by
  rw [calls, hop]

theorem calls_other {d : Data} (hc : d.op ≠ .column) (ha : d.op ≠ .aggFunction) (l r : Node) (list sel : Nodes) :
    calls (.node d l r list sel) = calls l ++ calls r ++ callsList list := by
  rw [calls]
  cases hop : d.op with
  | column => exact absurd hop hc
  | aggFunction => exact absurd hop ha
  | _ => rfl

theorem analyze_other {d : Data} (hc : d.op ≠ .column) (ha : d.op ≠ .aggFunction) (l r : Node) (list sel : Nodes) :
    analyze fns aAgg (.node d l r list sel) =
      (.node d (analyze fns aAgg l).1 (analyze fns (analyze fns aAgg l).2 r).1
          (analyzeList fns (analyze fns (analyze fns aAgg l).2 r).2 list).1 sel,
        (analyzeList fns (analyze fns (analyze fns aAgg l).2 r).2 list).2) := by
  rw [analyze]
  cases hop : d.op with
  | column => exact absurd hop hc
  | aggFunction => exact absurd hop ha
  | _ => rfl

mutual
theorem Analyzed.analyze : (e : Node) → ∀ {done cs : List Node} {aAgg : List AggExpr},
    Analyzed ar sem ignoreJump impl volatile fns done cs aAgg →
    (done ++ calls e).Pairwise (fun a b => exprCompare a b = true → AlikeCalls volatile a b) →
    Analyzed ar sem ignoreJump impl volatile fns (done ++ calls e) (cs ++ calls (analyze fns aAgg e).1)
      (analyze fns aAgg e).2
  | .null, done, cs, aAgg, h, _ => by
    unfold Tree.analyze calls
    rwa [List.append_nil, List.append_nil]
  | .node d l r list sel, done, cs, aAgg, h, hpair => by
    by_cases hc : d.op = .column
    · rw [calls_column hc, List.append_nil]
      rw [Tree.analyze]
      split
      · dsimp only
        rw [calls_column, List.append_nil]
        · exact h.column rfl
        · exact hc
      · next ha => cases hc.symm.trans ha
      · next hne _ => exact absurd hc hne
    · by_cases ha : d.op = .aggFunction
      · rw [calls_call ha] at hpair ⊢
        rw [Tree.analyze]
        split
        · next hop => exact absurd hop hc
        · dsimp only
          rw [calls_call]
          · exact h.call (fun x hx => (List.pairwise_append.1 hpair).2.2 x hx _ (List.mem_singleton.2 rfl)) rfl
          · exact ha
        · next hne => exact absurd ha hne
      · rw [analyze_other hc ha, calls_other hc ha]
        rw [calls_other hc ha] at hpair ⊢
        rw [← List.append_assoc, ← List.append_assoc] at hpair ⊢
        rw [← List.append_assoc, ← List.append_assoc]
        have hleft := (List.pairwise_append.1 hpair).1
        have hl := Analyzed.analyze l h (List.pairwise_append.1 hleft).1
        exact Analyzed.analyzeList list (Analyzed.analyze r hl hleft) hpair

theorem Analyzed.analyzeList : (es : Nodes) → ∀ {done cs : List Node} {aAgg : List AggExpr},
    Analyzed ar sem ignoreJump impl volatile fns done cs aAgg →
    (done ++ callsList es).Pairwise (fun a b => exprCompare a b = true → AlikeCalls volatile a b) →
    Analyzed ar sem ignoreJump impl volatile fns (done ++ callsList es) (cs ++ callsList (analyzeList fns aAgg es).1)
      (analyzeList fns aAgg es).2
  | .null, done, cs, aAgg, h, _ => by
    unfold Tree.analyzeList callsList
    rwa [List.append_nil, List.append_nil]
  | .nil, done, cs, aAgg, h, _ => by
    unfold Tree.analyzeList callsList
    rwa [List.append_nil, List.append_nil]
  | .cons e rest, done, cs, aAgg, h, hpair => by
    unfold Tree.analyzeList
    unfold callsList at hpair ⊢
    rw [← List.append_assoc] at hpair ⊢
    dsimp only
    rw [← List.append_assoc]
    exact Analyzed.analyzeList rest (Analyzed.analyze e h (List.pairwise_append.1 hpair).1) hpair
end

theorem Analyzed.analyzeAll : (es : List Node) → ∀ {done cs : List Node} {aAgg : List AggExpr},
    Analyzed ar sem ignoreJump impl volatile fns done cs aAgg →
    (done ++ es.flatMap calls).Pairwise (fun a b => exprCompare a b = true → AlikeCalls volatile a b) →
    Analyzed ar sem ignoreJump impl volatile fns (done ++ es.flatMap calls)
      (cs ++ (analyzeAll fns aAgg es).1.flatMap calls) (analyzeAll fns aAgg es).2
  | [], done, cs, aAgg, h, _ => by
    unfold Tree.analyzeAll
    rwa [List.flatMap_nil, List.append_nil, List.append_nil]
  | e :: es, done, cs, aAgg, h, hpair => by
    unfold Tree.analyzeAll
    rw [List.flatMap_cons, ← List.append_assoc] at hpair ⊢
    rw [List.flatMap_cons, ← List.append_assoc]
    exact Analyzed.analyzeAll es (Analyzed.analyze e h (List.pairwise_append.1 hpair).1) hpair

end

/-! ## What the comparison is for -/

section
variable {L : Type} (ar : Arith L) (sem : Sem) (volatile : Bytes → Bool)

/-- Two expressions have one value on every row. -/
def RowEqual (a b : Node) : Prop :=
  ∀ env env' ignoreJump, SameRow volatile env env' → rowValue ar sem env ignoreJump a = rowValue ar sem env' ignoreJump b

/-- The analysis of the expressions `es` gives each call of an aggregate an entry that yields its
own result, and two calls one entry only when they have one result on every group of rows. -/
structure OwnResults (ignoreJump : Option Nat) (impl : Bytes → Option Nat → List (List Val) → Option Val) (fns : Fns)
    (es : List Node) : Prop where
  own : ∀ c ∈ (analyzeAll fns [] es).1.flatMap calls, ∃ x, (analyzeAll fns [] es).2[c.iAgg]? = some x ∧
    x.isAgg = true ∧ ∀ rows, callResult ar sem ignoreJump impl x.pFunc rows x.pExpr =
      ownResult ar sem ignoreJump impl fns rows c
  merged : ((analyzeAll fns [] es).1.flatMap calls).Pairwise fun c c' => c.iAgg = c'.iAgg →
    ∀ rows rows', List.Forall₂ (SameRow volatile) rows rows' →
      ownResult ar sem ignoreJump impl fns rows c = ownResult ar sem ignoreJump impl fns rows' c'

variable {volatile}

/-- Where trees that compare equal are alike, equal ones have one value, and the analysis of a
SELECT merges only calls that have one result. -/
theorem exprCompare_merge {a b : Node} (hab : exprCompare a b = true → Alike volatile a b) (fns : Fns) {es : List Node}
    (hes : (es.flatMap calls).Pairwise fun c c' => exprCompare c c' = true → AlikeCalls volatile c c') :
    (exprCompare a b = true → RowEqual ar sem volatile a b) ∧
      ∀ ignoreJump impl, OwnResults ar sem volatile ignoreJump impl fns es := by
  refine ⟨fun h env env' ignoreJump hrow => rowValue_of_compare h (hab h) hrow, fun ignoreJump impl => ?_⟩
  have h : Analyzed ar sem ignoreJump impl volatile fns [] [] [] := .init
  have hall := h.analyzeAll es (by rwa [List.nil_append])
  exact ⟨hall.own, hall.merged⟩

end

/-- `count('a')`. -/
def countText (z : String) : Node := token .aggFunction "count" (.cons (token (.lit .string) z .null) .nil)

theorem exprCompare_merge_count :
    (exprCompare (countText "'a'") (countText "'a'") = true →
        RowEqual exactMachine (.sql fun _ _ => []) (fun _ => false) (countText "'a'") (countText "'a'")) ∧
      ∀ ignoreJump impl, OwnResults exactMachine (.sql fun _ _ => []) (fun _ => false) ignoreJump impl builtins
        [countText "'a'", countText "'a'"] :=
  exprCompare_merge exactMachine (.sql fun _ _ => []) (fun _ => ⟨by decide, fun _ h => by cases h; rfl⟩) builtins
    (.cons (fun _ h _ => by
      obtain rfl := List.mem_singleton.1 h
      exact ⟨rfl, by decide, fun _ h => by cases h; rfl⟩) (List.pairwise_singleton _ _))

/-- 'a' and 'A' compare equal. -/
theorem exprCompare_merge_case :
    ¬ ∀ a b : Node, exprCompare a b = true → RowEqual exactMachine (.sql fun _ _ => []) (fun _ => false) a b := by
  intro h
  have hval := h (token (.lit .string) "'a'" .null) (token (.lit .string) "'A'" .null) (by decide) emptyEnv emptyEnv none
    (.refl _ emptyEnv)
  exact absurd hval (by decide)

end Dbsql.L5.Tree
