import Dbsql.L5Codegen.Names
import Dbsql.L5Codegen.ParseTree
import Dbsql.L5Parse.Unquote
/-!
# Naming the database of each table (cg_attach.c, cg_trigger.c, cg_build.c)

The `__ref_normalize_*` walk puts the name of the database into each item of a FROM list that has
none, and ends with an error at one that names another. `__create_view` walks over the SELECT and
`__finish_trigger` over the steps; the table that a step changes gets its database in
`targetSrcList`, when the step is coded. The memory that holds a tree does not matter here.

The walk leaves out the GROUP BY and the ORDER BY of a SELECT, and nobody walks over the WHEN
clause. `targetSrcList` takes quotes off the name.

Results:
* `refs_named_iff`: exactly when every table of a view or a trigger program carries the name of the
  database afterwards, or the walk ends with the error that an item calls for.
-/
namespace Dbsql.L5.Ast.Ref
open Dbsql.L1
open Dbsql.L5.Names (strcasecmp)
open Dbsql.L5.Parse (strUnquote)

/-! ## The walk -/

/-- `ref_normalizer_ctx_t` -/
structure Ctx where
  zDb : Bytes
  zType : Bytes
  /-- the text of `*pName` -/
  pName : Bytes
  deriving DecidableEq, Repr

/-- `__ref_normalizer_ctx_init`; `aDb` gives the names of the databases. -/
def ctxInit (aDb : Nat → Bytes) (dbnum : Int) (type name : Bytes) : Option Ctx :=
  if dbnum < 0 ∨ dbnum = 1 then none else some ⟨aDb dbnum.toNat, type, name⟩

section
variable (ctx : Ctx)

/-- `"%s %z cannot reference objects in database %s"` -/
def refError (zDatabase : Bytes) : Bytes :=
  ctx.zType ++ ascii " " ++ ctx.pName ++ ascii " cannot reference objects in database " ++ zDatabase

/-- What the loop of `__ref_normalize_src_list` does to the item itself. -/
def itemDatabase (d : SrcItem Unit) : Except Bytes (SrcItem Unit) :=
  match d.zDatabase with
  | none => pure { d with zDatabase := some ⟨(), ctx.zDb⟩ }
  | some z => if strcasecmp z.text ctx.zDb then pure d else throw (refError ctx z.text)

mutual
/-- `__ref_normalize_src_list` -/
def srcList : SrcList Unit → Except Bytes (SrcList Unit)
  | .null => pure .null
  | .list addr a => do
    let a ← srcItems a
    pure (.list addr a)

def srcItems : SrcItems Unit → Except Bytes (SrcItems Unit)
  | .nil => pure .nil
  | .cons d pSelect pOn pUsing rest => do
    let d ← itemDatabase ctx d
    let pSelect ← select pSelect
    let pOn ← expr pOn
    let rest ← srcItems rest
    pure (.cons d pSelect pOn pUsing rest)

/-- `__ref_normalize_select` -/
def select : Select Unit → Except Bytes (Select Unit)
  | .null => pure .null
  | .node d pEList pSrc pWhere pGroupBy pHaving pOrderBy pPrior => do
    let pEList ← exprList pEList
    let pSrc ← srcList pSrc
    let pWhere ← expr pWhere
    let pHaving ← expr pHaving
    let pPrior ← select pPrior
    pure (.node d pEList pSrc pWhere pGroupBy pHaving pOrderBy pPrior)

/-- `__ref_normalize_expr` -/
def expr : Expr Unit → Except Bytes (Expr Unit)
  | .null => pure .null
  | .node d pLeft pRight pList pSelect => do
    let pSelect ← select pSelect
    let pList ← exprList pList
    let pRight ← expr pRight
    let pLeft ← expr pLeft
    pure (.node d pLeft pRight pList pSelect)

/-- `__ref_normalize_expr_list` -/
def exprList : ExprList Unit → Except Bytes (ExprList Unit)
  | .null => pure .null
  | .list addr block a => do
    let a ← exprItems a
    pure (.list addr block a)

def exprItems : ExprItems Unit → Except Bytes (ExprItems Unit)
  | .nil => pure .nil
  | .cons d pExpr rest => do
    let pExpr ← expr pExpr
    let rest ← exprItems rest
    pure (.cons d pExpr rest)
end

/-- A `trigger_step_t`. -/
structure Step where
  /-- the text of `target`, null in a SELECT -/
  target : Option Bytes
  pSelect : Select Unit
  pWhere : Expr Unit
  pExprList : ExprList Unit

/-- `__ref_normalize_trigger_step` -/
def triggerStep : List Step → Except Bytes (List Step)
  | [] => pure []
  | step :: pNext => do
    let pSelect ← select ctx step.pSelect
    let pWhere ← expr ctx step.pWhere
    let pExprList ← exprList ctx step.pExprList
    let pNext ← triggerStep pNext
    pure (⟨step.target, pSelect, pWhere, pExprList⟩ :: pNext)
end

/-! ## Views and triggers -/

section
variable (aDb : Nat → Bytes)

/-- `__create_view`, where the table is in database `iDb`: the SELECT of the view. -/
def createView (iDb : Nat) (name : Bytes) (s : Select Unit) : Except Bytes (Select Unit) :=
  match ctxInit aDb iDb (ascii "view") name with
  | none => pure s
  | some ctx => select ctx s

/-- A `trigger_t`. -/
structure Trigger where
  iDb : Nat
  nameToken : Bytes
  pWhen : Expr Unit
  step_list : List Step

/-- `__finish_trigger` of the trigger that `__begin_trigger` has made. -/
def finishTrigger (nt : Trigger) : Except Bytes Trigger :=
  match ctxInit aDb nt.iDb (ascii "trigger") nt.nameToken with
  | none => pure nt
  | some ctx => do
    let step_list ← triggerStep ctx nt.step_list
    pure { nt with step_list := step_list }

/-- `targetSrcList`: the database of the table, where `__src_list_append` has taken off quotes. -/
def targetDatabase (iDb : Nat) : Option Bytes :=
  if iDb = 0 ∨ 2 ≤ iDb then some (strUnquote (aDb iDb)) else none
end

/-! ## The tables of a tree -/

/-- The item is a table. -/
def isTable : Select Unit → Bool
  | .null => true
  | .node _ _ _ _ _ _ _ _ => false

/-- The database that an item names. -/
def dbOf (d : SrcItem Unit) : Option Bytes := d.zDatabase.map Str.text

mutual
/-- The databases of the tables in a tree, wherever they are. -/
def Refs.srcList : SrcList Unit → List (Option Bytes)
  | .null => []
  | .list _ a => Refs.srcItems a

def Refs.srcItems : SrcItems Unit → List (Option Bytes)
  | .nil => []
  | .cons d pSelect pOn _ rest =>
    (if isTable pSelect then [dbOf d] else []) ++
      (Refs.select pSelect ++ (Refs.expr pOn ++ Refs.srcItems rest))

def Refs.select : Select Unit → List (Option Bytes)
  | .null => []
  | .node _ pEList pSrc pWhere pGroupBy pHaving pOrderBy pPrior =>
    Refs.exprList pEList ++ (Refs.srcList pSrc ++ (Refs.expr pWhere ++ (Refs.exprList pGroupBy ++
      (Refs.expr pHaving ++ (Refs.exprList pOrderBy ++ Refs.select pPrior)))))

def Refs.expr : Expr Unit → List (Option Bytes)
  | .null => []
  | .node _ pLeft pRight pList pSelect =>
    Refs.select pSelect ++ (Refs.exprList pList ++ (Refs.expr pRight ++ Refs.expr pLeft))

def Refs.exprList : ExprList Unit → List (Option Bytes)
  | .null => []
  | .list _ _ a => Refs.exprItems a

def Refs.exprItems : ExprItems Unit → List (Option Bytes)
  | .nil => []
  | .cons _ pExpr rest => Refs.expr pExpr ++ Refs.exprItems rest
end

mutual
/-- The databases of the items that the walk comes to, in its order. -/
def Visited.srcList : SrcList Unit → List (Option Bytes)
  | .null => []
  | .list _ a => Visited.srcItems a

def Visited.srcItems : SrcItems Unit → List (Option Bytes)
  | .nil => []
  | .cons d pSelect pOn _ rest =>
    [dbOf d] ++ (Visited.select pSelect ++ (Visited.expr pOn ++ Visited.srcItems rest))

def Visited.select : Select Unit → List (Option Bytes)
  | .null => []
  | .node _ pEList pSrc pWhere _ pHaving _ pPrior =>
    Visited.exprList pEList ++ (Visited.srcList pSrc ++ (Visited.expr pWhere ++
      (Visited.expr pHaving ++ Visited.select pPrior)))

def Visited.expr : Expr Unit → List (Option Bytes)
  | .null => []
  | .node _ pLeft pRight pList pSelect =>
    Visited.select pSelect ++ (Visited.exprList pList ++ (Visited.expr pRight ++ Visited.expr pLeft))

def Visited.exprList : ExprList Unit → List (Option Bytes)
  | .null => []
  | .list _ _ a => Visited.exprItems a

def Visited.exprItems : ExprItems Unit → List (Option Bytes)
  | .nil => []
  | .cons _ pExpr rest => Visited.expr pExpr ++ Visited.exprItems rest
end

mutual
/-- The databases of the tables in the GROUP BY and the ORDER BY of the SELECTs that the walk
comes to. -/
def Skipped.srcList : SrcList Unit → List (Option Bytes)
  | .null => []
  | .list _ a => Skipped.srcItems a

def Skipped.srcItems : SrcItems Unit → List (Option Bytes)
  | .nil => []
  | .cons _ pSelect pOn _ rest => Skipped.select pSelect ++ (Skipped.expr pOn ++ Skipped.srcItems rest)

def Skipped.select : Select Unit → List (Option Bytes)
  | .null => []
  | .node _ pEList pSrc pWhere pGroupBy pHaving pOrderBy pPrior =>
    Skipped.exprList pEList ++ (Skipped.srcList pSrc ++ (Skipped.expr pWhere ++
      (Refs.exprList pGroupBy ++ (Skipped.expr pHaving ++ (Refs.exprList pOrderBy ++
        Skipped.select pPrior)))))

def Skipped.expr : Expr Unit → List (Option Bytes)
  | .null => []
  | .node _ pLeft pRight pList pSelect =>
    Skipped.select pSelect ++ (Skipped.exprList pList ++ (Skipped.expr pRight ++ Skipped.expr pLeft))

def Skipped.exprList : ExprList Unit → List (Option Bytes)
  | .null => []
  | .list _ _ a => Skipped.exprItems a

def Skipped.exprItems : ExprItems Unit → List (Option Bytes)
  | .nil => []
  | .cons _ pExpr rest => Skipped.expr pExpr ++ Skipped.exprItems rest
end

/-- The databases of the tables that the steps read, of the items that the walk comes to, and of
the tables that it leaves out. -/
def Refs.steps (steps : List Step) : List (Option Bytes) :=
  steps.flatMap fun s => Refs.select s.pSelect ++ (Refs.expr s.pWhere ++ Refs.exprList s.pExprList)

def Visited.steps (steps : List Step) : List (Option Bytes) :=
  steps.flatMap fun s =>
    Visited.select s.pSelect ++ (Visited.expr s.pWhere ++ Visited.exprList s.pExprList)

def Skipped.steps (steps : List Step) : List (Option Bytes) :=
  steps.flatMap fun s =>
    Skipped.select s.pSelect ++ (Skipped.expr s.pWhere ++ Skipped.exprList s.pExprList)

/-- The databases of the tables that the steps change. -/
def targets (aDb : Nat → Bytes) (iDb : Nat) (steps : List Step) : List (Option Bytes) :=
  steps.filterMap fun s => s.target.map fun _ => targetDatabase aDb iDb

/-- An item carries the name `zDb`. -/
def Named (zDb : Bytes) (r : Option Bytes) : Prop := ∃ z, r = some z ∧ strcasecmp z zDb

/-- An item names another database. -/
def Other (zDb : Bytes) (r : Option Bytes) : Prop := ∃ z, r = some z ∧ strcasecmp z zDb = false

def AllNamed (zDb : Bytes) (rs : List (Option Bytes)) : Prop := ∀ r ∈ rs, Named zDb r

variable {ctx : Ctx} {zDb : Bytes} {rs rs' : List (Option Bytes)}

theorem allNamed_append : AllNamed zDb (rs ++ rs') ↔ AllNamed zDb rs ∧ AllNamed zDb rs' :=
  List.forall_mem_append

/-! ## Walks -/

section
variable {α β : Type} {c : Except Bytes α} {f : α → Except Bytes β} {vis vis' : List (Option Bytes)}
  {P : α → Prop} {Q : β → Prop} {a : α} {b : β}

/-- `c` is the error that an item of `vis` calls for, or there is none and the result is in `P`. -/
def Walks (ctx : Ctx) (c : Except Bytes α) (vis : List (Option Bytes)) (P : α → Prop) : Prop :=
  (∃ z, some z ∈ vis ∧ strcasecmp z ctx.zDb = false ∧ c = .error (refError ctx z)) ∨
    ((∀ r ∈ vis, ¬ Other ctx.zDb r) ∧ ∃ a, c = .ok a ∧ P a)

theorem Walks.pure (h : P a) : Walks ctx (pure a) [] P := .inr ⟨nofun, a, rfl, h⟩

theorem Walks.bind (hc : Walks ctx c vis P) (hf : ∀ a, P a → Walks ctx (f a) vis' Q) :
    Walks ctx (c >>= f) (vis ++ vis') Q := by
  rcases hc with ⟨z, hz, hne, rfl⟩ | ⟨hvis, a, rfl, ha⟩
  · exact .inl ⟨z, List.mem_append_left _ hz, hne, rfl⟩
  · rcases hf a ha with ⟨z, hz, hne, he⟩ | ⟨hvis', b, hb, hQ⟩
    · exact .inl ⟨z, List.mem_append_right _ hz, hne, he⟩
    · exact .inr ⟨List.forall_mem_append.2 ⟨hvis, hvis'⟩, b, hb, hQ⟩

theorem Walks.last {g : α → β} (hc : Walks ctx c vis P) (hg : ∀ a, P a → Q (g a)) :
    Walks ctx (c >>= fun a => Pure.pure (g a)) vis Q := by
  have h : Walks ctx (c >>= fun a => Pure.pure (g a)) (vis ++ []) Q :=
    hc.bind fun a ha => .pure (hg a ha)
  rwa [List.append_nil] at h

/-- Exactly when a walk ends with an error that is called for, or in `R`. -/
theorem Walks.iff {R : α → Prop} {S : Prop} (h : Walks ctx c vis P) (hP : ∀ a, P a → (R a ↔ S)) :
    ((∃ z, some z ∈ vis ∧ strcasecmp z ctx.zDb = false ∧ c = .error (refError ctx z)) ∨
      ∃ a, c = .ok a ∧ R a) ↔ (∃ r ∈ vis, Other ctx.zDb r) ∨ S := by
  rcases h with ⟨z, hz, hne, he⟩ | ⟨hvis, a, rfl, ha⟩
  · exact iff_of_true (.inl ⟨z, hz, hne, he⟩) (.inl ⟨some z, hz, z, rfl, hne⟩)
  · constructor
    · rintro (⟨z, -, -, he⟩ | ⟨a', he, hR⟩)
      · cases he
      · cases he
        exact .inr ((hP a ha).1 hR)
    · rintro (⟨r, hr, ho⟩ | hS)
      · exact absurd ho (hvis r hr)
      · exact .inr ⟨a, rfl, (hP a ha).2 hS⟩
end

/-- The item carries the name afterwards. -/
theorem itemDatabase_walks (d : SrcItem Unit) :
    Walks ctx (itemDatabase ctx d) [dbOf d] fun d' => Named ctx.zDb (dbOf d') := by
  unfold itemDatabase dbOf
  cases h : d.zDatabase with
  | none =>
    refine .inr ⟨?_, _, rfl, ctx.zDb, rfl, by simp [strcasecmp]⟩
    rintro r hr ⟨z, rfl, -⟩
    cases hr with
    | tail _ hr => cases hr
  | some z =>
    by_cases hz : strcasecmp z.text ctx.zDb
    · refine .inr ⟨?_, d, if_pos hz, z.text, by rw [h]; rfl, hz⟩
      rintro r hr ⟨z', rfl, hne⟩
      rw [List.mem_singleton] at hr
      cases hr
      rw [hz] at hne
      cases hne
    · exact .inl ⟨z.text, List.mem_singleton_self _, Bool.eq_false_iff.2 hz, if_neg hz⟩

mutual
theorem srcList_walks : ∀ p : SrcList Unit, Walks ctx (srcList ctx p) (Visited.srcList p) fun q =>
    AllNamed ctx.zDb (Refs.srcList q) ↔ AllNamed ctx.zDb (Skipped.srcList p)
  | .null => .pure Iff.rfl
  | .list _ a => (srcItems_walks a).last fun _ h => h

theorem srcItems_walks : ∀ a : SrcItems Unit, Walks ctx (srcItems ctx a) (Visited.srcItems a) fun q =>
    AllNamed ctx.zDb (Refs.srcItems q) ↔ AllNamed ctx.zDb (Skipped.srcItems a)
  | .nil => .pure Iff.rfl
  | .cons d pSelect pOn pUsing rest => by
    refine (itemDatabase_walks d).bind fun d' hd => (select_walks pSelect).bind fun s hs => ?_
    refine (expr_walks pOn).bind fun on hon => (srcItems_walks rest).last fun r hr => ?_
    have hself : AllNamed ctx.zDb (if isTable s then [dbOf d'] else []) := by
      intro r hr
      split at hr
      · rw [List.mem_singleton.1 hr]
        exact hd
      · cases hr
    simp only [Refs.srcItems, Skipped.srcItems, allNamed_append, hself, hs, hon, hr, true_and]

theorem select_walks : ∀ p : Select Unit, Walks ctx (select ctx p) (Visited.select p) fun q =>
    AllNamed ctx.zDb (Refs.select q) ↔ AllNamed ctx.zDb (Skipped.select p)
  | .null => .pure Iff.rfl
  | .node d pEList pSrc pWhere pGroupBy pHaving pOrderBy pPrior => by
    refine (exprList_walks pEList).bind fun e he => (srcList_walks pSrc).bind fun src hsrc => ?_
    refine (expr_walks pWhere).bind fun w hw => (expr_walks pHaving).bind fun hv hhv => ?_
    refine (select_walks pPrior).last fun p hp => ?_
    simp only [Refs.select, Skipped.select, allNamed_append, he, hsrc, hw, hhv, hp]

theorem expr_walks : ∀ p : Expr Unit, Walks ctx (expr ctx p) (Visited.expr p) fun q =>
    AllNamed ctx.zDb (Refs.expr q) ↔ AllNamed ctx.zDb (Skipped.expr p)
  | .null => .pure Iff.rfl
  | .node d pLeft pRight pList pSelect => by
    refine (select_walks pSelect).bind fun s hs => (exprList_walks pList).bind fun li hli => ?_
    refine (expr_walks pRight).bind fun r hr => (expr_walks pLeft).last fun l hl => ?_
    simp only [Refs.expr, Skipped.expr, allNamed_append, hs, hli, hr, hl]

theorem exprList_walks : ∀ p : ExprList Unit, Walks ctx (exprList ctx p) (Visited.exprList p)
    fun q => AllNamed ctx.zDb (Refs.exprList q) ↔ AllNamed ctx.zDb (Skipped.exprList p)
  | .null => .pure Iff.rfl
  | .list _ _ a => (exprItems_walks a).last fun _ h => h

theorem exprItems_walks : ∀ a : ExprItems Unit, Walks ctx (exprItems ctx a) (Visited.exprItems a)
    fun q => AllNamed ctx.zDb (Refs.exprItems q) ↔ AllNamed ctx.zDb (Skipped.exprItems a)
  | .nil => .pure Iff.rfl
  | .cons _ pExpr rest => by
    refine (expr_walks pExpr).bind fun e he => (exprItems_walks rest).last fun r hr => ?_
    simp only [Refs.exprItems, Skipped.exprItems, allNamed_append, he, hr]
end

theorem triggerStep_walks : ∀ steps : List Step,
    Walks ctx (triggerStep ctx steps) (Visited.steps steps) fun steps' =>
      (AllNamed ctx.zDb (Refs.steps steps') ↔ AllNamed ctx.zDb (Skipped.steps steps)) ∧
        steps'.map Step.target = steps.map Step.target
  | [] => .pure ⟨Iff.rfl, rfl⟩
  | step :: pNext => by
    have hvis : Visited.steps (step :: pNext) = Visited.select step.pSelect ++
        (Visited.expr step.pWhere ++ (Visited.exprList step.pExprList ++ Visited.steps pNext)) := by
      simp [Visited.steps]
    rw [hvis]
    refine (select_walks step.pSelect).bind fun s hs => (expr_walks step.pWhere).bind fun w hw => ?_
    refine (exprList_walks step.pExprList).bind fun li hli => ?_
    refine (triggerStep_walks pNext).last fun rest hrest => ⟨?_, ?_⟩
    · have h := hrest.1
      unfold Refs.steps Skipped.steps at h ⊢
      simp only [List.flatMap_cons, allNamed_append, hs, hw, hli, h]
    · rw [List.map_cons, List.map_cons, hrest.2]

/-! ## Exactly when every table is named -/

section
variable (aDb : Nat → Bytes) (iDb : Nat)

/-- Every table of the view carries the name of the database, or an item that names another ends
the walk. -/
def ViewNamed (name : Bytes) (s : Select Unit) : Prop :=
  (∃ z, some z ∈ Visited.select s ∧ strcasecmp z (aDb iDb) = false ∧
    createView aDb iDb name s = .error (refError ⟨aDb iDb, ascii "view", name⟩ z)) ∨
  ∃ s', createView aDb iDb name s = .ok s' ∧ AllNamed (aDb iDb) (Refs.select s')

/-- Every table of the trigger does, those that its steps change too. -/
def Trigger.Named (nt : Trigger) : Prop :=
  (∃ z, some z ∈ Visited.steps nt.step_list ∧ strcasecmp z (aDb nt.iDb) = false ∧
    finishTrigger aDb nt = .error (refError ⟨aDb nt.iDb, ascii "trigger", nt.nameToken⟩ z)) ∨
  ∃ nt', finishTrigger aDb nt = .ok nt' ∧ AllNamed (aDb nt.iDb)
    (Refs.expr nt'.pWhen ++ (Refs.steps nt'.step_list ++ targets aDb nt'.iDb nt'.step_list))
end

variable {aDb : Nat → Bytes} {iDb : Nat}

theorem ctxInit_eq (hdb : iDb ≠ 1) (type name : Bytes) :
    ctxInit aDb iDb type name = some ⟨aDb iDb, type, name⟩ := by
  unfold ctxInit
  rw [if_neg (by omega)]
  rfl

theorem targets_congr {steps steps' : List Step} (h : steps'.map Step.target = steps.map Step.target) :
    targets aDb iDb steps' = targets aDb iDb steps := by
  have hmap : ∀ l : List Step, targets aDb iDb l =
      (l.map Step.target).filterMap (Option.map fun _ => targetDatabase aDb iDb) := by
    intro l
    unfold targets
    rw [List.filterMap_map]
    rfl
  rw [hmap, hmap, h]

/-- The tables that steps change are named, unless taking off quotes changes the name. -/
theorem allNamed_targets (hdb : iDb ≠ 1) (steps : List Step) :
    AllNamed (aDb iDb) (targets aDb iDb steps) ↔
      ((∃ s ∈ steps, s.target ≠ none) → strcasecmp (strUnquote (aDb iDb)) (aDb iDb)) := by
  have htarget : targetDatabase aDb iDb = some (strUnquote (aDb iDb)) := if_pos (by omega)
  unfold AllNamed targets
  rw [htarget]
  constructor
  · rintro h ⟨s, hs, hne⟩
    obtain ⟨t, ht⟩ := Option.ne_none_iff_exists'.1 hne
    obtain ⟨z, hz, hn⟩ := h _ (List.mem_filterMap.2 ⟨s, hs, by rw [ht]; rfl⟩)
    cases hz
    exact hn
  · intro h r hr
    obtain ⟨s, hs, hr⟩ := List.mem_filterMap.1 hr
    obtain ⟨t, ht, rfl⟩ := Option.map_eq_some_iff.1 hr
    exact ⟨_, rfl, h ⟨s, hs, by rw [ht]; exact Option.some_ne_none t⟩⟩

theorem finishTrigger_walks {nt : Trigger} (hdb : nt.iDb ≠ 1) :
    Walks ⟨aDb nt.iDb, ascii "trigger", nt.nameToken⟩ (finishTrigger aDb nt)
      (Visited.steps nt.step_list) fun nt' =>
        (AllNamed (aDb nt.iDb) (Refs.steps nt'.step_list) ↔
          AllNamed (aDb nt.iDb) (Skipped.steps nt.step_list)) ∧
        nt'.iDb = nt.iDb ∧ nt'.pWhen = nt.pWhen ∧
        nt'.step_list.map Step.target = nt.step_list.map Step.target := by
  unfold finishTrigger
  rw [ctxInit_eq hdb]
  exact (triggerStep_walks nt.step_list).last fun steps h => ⟨h.1, rfl, rfl, h.2⟩

/-- **The tables that the walk leaves out have to carry the name from the start.** -/
theorem refs_named_iff (aDb : Nat → Bytes) :
    (∀ iDb name s, iDb ≠ 1 → (ViewNamed aDb iDb name s ↔
      (∃ r ∈ Visited.select s, Other (aDb iDb) r) ∨ AllNamed (aDb iDb) (Skipped.select s))) ∧
    ∀ nt : Trigger, nt.iDb ≠ 1 → (nt.Named aDb ↔
      (∃ r ∈ Visited.steps nt.step_list, Other (aDb nt.iDb) r) ∨
      (AllNamed (aDb nt.iDb) (Refs.expr nt.pWhen) ∧
        AllNamed (aDb nt.iDb) (Skipped.steps nt.step_list) ∧
        ((∃ s ∈ nt.step_list, s.target ≠ none) →
          strcasecmp (strUnquote (aDb nt.iDb)) (aDb nt.iDb)))) := by
  constructor
  · intro iDb name s hdb
    have hrun : createView aDb iDb name s = select ⟨aDb iDb, ascii "view", name⟩ s := by
      unfold createView
      rw [ctxInit_eq hdb]
    unfold ViewNamed
    rw [hrun]
    have h : Walks ⟨aDb iDb, ascii "view", name⟩ (select ⟨aDb iDb, ascii "view", name⟩ s) _ _ :=
      select_walks s
    exact h.iff fun _ hs => hs
  · intro nt hdb
    refine (finishTrigger_walks hdb).iff fun nt' h => ?_
    obtain ⟨hrefs, hdb', hwhen, htargets⟩ := h
    rw [allNamed_append, allNamed_append, hrefs, hdb', hwhen, targets_congr htargets,
      allNamed_targets hdb]

/-- `SELECT * FROM t GROUP BY groupBy`; the parser generator numbers the operators. -/
def selectFrom (t : String) (groupBy : ExprList Unit) : Select Unit :=
  .node ⟨(), 1, 0, -1, 0, -1, -1, none⟩
    (.list () (some ()) (.cons ⟨none, 0, 0, 0⟩
      (.node ⟨(), 2, 0, 0, 0, none, none, 0, 0, 0⟩ .null .null .null .null) .nil))
    (.list () (.cons ⟨none, some ⟨(), ascii t⟩, none, none, 0, -1⟩ .null .null none .nil))
    .null groupBy .null .null .null

/-- `GROUP BY (SELECT * FROM u)` -/
def groupBySelect : ExprList Unit :=
  .list () (some ()) (.cons ⟨none, 0, 0, 0⟩
    (.node ⟨(), 3, 0, 0, 0, none, none, 0, 0, 0⟩ .null .null .null (selectFrom "u" .null)) .nil)

def mainAndTemp (i : Nat) : Bytes := if i = 1 then ascii "temp" else ascii "main"

theorem refs_named_iff_main :
    ViewNamed mainAndTemp 0 (ascii "v") (selectFrom "t" .null) ∧
      Trigger.Named mainAndTemp
        ⟨0, ascii "tr", .null, [⟨some (ascii "t"), selectFrom "u" .null, .null, .null⟩]⟩ :=
  ⟨((refs_named_iff mainAndTemp).1 0 _ _ (by decide)).2 (.inr nofun),
    ((refs_named_iff mainAndTemp).2 _ (by decide)).2 (.inr ⟨nofun, nofun, fun _ => by decide⟩)⟩

/-- `CREATE VIEW v AS SELECT * FROM t GROUP BY (SELECT * FROM u)`: `u` stays without a database. -/
theorem view_groupBy_not_named :
    ¬ ViewNamed mainAndTemp 0 (ascii "v") (selectFrom "t" groupBySelect) := by
  rintro (⟨z, hz, -⟩ | ⟨s', h, hn⟩)
  · have hvis : Visited.select (selectFrom "t" groupBySelect) = [none] := rfl
    rw [hvis] at hz
    cases List.mem_singleton.1 hz
  · cases h
    obtain ⟨z, hz, -⟩ := hn none (by decide)
    cases hz

end Dbsql.L5.Ast.Ref
