import Dbsql.Core.Alloc
import Dbsql.L5Codegen.ParseTree
/-!
# Copies of parse trees (cg_expr.c, common/dbsql_alloc.c)

`__expr_dup`, `__expr_list_dup`, `__src_list_dup`, `__id_list_dup` and `__select_dup`, where there
is memory enough. Two texts are read through a pointer that nobody has looked at. `__os_strdup`
takes the length of its text, and in a FROM list or a list of identifiers the text may be a null
pointer. `__dbsql_strndup` reads `dbp->dbenv`, and `__token_copy` hands it a null `dbp`; the value
read does not matter (it is the null pointer or replaced by it), and C leaves it open what the read
does: `nullRead` says whether it is harmless.

`strip` is a tree without its addresses, without what a copy drops on purpose (`done`, `pTab`,
`zSelect`, `iLimit` and `iOffset`, the span of an expression that is not in a list) and without the
rest of the statement behind a token.

Results:
* `copiers_copy_iff`: a copier makes a copy that is equal but for these and shares nothing with its
  tree, exactly if every name of the tree is there and no expression of a list is null or (where the
  read faults) has a span.
-/
namespace Dbsql.L5.Ast
open Dbsql.L1 Dbsql.Core
open Dbsql.Core.Alloc (new fault Makes Ends makes_new not_ends_fault)

/-! ## The copiers -/

/-- `__dbsql_strdup` -/
def strdup : Option (Str Nat) → Alloc (Option (Str Nat))
  | none => fault
  | some s => do
    let addr ← new
    pure (some ⟨addr, s.text⟩)

section
variable (nullRead : Bool)

/-- `__dbsql_strndup(NULL, str, storep, len)` -/
def strndup (str : Str Nat) (len : Nat) : Alloc (Str Nat) :=
  if nullRead then do
    let addr ← new
    pure ⟨addr, str.text.take len⟩
  else fault

/-- `__token_copy`, of a token whose `z` is not null -/
def tokenCopy (src : Token Nat) : Alloc (Token Nat) := do
  let z ← strndup nullRead src.z src.n
  pure ⟨z, src.n, true⟩

/-- The token of an expression: copied up to the NUL. -/
def tokenDup : Option (Token Nat) → Alloc (Option (Token Nat))
  | none => pure none
  | some t => do
    let addr ← new
    pure (some ⟨⟨addr, t.z.text⟩, t.n, true⟩)

/-- `if (p->a[i].zName) __dbsql_strdup(…)` -/
def nameDup : Option (Str Nat) → Alloc (Option (Str Nat))
  | none => pure none
  | some s => strdup (some s)

/-- The span of an expression in a list. -/
def spanDup (old_expr : Expr Nat) (new_expr : Expr Nat) : Alloc (Expr Nat) :=
  match old_expr, new_expr with
  | .null, _ => fault
  | .node _ _ _ _ _, .null => pure .null
  | .node old _ _ _ _, .node d pLeft pRight pList pSelect =>
    match old.span with
    | none => pure (.node d pLeft pRight pList pSelect)
    | some t => do
      let span ← tokenCopy nullRead t
      pure (.node { d with span := some span } pLeft pRight pList pSelect)

def idItemsDup : List (IdItem Nat) → Alloc (List (IdItem Nat))
  | [] => pure []
  | old_item :: rest => do
    let zName ← strdup old_item.zName
    let a ← idItemsDup rest
    pure (⟨zName, old_item.idx⟩ :: a)

/-- `__id_list_dup` -/
def idListDup : Option (IdList Nat) → Alloc (Option (IdList Nat))
  | none => pure none
  | some p => do
    let addr ← new
    let block ← new
    let a ← idItemsDup p.a
    pure (some ⟨addr, some block, a⟩)

mutual
/-- `__expr_dup` -/
def exprDup : Expr Nat → Alloc (Expr Nat)
  | .null => pure .null
  | .node d pLeft pRight pList pSelect => do
    let addr ← new
    let token ← tokenDup d.token
    let pLeft ← exprDup pLeft
    let pRight ← exprDup pRight
    let pList ← exprListDup pList
    let pSelect ← selectDup pSelect
    pure (.node { d with addr := addr, token := token, span := none } pLeft pRight pList pSelect)

/-- `__expr_list_dup` -/
def exprListDup : ExprList Nat → Alloc (ExprList Nat)
  | .null => pure .null
  | .list _ _ a => do
    let addr ← new
    let block ← new
    let a ← exprItemsDup a
    pure (.list addr (some block) a)

def exprItemsDup : ExprItems Nat → Alloc (ExprItems Nat)
  | .nil => pure .nil
  | .cons d old_expr rest => do
    let new_expr ← exprDup old_expr
    let new_expr ← spanDup nullRead old_expr new_expr
    let zName ← nameDup d.zName
    let a ← exprItemsDup rest
    pure (.cons ⟨zName, d.sortOrder, d.isAgg, 0⟩ new_expr a)

/-- `__src_list_dup` -/
def srcListDup : SrcList Nat → Alloc (SrcList Nat)
  | .null => pure .null
  | .list _ a => do
    let addr ← new
    let a ← srcItemsDup a
    pure (.list addr a)

def srcItemsDup : SrcItems Nat → Alloc (SrcItems Nat)
  | .nil => pure .nil
  | .cons old_item pSelect pOn pUsing rest => do
    let zDatabase ← strdup old_item.zDatabase
    let zName ← strdup old_item.zName
    let zAlias ← strdup old_item.zAlias
    let pSelect ← selectDup pSelect
    let pOn ← exprDup pOn
    let pUsing ← idListDup pUsing
    let a ← srcItemsDup rest
    pure (.cons ⟨zDatabase, zName, zAlias, none, old_item.jointype, old_item.iCursor⟩
      pSelect pOn pUsing a)

/-- `__select_dup` -/
def selectDup : Select Nat → Alloc (Select Nat)
  | .null => pure .null
  | .node p pEList pSrc pWhere pGroupBy pHaving pOrderBy pPrior => do
    let addr ← new
    let pEList ← exprListDup pEList
    let pSrc ← srcListDup pSrc
    let pWhere ← exprDup pWhere
    let pGroupBy ← exprListDup pGroupBy
    let pHaving ← exprDup pHaving
    let pOrderBy ← exprListDup pOrderBy
    let pPrior ← selectDup pPrior
    pure (.node ⟨addr, p.op, p.isDistinct, p.nLimit, p.nOffset, -1, -1, none⟩
      pEList pSrc pWhere pGroupBy pHaving pOrderBy pPrior)
end

/-! ## What a copy has to be -/

section
variable {A : Type}

def Str.strip (s : Str A) : Str Unit := ⟨(), s.text⟩

def Token.strip (t : Token A) : Token Unit := ⟨⟨(), t.z.text.take t.n⟩, t.n, false⟩

def ExprData.strip (d : ExprData A) : ExprData Unit :=
  { d with addr := (), token := d.token.map Token.strip, span := none }

def ExprItem.strip (d : ExprItem A) : ExprItem Unit :=
  { d with zName := d.zName.map Str.strip, done := 0 }

def IdItem.strip (d : IdItem A) : IdItem Unit := { d with zName := d.zName.map Str.strip }

def IdList.strip (p : IdList A) : IdList Unit := ⟨(), none, p.a.map IdItem.strip⟩

def SrcItem.strip (d : SrcItem A) : SrcItem Unit :=
  { d with
    zDatabase := d.zDatabase.map Str.strip
    zName := d.zName.map Str.strip
    zAlias := d.zAlias.map Str.strip
    pTab := none }

def SelectData.strip (d : SelectData A) : SelectData Unit :=
  { d with addr := (), iLimit := -1, iOffset := -1, zSelect := none }

/-- The span of an expression. -/
def Expr.span : Expr A → Option (Token A)
  | .null => none
  | .node d _ _ _ _ => d.span

def Expr.setSpan (span : Option (Token A)) : Expr A → Expr A
  | .null => .null
  | .node d pLeft pRight pList pSelect => .node { d with span := span } pLeft pRight pList pSelect

mutual
def Expr.strip : Expr A → Expr Unit
  | .null => .null
  | .node d pLeft pRight pList pSelect =>
    .node d.strip pLeft.strip pRight.strip pList.strip pSelect.strip

def ExprList.strip : ExprList A → ExprList Unit
  | .null => .null
  | .list _ _ a => .list () none a.strip

/-- An expression in a list keeps its span. -/
def ExprItems.strip : ExprItems A → ExprItems Unit
  | .nil => .nil
  | .cons d pExpr rest =>
    .cons d.strip (pExpr.strip.setSpan (pExpr.span.map Token.strip)) rest.strip

def SrcList.strip : SrcList A → SrcList Unit
  | .null => .null
  | .list _ a => .list () a.strip

def SrcItems.strip : SrcItems A → SrcItems Unit
  | .nil => .nil
  | .cons d pSelect pOn pUsing rest =>
    .cons d.strip pSelect.strip pOn.strip (pUsing.map IdList.strip) rest.strip

def Select.strip : Select A → Select Unit
  | .null => .null
  | .node d pEList pSrc pWhere pGroupBy pHaving pOrderBy pPrior =>
    .node d.strip pEList.strip pSrc.strip pWhere.strip pGroupBy.strip pHaving.strip pOrderBy.strip
      pPrior.strip
end

def Token.owned (t : Token A) : List A := if t.dyn then [t.z.addr] else []

def ownedToken (t : Option (Token A)) : List A := (t.map Token.owned).getD []

def ownedStr (s : Option (Str A)) : List A := (s.map fun s => [s.addr]).getD []

def IdList.owned (p : IdList A) : List A :=
  p.addr :: p.block.toList ++ p.a.flatMap fun d => ownedStr d.zName

def ownedIds (p : Option (IdList A)) : List A := (p.map IdList.owned).getD []

mutual
/-- The blocks that `__expr_delete` frees. -/
def Expr.owned : Expr A → List A
  | .null => []
  | .node d pLeft pRight pList pSelect =>
    d.addr :: (ownedToken d.token ++ ownedToken d.span ++
      (pLeft.owned ++ pRight.owned ++ pList.owned ++ pSelect.owned))

def ExprList.owned : ExprList A → List A
  | .null => []
  | .list addr block a => addr :: (block.toList ++ a.owned)

def ExprItems.owned : ExprItems A → List A
  | .nil => []
  | .cons d pExpr rest => ownedStr d.zName ++ pExpr.owned ++ rest.owned

def SrcList.owned : SrcList A → List A
  | .null => []
  | .list addr a => addr :: a.owned

def SrcItems.owned : SrcItems A → List A
  | .nil => []
  | .cons d pSelect pOn pUsing rest =>
    ownedStr d.zDatabase ++ ownedStr d.zName ++ ownedStr d.zAlias ++
      (pSelect.owned ++ pOn.owned ++ ownedIds pUsing ++ rest.owned)

def Select.owned : Select A → List A
  | .null => []
  | .node d pEList pSrc pWhere pGroupBy pHaving pOrderBy pPrior =>
    d.addr :: (ownedStr d.zSelect ++ (pEList.owned ++ pSrc.owned ++ pWhere.owned ++
      pGroupBy.owned ++ pHaving.owned ++ pOrderBy.owned ++ pPrior.owned))
end
end

/-! ## Which trees can be copied -/

/-- Every identifier has its name. -/
def IdList.Named (p : IdList Nat) : Prop := ∀ d ∈ p.a, d.zName ≠ none

mutual
/-- No text read is a null pointer, and no span is copied where `nullRead` is not set. -/
def Expr.Copyable : Expr Nat → Prop
  | .null => True
  | .node _ pLeft pRight pList pSelect =>
    pLeft.Copyable ∧ pRight.Copyable ∧ pList.Copyable ∧ pSelect.Copyable

def ExprList.Copyable : ExprList Nat → Prop
  | .null => True
  | .list _ _ a => a.Copyable

def ExprItems.Copyable : ExprItems Nat → Prop
  | .nil => True
  | .cons _ pExpr rest =>
    (∃ d pLeft pRight pList pSelect, pExpr = .node d pLeft pRight pList pSelect ∧
      (d.span = none ∨ nullRead)) ∧
    pExpr.Copyable ∧ rest.Copyable

def SrcList.Copyable : SrcList Nat → Prop
  | .null => True
  | .list _ a => a.Copyable

def SrcItems.Copyable : SrcItems Nat → Prop
  | .nil => True
  | .cons d pSelect pOn pUsing rest =>
    (d.zDatabase ≠ none ∧ d.zName ≠ none ∧ d.zAlias ≠ none) ∧
    pSelect.Copyable ∧ pOn.Copyable ∧ (∀ p ∈ pUsing, p.Named) ∧ rest.Copyable

def Select.Copyable : Select Nat → Prop
  | .null => True
  | .node _ pEList pSrc pWhere pGroupBy pHaving pOrderBy pPrior =>
    pEList.Copyable ∧ pSrc.Copyable ∧ pWhere.Copyable ∧ pGroupBy.Copyable ∧ pHaving.Copyable ∧
      pOrderBy.Copyable ∧ pPrior.Copyable
end

/-! ## Copies of trees that can be copied -/

section
variable {α β : Type} (strip : α → β) (owned : α → List Nat)

/-- `q` is `p` but for what a copy drops, and lies in blocks from `m` on. -/
def CopyOf (m : Nat) (p q : α) : Prop := strip q = strip p ∧ ∀ x ∈ owned q, m ≤ x
end

variable {nullRead} {m : Nat}

theorem strdup_makes {z : Option (Str Nat)} (h : z ≠ none) :
    Makes m (strdup z) (CopyOf (Option.map Str.strip) ownedStr m z) := by
  cases z with
  | none => exact absurd rfl h
  | some s =>
    refine makes_new.bind fun addr ha => .pure ⟨rfl, ?_⟩
    simpa [ownedStr] using ha

theorem nameDup_makes (z : Option (Str Nat)) :
    Makes m (nameDup z) (CopyOf (Option.map Str.strip) ownedStr m z) := by
  cases z with
  | none => exact .pure ⟨rfl, nofun⟩
  | some s => exact strdup_makes (Option.some_ne_none s)

theorem tokenDup_makes (t : Option (Token Nat)) :
    Makes m (tokenDup t) (CopyOf (Option.map Token.strip) ownedToken m t) := by
  cases t with
  | none => exact .pure ⟨rfl, nofun⟩
  | some t =>
    refine makes_new.bind fun addr ha => .pure ⟨rfl, ?_⟩
    simpa [ownedToken, Token.owned] using ha

theorem tokenCopy_makes (t : Token Nat) :
    Makes m (tokenCopy true t) (CopyOf Token.strip Token.owned m t) := by
  refine Makes.bind (P := fun z => m ≤ z.addr ∧ z.text = t.z.text.take t.n) ?_ fun z hz => ?_
  · exact makes_new.bind fun addr ha => .pure ⟨ha, rfl⟩
  · refine .pure ⟨?_, ?_⟩
    · simp [Token.strip, hz.2]
    · simpa [Token.owned] using hz.1

theorem idItemsDup_makes : ∀ (a : List (IdItem Nat)), (∀ d ∈ a, d.zName ≠ none) →
    Makes m (idItemsDup a)
      (CopyOf (List.map IdItem.strip) (List.flatMap fun d => ownedStr d.zName) m a)
  | [], _ => .pure ⟨rfl, nofun⟩
  | d :: rest, h => by
    rw [List.forall_mem_cons] at h
    refine (strdup_makes h.1).bind fun zName hz => ?_
    refine (idItemsDup_makes rest h.2).bind fun a ha => .pure ⟨?_, ?_⟩
    · rw [List.map_cons, List.map_cons, ha.1]
      simp [IdItem.strip, hz.1]
    · rw [List.flatMap_cons, List.forall_mem_append]
      exact ⟨hz.2, ha.2⟩

theorem idListDup_makes (p : Option (IdList Nat)) (h : ∀ l ∈ p, l.Named) :
    Makes m (idListDup p) (CopyOf (Option.map IdList.strip) ownedIds m p) := by
  cases p with
  | none => exact .pure ⟨rfl, nofun⟩
  | some p =>
    refine makes_new.bind fun addr ha => makes_new.bind fun block hb => ?_
    refine (idItemsDup_makes p.a (h p rfl)).bind fun a hc => .pure ⟨?_, ?_⟩
    · simp [IdList.strip, hc.1]
    · simpa [ownedIds, IdList.owned, ha, hb] using hc.2

/-- The span is put into the copy of an expression that has none. -/
theorem spanDup_makes {old_expr new_expr : Expr Nat}
    (h : ∃ d pLeft pRight pList pSelect, old_expr = .node d pLeft pRight pList pSelect ∧
      (d.span = none ∨ nullRead))
    (hq : CopyOf Expr.strip Expr.owned m old_expr new_expr) (hs : new_expr.span = none) :
    Makes m (spanDup nullRead old_expr new_expr)
      (CopyOf (fun p => p.strip.setSpan (p.span.map Token.strip)) Expr.owned m old_expr) := by
  obtain ⟨old, l, r, li, s, rfl, hspan⟩ := h
  obtain ⟨hstrip, hown⟩ := hq
  cases new_expr with
  | null => cases hstrip
  | node d l' r' li' s' =>
    have hd : d.strip = old.strip := by injection hstrip
    have hnone : d.span = none := hs
    cases ht : old.span with
    | none =>
      have hrun : spanDup nullRead (.node old l r li s) (.node d l' r' li' s') =
          pure (.node d l' r' li' s') := by simp [spanDup, ht]
      rw [hrun]
      refine .pure ⟨?_, hown⟩
      show Expr.setSpan (d.span.map _) _ = Expr.setSpan (old.span.map _) _
      rw [hnone, ht, hstrip]
    | some t =>
      have hn : nullRead = true := hspan.resolve_left (by rw [ht]; exact Option.some_ne_none t)
      have hrun : spanDup nullRead (.node old l r li s) (.node d l' r' li' s') =
          tokenCopy nullRead t >>= fun span =>
            pure (.node { d with span := some span } l' r' li' s') := by simp [spanDup, ht]
      rw [hrun, hn]
      refine (tokenCopy_makes t).bind fun span hsp => .pure ⟨?_, ?_⟩
      · have hnew : (Expr.node { d with span := some span } l' r' li' s').strip =
            (Expr.node old l r li s).strip := hstrip
        show Expr.setSpan (some span.strip) _ = Expr.setSpan (old.span.map _) _
        rw [hnew, ht, hsp.1]
        rfl
      · intro x hx
        simp only [Expr.owned, hnone, List.mem_cons, List.mem_append] at hx hown
        rcases hx with hx | (hx | hx) | hx
        · exact hown x (.inl hx)
        · exact hown x (.inr (.inl (.inl hx)))
        · exact hsp.2 x hx
        · exact hown x (.inr (.inr hx))

mutual
/-- The copy of an expression has no span, whatever `span.dyn` was. -/
theorem exprDup_makes : ∀ p : Expr Nat, p.Copyable nullRead →
    Makes m (exprDup nullRead p) fun q => CopyOf Expr.strip Expr.owned m p q ∧ q.span = none
  | .null, _ => .pure ⟨⟨rfl, nofun⟩, rfl⟩
  | .node d pLeft pRight pList pSelect, h => by
    refine makes_new.bind fun addr ha => (tokenDup_makes d.token).bind fun token ht => ?_
    refine (exprDup_makes pLeft h.1).bind fun l hl => ?_
    refine (exprDup_makes pRight h.2.1).bind fun r hr => ?_
    refine (exprListDup_makes pList h.2.2.1).bind fun li hli => ?_
    refine (selectDup_makes pSelect h.2.2.2).bind fun s hs => .pure ⟨⟨?_, ?_⟩, rfl⟩
    · simp [Expr.strip, ExprData.strip, ht.1, hl.1.1, hr.1.1, hli.1, hs.1]
    · simp only [Expr.owned, List.forall_mem_cons, List.forall_mem_append]
      exact ⟨ha, ⟨ht.2, nofun⟩, ⟨⟨hl.1.2, hr.1.2⟩, hli.2⟩, hs.2⟩

theorem exprListDup_makes : ∀ p : ExprList Nat, p.Copyable nullRead →
    Makes m (exprListDup nullRead p) (CopyOf ExprList.strip ExprList.owned m p)
  | .null, _ => .pure ⟨rfl, nofun⟩
  | .list _ _ a, h => by
    refine makes_new.bind fun addr ha => makes_new.bind fun block hb => ?_
    refine (exprItemsDup_makes a h).bind fun a' hc => .pure ⟨?_, ?_⟩
    · simp [ExprList.strip, hc.1]
    · simpa [ExprList.owned, ha, hb] using hc.2

theorem exprItemsDup_makes : ∀ a : ExprItems Nat, a.Copyable nullRead →
    Makes m (exprItemsDup nullRead a) (CopyOf ExprItems.strip ExprItems.owned m a)
  | .nil, _ => .pure ⟨rfl, nofun⟩
  | .cons d pExpr rest, h => by
    refine (exprDup_makes pExpr h.2.1).bind fun q hq => ?_
    refine (spanDup_makes h.1 hq.1 hq.2).bind fun q' hq' => ?_
    refine (nameDup_makes d.zName).bind fun zName hz => ?_
    refine (exprItemsDup_makes rest h.2.2).bind fun a ha => .pure ⟨?_, ?_⟩
    · simp [ExprItems.strip, ExprItem.strip, hq'.1, hz.1, ha.1]
    · simp only [ExprItems.owned, List.forall_mem_append]
      exact ⟨⟨hz.2, hq'.2⟩, ha.2⟩

theorem srcListDup_makes : ∀ p : SrcList Nat, p.Copyable nullRead →
    Makes m (srcListDup nullRead p) (CopyOf SrcList.strip SrcList.owned m p)
  | .null, _ => .pure ⟨rfl, nofun⟩
  | .list _ a, h => by
    refine makes_new.bind fun addr ha => (srcItemsDup_makes a h).bind fun a' hc => .pure ⟨?_, ?_⟩
    · simp [SrcList.strip, hc.1]
    · simpa [SrcList.owned, ha] using hc.2

theorem srcItemsDup_makes : ∀ a : SrcItems Nat, a.Copyable nullRead →
    Makes m (srcItemsDup nullRead a) (CopyOf SrcItems.strip SrcItems.owned m a)
  | .nil, _ => .pure ⟨rfl, nofun⟩
  | .cons d pSelect pOn pUsing rest, h => by
    obtain ⟨⟨hdb, hname, halias⟩, hsel, hon, husing, hrest⟩ := h
    refine (strdup_makes hdb).bind fun zDatabase h₁ => (strdup_makes hname).bind fun zName h₂ => ?_
    refine (strdup_makes halias).bind fun zAlias h₃ => ?_
    refine (selectDup_makes pSelect hsel).bind fun s h₄ => ?_
    refine (exprDup_makes pOn hon).bind fun on h₅ => ?_
    refine (idListDup_makes pUsing husing).bind fun u h₆ => ?_
    refine (srcItemsDup_makes rest hrest).bind fun a h₇ => .pure ⟨?_, ?_⟩
    · simp [SrcItems.strip, SrcItem.strip, h₁.1, h₂.1, h₃.1, h₄.1, h₅.1.1, h₆.1, h₇.1]
    · simp only [SrcItems.owned, List.forall_mem_append]
      exact ⟨⟨⟨h₁.2, h₂.2⟩, h₃.2⟩, ⟨⟨h₄.2, h₅.1.2⟩, h₆.2⟩, h₇.2⟩

theorem selectDup_makes : ∀ p : Select Nat, p.Copyable nullRead →
    Makes m (selectDup nullRead p) (CopyOf Select.strip Select.owned m p)
  | .null, _ => .pure ⟨rfl, nofun⟩
  | .node d pEList pSrc pWhere pGroupBy pHaving pOrderBy pPrior, h => by
    obtain ⟨hE, hS, hW, hG, hH, hO, hP⟩ := h
    refine makes_new.bind fun addr ha => (exprListDup_makes pEList hE).bind fun e h₁ => ?_
    refine (srcListDup_makes pSrc hS).bind fun src h₂ => ?_
    refine (exprDup_makes pWhere hW).bind fun w h₃ => ?_
    refine (exprListDup_makes pGroupBy hG).bind fun g h₄ => ?_
    refine (exprDup_makes pHaving hH).bind fun hv h₅ => ?_
    refine (exprListDup_makes pOrderBy hO).bind fun o h₆ => ?_
    refine (selectDup_makes pPrior hP).bind fun p h₇ => .pure ⟨?_, ?_⟩
    · simp [Select.strip, SelectData.strip, h₁.1, h₂.1, h₃.1.1, h₄.1, h₅.1.1, h₆.1, h₇.1]
    · simp only [Select.owned, List.forall_mem_cons, List.forall_mem_append]
      exact ⟨ha, nofun, ⟨⟨⟨⟨⟨h₁.2, h₂.2⟩, h₃.1.2⟩, h₄.2⟩, h₅.1.2⟩, h₆.2⟩, h₇.2⟩
end

/-! ## What is copied can be copied -/

theorem named_of_strdup {z : Option (Str Nat)} (h : Ends (strdup z)) : z ≠ none := by
  cases z with
  | none => exact absurd h not_ends_fault
  | some s => exact Option.some_ne_none s

theorem named_of_idItemsDup : ∀ a : List (IdItem Nat), Ends (idItemsDup a) →
    ∀ d ∈ a, d.zName ≠ none
  | [], _ => nofun
  | d :: rest, h => by
    obtain ⟨hz, _, -, h⟩ := h.of_bind
    rw [List.forall_mem_cons]
    exact ⟨named_of_strdup hz, named_of_idItemsDup rest h.of_bind.1⟩

theorem named_of_idListDup {p : Option (IdList Nat)} (h : Ends (idListDup p)) :
    ∀ l ∈ p, l.Named := by
  cases p with
  | none => nofun
  | some p =>
    obtain ⟨-, _, -, h⟩ := h.of_bind
    obtain ⟨-, _, -, h⟩ := h.of_bind
    simpa [IdList.Named] using named_of_idItemsDup p.a h.of_bind.1

theorem nullRead_of_tokenCopy {t : Token Nat} (h : Ends (tokenCopy nullRead t)) : nullRead := by
  have h := h.of_bind.1
  unfold strndup at h
  split at h
  · assumption
  · exact absurd h not_ends_fault

theorem span_of_spanDup {old_expr new_expr : Expr Nat}
    (hnull : new_expr = .null → old_expr = .null) (h : Ends (spanDup nullRead old_expr new_expr)) :
    ∃ d pLeft pRight pList pSelect, old_expr = .node d pLeft pRight pList pSelect ∧
      (d.span = none ∨ nullRead) := by
  cases old_expr with
  | null => exact absurd h not_ends_fault
  | node old l r li s =>
    refine ⟨old, l, r, li, s, rfl, ?_⟩
    cases new_expr with
    | null => cases hnull rfl
    | node d l' r' li' s' =>
      cases ht : old.span with
      | none => exact .inl rfl
      | some t =>
        simp only [spanDup, ht] at h
        exact .inr (nullRead_of_tokenCopy h.of_bind.1)

/-- Only of a null pointer the copy is one. -/
theorem null_of_exprDup {p q : Expr Nat} (h : Alloc.Yields (exprDup nullRead p) q) (hq : q = .null) :
    p = .null := by
  cases p with
  | null => rfl
  | node d l r li s =>
    obtain ⟨_, -, h⟩ := h.of_bind
    obtain ⟨_, -, h⟩ := h.of_bind
    obtain ⟨_, -, h⟩ := h.of_bind
    obtain ⟨_, -, h⟩ := h.of_bind
    obtain ⟨_, -, h⟩ := h.of_bind
    obtain ⟨_, -, h⟩ := h.of_bind
    rw [h.of_pure] at hq
    cases hq

mutual
theorem copyable_of_exprDup : ∀ p : Expr Nat, Ends (exprDup nullRead p) → p.Copyable nullRead
  | .null, _ => trivial
  | .node d pLeft pRight pList pSelect, h => by
    obtain ⟨-, _, -, h⟩ := h.of_bind
    obtain ⟨-, _, -, h⟩ := h.of_bind
    obtain ⟨hl, _, -, h⟩ := h.of_bind
    obtain ⟨hr, _, -, h⟩ := h.of_bind
    obtain ⟨hli, _, -, h⟩ := h.of_bind
    exact ⟨copyable_of_exprDup pLeft hl, copyable_of_exprDup pRight hr,
      copyable_of_exprListDup pList hli, copyable_of_selectDup pSelect h.of_bind.1⟩

theorem copyable_of_exprListDup : ∀ p : ExprList Nat, Ends (exprListDup nullRead p) →
    p.Copyable nullRead
  | .null, _ => trivial
  | .list _ _ a, h => by
    obtain ⟨-, _, -, h⟩ := h.of_bind
    obtain ⟨-, _, -, h⟩ := h.of_bind
    exact copyable_of_exprItemsDup a h.of_bind.1

theorem copyable_of_exprItemsDup : ∀ a : ExprItems Nat, Ends (exprItemsDup nullRead a) →
    a.Copyable nullRead
  | .nil, _ => trivial
  | .cons d pExpr rest, h => by
    obtain ⟨he, q, hq, h⟩ := h.of_bind
    obtain ⟨hs, _, -, h⟩ := h.of_bind
    obtain ⟨-, _, -, h⟩ := h.of_bind
    exact ⟨span_of_spanDup (null_of_exprDup hq) hs, copyable_of_exprDup pExpr he,
      copyable_of_exprItemsDup rest h.of_bind.1⟩

theorem copyable_of_srcListDup : ∀ p : SrcList Nat, Ends (srcListDup nullRead p) →
    p.Copyable nullRead
  | .null, _ => trivial
  | .list _ a, h => by
    obtain ⟨-, _, -, h⟩ := h.of_bind
    exact copyable_of_srcItemsDup a h.of_bind.1

theorem copyable_of_srcItemsDup : ∀ a : SrcItems Nat, Ends (srcItemsDup nullRead a) →
    a.Copyable nullRead
  | .nil, _ => trivial
  | .cons d pSelect pOn pUsing rest, h => by
    obtain ⟨hdb, _, -, h⟩ := h.of_bind
    obtain ⟨hname, _, -, h⟩ := h.of_bind
    obtain ⟨halias, _, -, h⟩ := h.of_bind
    obtain ⟨hsel, _, -, h⟩ := h.of_bind
    obtain ⟨hon, _, -, h⟩ := h.of_bind
    obtain ⟨husing, _, -, h⟩ := h.of_bind
    exact ⟨⟨named_of_strdup hdb, named_of_strdup hname, named_of_strdup halias⟩,
      copyable_of_selectDup pSelect hsel, copyable_of_exprDup pOn hon, named_of_idListDup husing,
      copyable_of_srcItemsDup rest h.of_bind.1⟩

theorem copyable_of_selectDup : ∀ p : Select Nat, Ends (selectDup nullRead p) →
    p.Copyable nullRead
  | .null, _ => trivial
  | .node d pEList pSrc pWhere pGroupBy pHaving pOrderBy pPrior, h => by
    obtain ⟨-, _, -, h⟩ := h.of_bind
    obtain ⟨hE, _, -, h⟩ := h.of_bind
    obtain ⟨hS, _, -, h⟩ := h.of_bind
    obtain ⟨hW, _, -, h⟩ := h.of_bind
    obtain ⟨hG, _, -, h⟩ := h.of_bind
    obtain ⟨hH, _, -, h⟩ := h.of_bind
    obtain ⟨hO, _, -, h⟩ := h.of_bind
    exact ⟨copyable_of_exprListDup pEList hE, copyable_of_srcListDup pSrc hS,
      copyable_of_exprDup pWhere hW, copyable_of_exprListDup pGroupBy hG,
      copyable_of_exprDup pHaving hH, copyable_of_exprListDup pOrderBy hO,
      copyable_of_selectDup pPrior h.of_bind.1⟩
end

/-! ## Exactly when a tree is copied -/

section
variable {α β : Type} (dup : α → Alloc α) (strip : α → β) (owned : α → List Nat)

/-- Where `next` is the first free address, `dup p` is a copy that shares no block with `p`. -/
def Copied (next : Nat) (p : α) : Prop :=
  ∃ q n, dup p next = some (q, n) ∧ strip q = strip p ∧ (owned q).Disjoint (owned p)

variable {dup strip owned} {next : Nat} {p : α}

theorem copied_of_makes (hp : ∀ x ∈ owned p, x < next)
    (h : Makes next (dup p) (CopyOf strip owned next p)) : Copied dup strip owned next p := by
  obtain ⟨q, n, hrun, -, hstrip, hown⟩ := h next (Nat.le_refl _)
  refine ⟨q, n, hrun, hstrip, fun x hq hx => ?_⟩
  have hlo := hown x hq
  have hhi := hp x hx
  omega

theorem Copied.ends (h : Copied dup strip owned next p) : Ends (dup p) := by
  obtain ⟨q, n, hrun, -⟩ := h
  exact ⟨q, next, n, hrun⟩
end

/-- **A tree is copied exactly if the names that are read are there.** -/
theorem copiers_copy_iff (nullRead : Bool) (next : Nat) :
    (∀ p : Expr Nat, (∀ x ∈ p.owned, x < next) →
      (Copied (exprDup nullRead) Expr.strip Expr.owned next p ↔ p.Copyable nullRead)) ∧
    (∀ p : ExprList Nat, (∀ x ∈ p.owned, x < next) →
      (Copied (exprListDup nullRead) ExprList.strip ExprList.owned next p ↔
        p.Copyable nullRead)) ∧
    (∀ p : SrcList Nat, (∀ x ∈ p.owned, x < next) →
      (Copied (srcListDup nullRead) SrcList.strip SrcList.owned next p ↔ p.Copyable nullRead)) ∧
    ∀ p : Select Nat, (∀ x ∈ p.owned, x < next) →
      (Copied (selectDup nullRead) Select.strip Select.owned next p ↔ p.Copyable nullRead) := by
  refine ⟨fun p hp => ⟨fun h => ?_, fun h => ?_⟩, fun p hp => ⟨fun h => ?_, fun h => ?_⟩,
    fun p hp => ⟨fun h => ?_, fun h => ?_⟩, fun p hp => ⟨fun h => ?_, fun h => ?_⟩⟩
  · exact copyable_of_exprDup p h.ends
  · exact copied_of_makes hp ((exprDup_makes p h).mono fun _ hq => hq.1)
  · exact copyable_of_exprListDup p h.ends
  · exact copied_of_makes hp (exprListDup_makes p h)
  · exact copyable_of_srcListDup p h.ends
  · exact copied_of_makes hp (srcListDup_makes p h)
  · exact copyable_of_selectDup p h.ends
  · exact copied_of_makes hp (selectDup_makes p h)

/-- `FROM main.t AS u`, of which each name is a block of its own. -/
def fullFrom : SrcList Nat :=
  .list 0 (.cons ⟨some ⟨1, [109, 97, 105, 110]⟩, some ⟨2, [116]⟩, some ⟨3, [117]⟩, none, 0, -1⟩
    .null .null none .nil)

/-- `FROM t` -/
def bareFrom : SrcList Nat :=
  .list 0 (.cons ⟨none, some ⟨1, [116]⟩, none, none, 0, -1⟩ .null .null none .nil)

theorem copiers_copy_iff_fullFrom : (∀ x ∈ fullFrom.owned, x < 4) ∧
    Copied (srcListDup false) SrcList.strip SrcList.owned 4 fullFrom :=
  have h : ∀ x ∈ fullFrom.owned, x < 4 := by decide
  ⟨h, ((copiers_copy_iff false 4).2.2.1 fullFrom h).2
    ⟨⟨nofun, nofun, nofun⟩, trivial, trivial, nofun, trivial⟩⟩

/-- The copy of a FROM list takes the length of a database name that is not there. -/
theorem bareFrom_not_copied : (∀ x ∈ bareFrom.owned, x < 2) ∧
    srcListDup true bareFrom 2 = none ∧
    ¬ Copied (srcListDup true) SrcList.strip SrcList.owned 2 bareFrom :=
  ⟨by decide, rfl, fun ⟨_, _, h, _⟩ => nomatch h⟩

end
end Dbsql.L5.Ast
