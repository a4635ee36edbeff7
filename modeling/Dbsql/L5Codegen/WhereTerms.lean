import Dbsql.Core.Seats
import Dbsql.L5Codegen.ExprTree
/-!
# The terms of a WHERE clause (cg_where.c:28-227, 482-553)

`__where_begin` splits the WHERE clause at its ANDs. Which tables a term mentions it keeps in a word
of 32 bits: a cursor gets the next bit when it first comes up, and none when all are taken. The
cursors of a trigger come up after each term, and their bits are taken out again.

A word here is a union of bits of the cursors that have one in the end, since a cursor keeps its bit.

Results:
* `exprTableUsage_eq`: the word of a tree is the bits of the cursors it mentions.
* `analyzeTerms_spec`: so are the words of the terms, without the cursors of the trigger.
-/
namespace Dbsql.L5.Where
open Dbsql.Core.Seats Dbsql.L1 Dbsql.L5.Tree

/-! ## Terms -/

/-- A node with this operator. -/
def isOp (op : Tk) : Node → Bool
  | .null => false
  | .node d _ _ _ _ => d.op == op

def isNull : Node → Bool
  | .null => true
  | .node _ _ _ _ _ => false

def pLeft : Node → Node
  | .null => .null
  | .node _ l _ _ _ => l

def pRight : Node → Node
  | .null => .null
  | .node _ _ r _ _ => r

def pList : Node → Nodes
  | .null => .null
  | .node _ _ _ list _ => list

/-- `__expr_split` (cg_where.c:72-93). -/
def exprSplit (numSlot : Nat) : Node → List Node
  | .null => []
  | .node d l r list sel =>
    if numSlot < 1 then []
    else if numSlot = 1 ∨ d.op ≠ .and then [.node d l r list sel]
    else if !isOp .and l then l :: exprSplit (numSlot - 1) r
    else exprSplit numSlot l ++ exprSplit (numSlot - (exprSplit numSlot l).length) r

mutual
/-- `__expr_is_constant` (cg_expr.c:436-484); a pointer that is null is not looked at. -/
def exprIsConstant : Node → Bool
  | .null => true
  | .node d l r list _ =>
    match d.op with
    | .id | .column | .dot | .function => false
    | .null | .lit _ | .variable_ => true
    | _ =>
      exprIsConstant l && exprIsConstant r && allConstant list &&
        (!isNull l || !isNull r || decide (0 < list.nExpr))

/-- The loop over `pList`. -/
def allConstant : Nodes → Bool
  | .null | .nil => true
  | .cons e rest => exprIsConstant e && allConstant rest
end

/-! ## The bits of the cursors -/

/-- `expr_mask_set_t`; `n` is the length of `ix`. -/
structure MaskSet where
  ix : List Int
  nodup : ix.Nodup
  n_le : ix.length ≤ 32

def MaskSet.empty : MaskSet := ⟨[], List.nodup_nil, Nat.zero_le 32⟩

/-- `__get_cursor_bitmask` (cg_where.c:103-119). -/
def getCursorBitmask (maskSet : MaskSet) (cursor : Int) : BitVec 32 × MaskSet :=
  if hmem : cursor ∈ maskSet.ix then (1#32 <<< maskSet.ix.idxOf cursor, maskSet)
  else if h : maskSet.ix.length < 32 then
    (1#32 <<< maskSet.ix.length, ⟨maskSet.ix ++ [cursor],
      seat_of_new hmem h ▸ nodup_seat maskSet.nodup cursor,
      seat_of_new hmem h ▸ length_seat_le maskSet.n_le cursor⟩)
  else (0#32, maskSet)

mutual
/-- `__expr_table_usage` (cg_where.c:144-168). -/
def exprTableUsage (maskSet : MaskSet) : Node → BitVec 32 × MaskSet
  | .null => (0#32, maskSet)
  | .node d l r list _ =>
    if d.op = .column then getCursorBitmask maskSet d.iTable
    else
      let (right, maskSet) := exprTableUsage maskSet r
      let (left, maskSet) := exprTableUsage maskSet l
      let (rest, maskSet) := listTableUsage maskSet list
      (right ||| left ||| rest, maskSet)

/-- The loop over `pList`. -/
def listTableUsage (maskSet : MaskSet) : Nodes → BitVec 32 × MaskSet
  | .null | .nil => (0#32, maskSet)
  | .cons e rest =>
    let (mask, maskSet) := exprTableUsage maskSet e
    let (masks, maskSet) := listTableUsage maskSet rest
    (mask ||| masks, maskSet)
end

/-- `__allowed_op` (cg_where.c:178-193). -/
def allowedOp : Tk → Bool
  | .compare .lt | .compare .le | .compare .gt | .compare .ge | .compare .eq | .in_ => true
  | _ => false

/-- `expr_info_t`; what is read of it. An index of -1 is none. -/
structure ExprInfo where
  p : Node
  idxLeft : Option Int
  idxRight : Option Int
  prereqLeft : BitVec 32
  prereqRight : BitVec 32
  prereqAll : BitVec 32

/-- `iTable` of a column. -/
def columnOf : Node → Option Int
  | .null => none
  | .node d _ _ _ _ => if d.op = .column then some d.iTable else none

/-- `__allowed_op(expr->op)`. -/
def indexOp : Node → Bool
  | .null => false
  | .node d _ _ _ _ => allowedOp d.op

/-- `__expr_analyze` (cg_where.c:202-227). -/
def exprAnalyze (maskSet : MaskSet) (expr : Node) : ExprInfo × MaskSet :=
  let (prereqLeft, maskSet) := exprTableUsage maskSet (pLeft expr)
  let (prereqRight, maskSet) := exprTableUsage maskSet (pRight expr)
  let (prereqAll, maskSet) := exprTableUsage maskSet expr
  let usable := indexOp expr && prereqRight &&& prereqLeft == 0#32
  ({ p := expr
     idxLeft := if usable then columnOf (pLeft expr) else none
     idxRight := if usable then columnOf (pRight expr) else none
     prereqLeft, prereqRight, prereqAll }, maskSet)

/-- `trigger_stack_t`. -/
structure TrigStack where
  newIdx : Int
  oldIdx : Int

/-- A cursor of a trigger is taken out of the words of a term. -/
def maskOut (x : Int) (info : ExprInfo) (maskSet : MaskSet) : ExprInfo × MaskSet :=
  if 0 ≤ x then
    let (b, maskSet) := getCursorBitmask maskSet x
    ({ info with
        prereqLeft := info.prereqLeft &&& ~~~b
        prereqRight := info.prereqRight &&& ~~~b
        prereqAll := info.prereqAll &&& ~~~b }, maskSet)
  else (info, maskSet)

/-- The loop that analyzes the terms (cg_where.c:532-553). -/
def analyzeTerms (trigStack : Option TrigStack) : List Node → MaskSet → List ExprInfo × MaskSet
  | [], maskSet => ([], maskSet)
  | p :: terms, maskSet =>
    let (info, maskSet) := exprAnalyze maskSet p
    let (info, maskSet) :=
      match trigStack with
      | none => (info, maskSet)
      | some t =>
        let (info, maskSet) := maskOut t.newIdx info maskSet
        maskOut t.oldIdx info maskSet
    let (infos, maskSet) := analyzeTerms trigStack terms maskSet
    (info :: infos, maskSet)

/-! ## The cursors that a tree mentions -/

mutual
/-- The cursors of the columns in a tree, as `__expr_table_usage` comes to them. -/
def mentions : Node → List Int
  | .null => []
  | .node d l r list _ => if d.op = .column then [d.iTable] else mentions r ++ mentions l ++ listMentions list

def listMentions : Nodes → List Int
  | .null | .nil => []
  | .cons e rest => mentions e ++ listMentions rest
end

/-- A cursor of a trigger, if there is one. -/
def idxCursor (x : Int) : List Int := if 0 ≤ x then [x] else []

/-- The cursors of a trigger. -/
def trigCursors : Option TrigStack → List Int
  | none => []
  | some t => idxCursor t.newIdx ++ idxCursor t.oldIdx

/-- The cursors that come up when a term is analyzed. -/
def lookups (trigStack : Option TrigStack) (t : Node) : List Int :=
  mentions (pLeft t) ++ mentions (pRight t) ++ mentions t ++ trigCursors trigStack

/-- The cursors without those that are taken out. -/
def visible (hidden cs : List Int) : List Int := cs.filter fun c => decide (c ∉ hidden)

theorem mem_visible {hidden cs : List Int} {c : Int} : c ∈ visible hidden cs ↔ c ∈ cs ∧ c ∉ hidden := by
  rw [visible, List.mem_filter, decide_eq_true_iff]

theorem visible_nil (cs : List Int) : visible [] cs = cs := List.filter_eq_self.2 fun _ _ => rfl

theorem visible_append (hidden hidden' cs : List Int) :
    visible (hidden ++ hidden') cs = visible hidden' (visible hidden cs) := by
  rw [visible, visible, visible, List.filter_filter]
  refine List.filter_congr fun c _ => ?_
  rw [← Bool.decide_and]
  exact decide_eq_decide.2 (by rw [List.mem_append, not_or, and_comm])

theorem mem_mentions_of_left {t : Node} {c : Int} (h : isOp .column t = false) (hc : c ∈ mentions (pLeft t)) :
    c ∈ mentions t := by
  cases t with
  | null => cases hc
  | node d l r list sel =>
    rw [mentions, if_neg (by simpa [isOp] using h)]
    exact List.mem_append_left _ (List.mem_append_right _ hc)

theorem mem_mentions_of_right {t : Node} {c : Int} (h : isOp .column t = false) (hc : c ∈ mentions (pRight t)) :
    c ∈ mentions t := by
  cases t with
  | null => cases hc
  | node d l r list sel =>
    rw [mentions, if_neg (by simpa [isOp] using h)]
    exact List.mem_append_left _ (List.mem_append_left _ hc)

/-- The terms of a clause mention what it mentions. -/
theorem mentions_of_mem_exprSplit : (e : Node) → ∀ {n : Nat} {t : Node} {c : Int}, t ∈ exprSplit n e →
    c ∈ mentions t → c ∈ mentions e
  | .null, n, t, c, ht, _ => by
    rw [exprSplit] at ht
    cases ht
  | .node d l r list sel, n, t, c, ht, hc => by
    have hl : d.op = .and → c ∈ mentions l → c ∈ mentions (.node d l r list sel) := fun hop h =>
      mem_mentions_of_left (by simp [isOp, hop]) h
    have hr : d.op = .and → c ∈ mentions r → c ∈ mentions (.node d l r list sel) := fun hop h =>
      mem_mentions_of_right (by simp [isOp, hop]) h
    unfold exprSplit at ht
    split at ht
    · cases ht
    · split at ht
      · rw [List.mem_singleton.1 ht] at hc
        exact hc
      · next hop =>
        have hand : d.op = .and := not_not.1 (not_or.1 hop).2
        split at ht
        · rcases List.mem_cons.1 ht with rfl | ht
          · exact hl hand hc
          · exact hr hand (mentions_of_mem_exprSplit r ht hc)
        · rcases List.mem_append.1 ht with ht | ht
          · exact hl hand (mentions_of_mem_exprSplit l ht hc)
          · exact hr hand (mentions_of_mem_exprSplit r ht hc)

/-! ## The words are the bits of the cursors -/

section
variable {maskSet : MaskSet} {F : List Int}

theorem getCursorBitmask_ix (maskSet : MaskSet) (cursor : Int) :
    (getCursorBitmask maskSet cursor).2.ix = seat 32 maskSet.ix cursor := by
  unfold getCursorBitmask
  split
  · next h => exact (seat_of_mem h).symm
  · next hmem =>
    split
    · next h => exact (seat_of_new hmem h).symm
    · next h => exact (seat_of_full (Nat.not_lt.1 h)).symm

/-- The bit that a cursor gets is the one it has in the end. -/
theorem getCursorBitmask_eq {cursor : Int} (hF : F.length ≤ 32)
    (hp : (getCursorBitmask maskSet cursor).2.ix <+: F) :
    (getCursorBitmask maskSet cursor).1 = bit 32 F cursor := by
  have hbit : (getCursorBitmask maskSet cursor).1 = bit 32 (seat 32 maskSet.ix cursor) cursor := by
    unfold getCursorBitmask
    split
    · next h => rw [seat_of_mem h, bit, if_pos h]
    · next hmem =>
      split
      · next h =>
        rw [seat_of_new hmem h, bit, if_pos (List.mem_append_right _ (List.mem_singleton_self cursor)),
          List.idxOf_append_of_notMem hmem, List.idxOf_cons_self, Nat.add_zero]
      · next h => rw [seat_of_full (Nat.not_lt.1 h), bit, if_neg hmem]
  rw [getCursorBitmask_ix] at hp
  rw [hbit]
  exact bit_of_prefix hp hF (mem_seat_or_full maskSet.ix cursor)

/-- A word that came up while the cursors `cs` did: their bits. -/
def IsMask (maskSet : MaskSet) (cs : List Int) (res : BitVec 32 × MaskSet) : Prop :=
  res.2.ix = seats 32 maskSet.ix cs ∧
    ∀ F : List Int, F.length ≤ 32 → res.2.ix <+: F → res.1 = mask 32 F cs

theorem IsMask.nil (maskSet : MaskSet) : IsMask maskSet [] (0#32, maskSet) := ⟨rfl, fun _ _ _ => rfl⟩

theorem IsMask.union {cs ds : List Int} {res res' : BitVec 32 × MaskSet} (h : IsMask maskSet cs res)
    (h' : IsMask res.2 ds res') : IsMask maskSet (cs ++ ds) (res.1 ||| res'.1, res'.2) := by
  refine ⟨by rw [seats_append, ← h.1, ← h'.1], fun F hF hp => ?_⟩
  have hp' : res.2.ix <+: res'.2.ix := h'.1 ▸ prefix_seats _ ds
  rw [h.2 F hF (hp'.trans hp), h'.2 F hF hp, mask_append]

theorem IsMask.cursor (maskSet : MaskSet) (c : Int) : IsMask maskSet [c] (getCursorBitmask maskSet c) :=
  ⟨getCursorBitmask_ix maskSet c, fun F hF hp => by rw [mask_singleton, getCursorBitmask_eq hF hp]⟩

mutual
theorem exprTableUsage_eq : (e : Node) → ∀ maskSet, IsMask maskSet (mentions e) (exprTableUsage maskSet e)
  | .null, maskSet => by
    rw [mentions, exprTableUsage]
    exact .nil maskSet
  | .node d l r list sel, maskSet => by
    unfold mentions exprTableUsage
    split
    · exact .cursor maskSet d.iTable
    · exact ((exprTableUsage_eq r maskSet).union (exprTableUsage_eq l _)).union (listTableUsage_eq list _)

theorem listTableUsage_eq : (es : Nodes) → ∀ maskSet, IsMask maskSet (listMentions es) (listTableUsage maskSet es)
  | .null, maskSet => by
    rw [listMentions, listTableUsage]
    exact .nil maskSet
  | .nil, maskSet => by
    rw [listMentions, listTableUsage]
    exact .nil maskSet
  | .cons e rest, maskSet => by
    rw [listMentions, listTableUsage]
    exact (exprTableUsage_eq e maskSet).union (listTableUsage_eq rest _)
end

end

/-! ## The terms -/

/-- What the analysis says of a term, by the bits that the cursors have in the end. -/
structure Analyzed (F hidden : List Int) (t : Node) (info : ExprInfo) : Prop where
  p : info.p = t
  left : info.prereqLeft = mask 32 F (visible hidden (mentions (pLeft t)))
  right : info.prereqRight = mask 32 F (visible hidden (mentions (pRight t)))
  all : info.prereqAll = mask 32 F (visible hidden (mentions t))
  idxLeft : ∀ c, info.idxLeft = some c → indexOp t = true ∧ columnOf (pLeft t) = some c
  idxRight : ∀ c, info.idxRight = some c → indexOp t = true ∧ columnOf (pRight t) = some c

/-- What has been said of a term while the cursors `cs` came up. -/
def IsInfo (maskSet : MaskSet) (cs hidden : List Int) (t : Node) (res : ExprInfo × MaskSet) : Prop :=
  res.2.ix = seats 32 maskSet.ix cs ∧
    ∀ F : List Int, F.Nodup → F.length ≤ 32 → res.2.ix <+: F → Analyzed F hidden t res.1

theorem exprAnalyze_info (maskSet : MaskSet) (t : Node) :
    IsInfo maskSet (mentions (pLeft t) ++ mentions (pRight t) ++ mentions t) [] t (exprAnalyze maskSet t) := by
  have hl := exprTableUsage_eq (pLeft t) maskSet
  have hr := exprTableUsage_eq (pRight t) (exprTableUsage maskSet (pLeft t)).2
  have ha := exprTableUsage_eq t (exprTableUsage (exprTableUsage maskSet (pLeft t)).2 (pRight t)).2
  have hidx : ∀ {side : Option Int} {b : Bool} {c : Int}, (if indexOp t && b then side else none) = some c →
      indexOp t = true ∧ side = some c := by
    intro side b c h
    rw [Option.ite_none_right_eq_some, Bool.and_eq_true] at h
    exact ⟨h.1.1, h.2⟩
  refine ⟨((hl.union hr).union ha).1, fun F _ hF hp => ?_⟩
  have hpr := (ha.1 ▸ prefix_seats _ (mentions t) : _ <+: _).trans hp
  have hpl := (hr.1 ▸ prefix_seats _ (mentions (pRight t)) : _ <+: _).trans hpr
  refine ⟨rfl, ?_, ?_, ?_, fun c hc => hidx hc, fun c hc => hidx hc⟩
  · rw [visible_nil]
    exact hl.2 F hF hpl
  · rw [visible_nil]
    exact hr.2 F hF hpr
  · rw [visible_nil]
    exact ha.2 F hF hp

theorem maskOut_info {maskSet : MaskSet} {cs hidden : List Int} {t : Node} {res : ExprInfo × MaskSet}
    (h : IsInfo maskSet cs hidden t res) (x : Int) :
    IsInfo maskSet (cs ++ idxCursor x) (hidden ++ idxCursor x) t (maskOut x res.1 res.2) := by
  unfold maskOut idxCursor
  split
  · have hix := getCursorBitmask_ix res.2 x
    refine ⟨by rw [seats_append, ← h.1]; exact hix, fun F hnodup hF hp => ?_⟩
    have hinfo := h.2 F hnodup hF ((hix ▸ prefix_seat res.2.ix x : _ <+: _).trans hp)
    have hcut : ∀ cs, mask 32 F (visible hidden cs) &&& ~~~ (getCursorBitmask res.2 x).1 =
        mask 32 F (visible (hidden ++ [x]) cs) := fun cs => by
      rw [getCursorBitmask_eq hF hp, mask_remove hnodup hF, visible_append]
      congr 1
      exact List.filter_congr fun c _ => decide_eq_decide.2 (not_congr List.mem_singleton).symm
    refine ⟨hinfo.p, ?_, ?_, ?_, hinfo.idxLeft, hinfo.idxRight⟩
    · rw [hinfo.left]
      exact hcut _
    · rw [hinfo.right]
      exact hcut _
    · rw [hinfo.all]
      exact hcut _
  · rw [List.append_nil, List.append_nil]
    exact h

/-- The analysis of the terms: which cursors come up, and what it says of each. -/
theorem analyzeTerms_spec (trigStack : Option TrigStack) (terms : List Node) (maskSet : MaskSet) :
    (analyzeTerms trigStack terms maskSet).2.ix = seats 32 maskSet.ix (terms.flatMap (lookups trigStack)) ∧
      ∀ F : List Int, F.Nodup → F.length ≤ 32 → (analyzeTerms trigStack terms maskSet).2.ix <+: F →
        List.Forall₂ (Analyzed F (trigCursors trigStack)) terms (analyzeTerms trigStack terms maskSet).1 := by
  induction terms generalizing maskSet with
  | nil => exact ⟨rfl, fun F _ _ _ => .nil⟩
  | cons t terms ih =>
    have hinfo : ∃ res : ExprInfo × MaskSet, IsInfo maskSet (lookups trigStack t) (trigCursors trigStack) t res ∧
        analyzeTerms trigStack (t :: terms) maskSet =
          (res.1 :: (analyzeTerms trigStack terms res.2).1, (analyzeTerms trigStack terms res.2).2) := by
      cases trigStack with
      | none =>
        refine ⟨exprAnalyze maskSet t, ?_, rfl⟩
        rw [lookups, trigCursors, List.append_nil]
        exact exprAnalyze_info maskSet t
      | some s =>
        refine ⟨maskOut s.oldIdx (maskOut s.newIdx (exprAnalyze maskSet t).1 (exprAnalyze maskSet t).2).1
          (maskOut s.newIdx (exprAnalyze maskSet t).1 (exprAnalyze maskSet t).2).2, ?_, rfl⟩
        rw [lookups, trigCursors, ← List.append_assoc]
        exact maskOut_info (maskOut_info (exprAnalyze_info maskSet t) s.newIdx) s.oldIdx
    obtain ⟨res, hres, heq⟩ := hinfo
    obtain ⟨hix, hrest⟩ := ih res.2
    rw [heq]
    refine ⟨?_, fun F hnodup hF hp => .cons (hres.2 F hnodup hF ?_) (hrest F hnodup hF hp)⟩
    · rw [List.flatMap_cons, seats_append, ← hres.1]
      exact hix
    · exact (hix ▸ prefix_seats _ _ : _ <+: _).trans hp

end Dbsql.L5.Where
