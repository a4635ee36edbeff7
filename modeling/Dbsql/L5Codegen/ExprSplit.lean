import Dbsql.L5Codegen.WhereTerms
/-!
# Splitting a WHERE clause at its ANDs (cg_where.c:62-94, 482-500)

`__expr_split` puts the terms of a WHERE clause into slots. When one slot is left the rest of a clause
goes into it as it is, with the ANDs in it, so that no term is lost; `__where_begin` says so too. But
where the left side of an AND is an AND itself, it may fill all the slots, and then there is none for
the right side: of `(a AND b) AND c` two slots get `a` and `b`.

`__where_begin` refuses a clause that fills all of its 101 slots. Where a slot stays free nothing has
been left out.

Results:
* `length_exprSplit`: how many slots are filled.
* `terms_exprSplit`: which terms are in them.
* `exprSplit_iff`: when the slots say the same as the clause.
* `terms_exprSplit_of_free`: nothing is left out if a slot stays free.
* `truth_conj`: the truth of a clause is the conjunction of its terms.
-/
namespace Dbsql.L5.Where
open Dbsql.L1 Dbsql.L3 Dbsql.L5.Tree

/-! ## What a clause says -/

/-- The truth of a clause, from that of everything in it that is no AND. No clause is true. -/
def conj (v : Node → Option Bool) : Node → Option Bool
  | .null => some true
  | .node d l r list sel => if d.op = .and then and3 (conj v l) (conj v r) else v (.node d l r list sel)

/-- The conjunction of the filled slots. -/
def conjAll (v : Node → Option Bool) (slots : List Node) : Option Bool :=
  slots.foldr (fun p t => and3 (conj v p) t) (some true)

/-- The terms of a clause. -/
def terms : Node → List Node
  | .null => []
  | .node d l r list sel => if d.op = .and then terms l ++ terms r else [.node d l r list sel]

/-- How many slots a clause needs. -/
def width : Node → Nat
  | .null => 0
  | .node d l r _ _ => if d.op = .and then (if isOp .and l then width l else 1) + width r else 1

/-- How many of its terms get a place in `n` slots, from the left. -/
def room (n : Nat) : Node → Nat
  | .null => 0
  | .node d l r list sel =>
    if n < 1 then 0
    else if n = 1 ∨ d.op ≠ .and then (terms (.node d l r list sel)).length
    else if !isOp .and l then (terms l).length + room (n - 1) r
    else if width l < n then (terms l).length + room (n - width l) r
    else room n l

/-- The slots say what the clause says, and there are no more than there may be. -/
structure SplitWell (n : Nat) (e : Node) : Prop where
  fits : (exprSplit n e).length ≤ n
  same : ∀ v, conjAll v (exprSplit n e) = conj v e

/-! ## Conjunctions -/

section
variable (v : Node → Option Bool)

@[simp] theorem and3_true_left (t : Option Bool) : and3 (some true) t = t := by
  rcases t with _ | _ | _ <;> rfl

@[simp] theorem and3_true_right (t : Option Bool) : and3 t (some true) = t := by
  rcases t with _ | _ | _ <;> rfl

theorem and3_assoc (s t u : Option Bool) : and3 (and3 s t) u = and3 s (and3 t u) := by
  rcases s with _ | _ | _ <;> rcases t with _ | _ | _ <;> rcases u with _ | _ | _ <;> rfl

theorem and3_comm (s t : Option Bool) : and3 s t = and3 t s := by
  rcases s with _ | _ | _ <;> rcases t with _ | _ | _ <;> rfl

theorem and3_self (t : Option Bool) : and3 t t = t := by
  rcases t with _ | _ | _ <;> rfl

/-- The conjunction of terms. -/
def all3 (ts : List Node) : Option Bool := ts.foldr (fun t u => and3 (v t) u) (some true)

@[simp] theorem all3_nil : all3 v [] = some true := rfl

@[simp] theorem all3_cons (t : Node) (ts : List Node) : all3 v (t :: ts) = and3 (v t) (all3 v ts) := rfl

theorem all3_append (ts us : List Node) : all3 v (ts ++ us) = and3 (all3 v ts) (all3 v us) := by
  induction ts with
  | nil => simp
  | cons t ts ih => simp [ih, and3_assoc]

/-- A term that is there already adds nothing. -/
theorem and3_all3_of_mem {t : Node} {ts : List Node} (h : t ∈ ts) : and3 (v t) (all3 v ts) = all3 v ts := by
  induction ts with
  | nil => cases h
  | cons u ts ih =>
    rw [all3_cons, ← and3_assoc]
    rcases List.mem_cons.1 h with rfl | h
    · rw [and3_self]
    · rw [and3_comm (v t), and3_assoc, ih h]

theorem all3_of_subset {ts us : List Node} (h : ∀ u ∈ us, u ∈ ts) : and3 (all3 v ts) (all3 v us) = all3 v ts := by
  induction us with
  | nil => simp
  | cons u us ih =>
    rw [all3_cons, and3_comm, and3_assoc, and3_comm _ (all3 v ts), ih fun x hx => h x (List.mem_cons_of_mem u hx)]
    exact and3_all3_of_mem v (h u List.mem_cons_self)

theorem conj_eq : (e : Node) → conj v e = all3 v (terms e)
  | .null => rfl
  | .node d l r list sel => by
    unfold conj terms
    split
    · rw [all3_append, conj_eq l, conj_eq r]
    · simp

theorem conjAll_eq (slots : List Node) : conjAll v slots = all3 v (slots.flatMap terms) := by
  induction slots with
  | nil => rfl
  | cons p slots ih =>
    rw [List.flatMap_cons, all3_append, ← ih, ← conj_eq]
    rfl

end

/-- Two conjunctions say the same, whatever is true of the terms, if they have the same terms. -/
theorem all3_take_iff (ts : List Node) (m : Nat) :
    (∀ v, all3 v (ts.take m) = all3 v ts) ↔ ∀ t ∈ ts.drop m, t ∈ ts.take m := by
  constructor
  · intro h t ht
    by_contra hnew
    -- everything is true but the term that has been left out
    classical
    let v : Node → Option Bool := fun u => some (decide (u ≠ t))
    have htake : ∀ us : List Node, t ∉ us → all3 v us = some true := by
      intro us hus
      induction us with
      | nil => rfl
      | cons u us ih =>
        rw [List.mem_cons, not_or] at hus
        have hu : v u = some true := by simp [v, Ne.symm hus.1]
        rw [all3_cons, hu, ih hus.2]
        rfl
    have hall : and3 (v t) (all3 v ts) = all3 v ts := and3_all3_of_mem v (List.mem_of_mem_drop ht)
    rw [← h v, htake _ hnew] at hall
    simp [v] at hall
  · intro h v
    rw [← List.take_append_drop m ts, all3_append, List.take_append_drop]
    exact (all3_of_subset v h).symm

/-! ## What the slots have -/

theorem width_pos {e : Node} (h : isOp .and e = true) : 0 < width e := by
  cases e with
  | null => simp [isOp] at h
  | node d l r list sel =>
    have hop : d.op = .and := by simpa [isOp] using h
    rw [width, if_pos hop]
    split
    · next hl =>
      have := width_pos hl
      omega
    · omega

theorem terms_of_not_and {e : Node} (h : isOp .and e = false) : (terms e).length ≤ 1 := by
  cases e with
  | null => simp [terms]
  | node d l r list sel =>
    have hop : d.op ≠ .and := by simpa [isOp] using h
    simp [terms, hop]

/-- A slot has one term at least, but for an operand that is not there. -/
theorem length_terms_le : (e : Node) → (terms e).length ≤ width e
  | .null => Nat.le_refl _
  | .node d l r list sel => by
    unfold terms width
    split
    · rw [List.length_append]
      have hl := length_terms_le l
      have hr := length_terms_le r
      split
      · omega
      · next hleft =>
        have := terms_of_not_and (Bool.not_eq_true _ ▸ hleft)
        omega
    · exact Nat.le_refl _

/-- **How many slots are filled**: as many as the clause needs, or all. -/
theorem length_exprSplit : (e : Node) → ∀ n, (exprSplit n e).length = min n (width e)
  | .null, n => by simp [exprSplit, width]
  | .node d l r list sel, n => by
    have hl := length_exprSplit l
    have hr := length_exprSplit r
    have hpos : 0 < width (.node d l r list sel) := by
      by_cases hand : d.op = .and
      · exact width_pos (by simp [isOp, hand])
      · simp [width, hand]
    unfold exprSplit
    split
    · simp
      omega
    · split
      · next hop =>
        rcases hop with rfl | hop
        · simp
          omega
        · have hone : width (.node d l r list sel) = 1 := by rw [width, if_neg hop]
          simp
          omega
      · next hop =>
        obtain ⟨hn, hand⟩ : n ≠ 1 ∧ d.op = .and := by simpa using hop
        rw [width, if_pos hand]
        by_cases hleft : isOp .and l = true
        · rw [if_pos hleft, if_neg (by simp [hleft]), List.length_append, hl, hr]
          omega
        · rw [if_neg hleft, if_pos (by simpa using hleft), List.length_cons, hr]
          omega

/-- No more terms get a place than there are, and all of them if there are slots enough. -/
theorem room_le : (e : Node) → ∀ n, room n e ≤ (terms e).length ∧ (width e ≤ n → room n e = (terms e).length)
  | .null, n => by simp [room, terms]
  | .node d l r list sel, n => by
    have hl := room_le l
    have hr := room_le r
    have hle := length_terms_le (.node d l r list sel)
    unfold room
    split
    · omega
    · split
      · exact ⟨Nat.le_refl _, fun _ => rfl⟩
      · next hop =>
        obtain ⟨hn, hand⟩ : n ≠ 1 ∧ d.op = .and := by simpa using hop
        rw [terms, if_pos hand, List.length_append, width, if_pos hand]
        by_cases hleft : isOp .and l = true
        · rw [if_pos hleft, if_neg (by simp [hleft])]
          split
          · have := hr (n - width l)
            omega
          · have := hl n
            have := length_terms_le r
            omega
        · rw [if_neg hleft, if_pos (by simpa using hleft)]
          have := hr (n - 1)
          omega

/-- **Which terms are in the slots**: those from the left that get a place. -/
theorem terms_exprSplit : (e : Node) → ∀ n, (exprSplit n e).flatMap terms = (terms e).take (room n e)
  | .null, n => by simp [exprSplit, terms]
  | .node d l r list sel, n => by
    have hl := terms_exprSplit l
    have hr := terms_exprSplit r
    unfold exprSplit room
    split
    · simp
    · split
      · simp
      · next hop =>
        obtain ⟨hn, hand⟩ : n ≠ 1 ∧ d.op = .and := by simpa using hop
        have hterms : terms (.node d l r list sel) = terms l ++ terms r := by rw [terms, if_pos hand]
        rw [hterms]
        by_cases hleft : isOp .and l = true
        · have hlen := length_exprSplit l n
          rw [if_neg (by simp [hleft]), if_neg (by simp [hleft]), List.flatMap_append, hl, hr]
          by_cases hw : width l < n
          · rw [if_pos hw, (room_le l n).2 (by omega), List.take_length, List.take_length_add_append, hlen,
              show n - min n (width l) = n - width l by omega]
          · -- the left side takes all the slots
            have hnone : room (n - (exprSplit n l).length) r = 0 := by
              rw [hlen, show n - min n (width l) = 0 by omega]
              cases r <;> simp [room]
            rw [if_neg hw, hnone, List.take_zero, List.append_nil, List.take_append_of_le_length (room_le l n).1]
        · rw [if_pos (by simpa using hleft), if_pos (by simpa using hleft), List.flatMap_cons, hr,
            List.take_length_add_append]

/-- Nothing is left out if a slot stays free, as `__where_begin` sees to. -/
theorem terms_exprSplit_of_free {n : Nat} {e : Node} (h : (exprSplit n e).length < n) :
    (exprSplit n e).flatMap terms = terms e := by
  rw [length_exprSplit] at h
  rw [terms_exprSplit, (room_le e n).2 (by omega), List.take_length]

/-- **When the slots say the same as the clause**: if every term that gets no place is one of those
that do. -/
theorem exprSplit_iff (n : Nat) (e : Node) :
    SplitWell n e ↔ ∀ t ∈ (terms e).drop (room n e), t ∈ (terms e).take (room n e) := by
  rw [← all3_take_iff, ← terms_exprSplit]
  constructor
  · intro h v
    rw [← conjAll_eq, h.same, conj_eq]
  · intro h
    refine ⟨?_, fun v => ?_⟩
    · rw [length_exprSplit]
      exact Nat.min_le_left _ _
    · rw [conjAll_eq, h, conj_eq]

/-! ## The values of the terms -/

section
variable {L : Type} (ar : Arith L) (env : Stack.Env) (g : L5.Gen) (useAgg : Bool) (sem : Sem)

/-- The truth of the value of a tree, if it has a value. -/
def nodeTruth (e : Node) : Option (Option Bool) :=
  ((toExpr useAgg e).bind (exprValue ar env g sem)).map fun v => v.truth ar

/-- The truth of a clause is the conjunction of its terms. -/
theorem truth_conj : (e : Node) → ∀ {t : Option Bool}, nodeTruth ar env g useAgg sem e = some t →
    conj (fun e => (nodeTruth ar env g useAgg sem e).getD none) e = t
  | .null, t, h => by simp [nodeTruth, toExpr] at h
  | .node d l r list sel, t, h => by
    unfold conj
    split
    · next hand =>
      have hexpr : toExpr useAgg (.node d l r list sel) =
          (toExpr useAgg l).bind fun l => (toExpr useAgg r).map (.and l) := by
        conv_lhs => unfold toExpr
        simp only [hand]
      rw [nodeTruth, hexpr] at h
      obtain ⟨v, hv, rfl⟩ := Option.map_eq_some_iff.1 h
      obtain ⟨e, he, hv⟩ := Option.bind_eq_some_iff.1 hv
      obtain ⟨el, hel, he⟩ := Option.bind_eq_some_iff.1 he
      obtain ⟨er, her, rfl⟩ := Option.map_eq_some_iff.1 he
      rw [exprValue] at hv
      obtain ⟨vl, hvl, hv⟩ := Option.bind_eq_some_iff.1 hv
      obtain ⟨vr, hvr, hv⟩ := Option.bind_eq_some_iff.1 hv
      have hl : nodeTruth ar env g useAgg sem l = some (vl.truth ar) := by simp [nodeTruth, hel, hvl]
      have hr : nodeTruth ar env g useAgg sem r = some (vr.truth ar) := by simp [nodeTruth, her, hvr]
      rw [truth_conj l hl, truth_conj r hr, ← Option.some.inj hv, truth_ofTruth]
    · rw [h]
      rfl

end

/-! ## Three terms -/

/-- A column. -/
def colNode (i : Int) : Node := .node ⟨.column, .num, false, none, 0, i, 0⟩ .null .null .null .null

def andNode (l r : Node) : Node := .node ⟨.and, .num, false, none, 0, 0, 0⟩ l r .null .null

/-- Of `(a AND b) AND c` the third term is in neither of two slots. -/
theorem exprSplit_loses : ¬∀ (n : Nat) (e : Node), SplitWell n e := by
  intro h
  -- a clause whose third column alone is false
  have hsame := (h 2 (andNode (andNode (colNode 0) (colNode 1)) (colNode 2))).same fun e =>
    match e with
    | .null => none
    | .node d _ _ _ _ => some (decide (d.iColumn ≠ 2))
  simp [exprSplit, conjAll, conj, isOp, andNode, colNode, and3] at hsame

end Dbsql.L5.Where
