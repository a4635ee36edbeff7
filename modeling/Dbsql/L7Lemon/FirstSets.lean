import Dbsql.Core.Saturate
import Dbsql.L7Lemon.Grammar
/-!
# Which nonterminals are empty, and what they begin with (lemon.c, set.c and FindFirstSets)

A set of tokens is an array with a byte for each. `FindFirstSets` first finds the nonterminals
that derive the empty string and then what each can begin with, both by going over the rules until
nothing changes.

Results:
* `lambda_iff`: `lambda` is set exactly for the nonterminals that derive the empty string.
* `first_iff`: the first set has exactly the tokens some derived form begins with.
* `findFirstSets_exact`: both, as derivations of the grammar.
-/
namespace Dbsql.L7
open Dbsql.Core ShiftReduce Saturate

/-! ## Sets (set.c) -/

/-- `SetNew` (lemon.c:3677-3687), for the size that `SetSize` has been given. -/
def setNew (size : Nat) : List Bool := List.replicate size false

/-- `SetFind`. -/
def setFind (s : List Bool) (e : Nat) : Bool := s.getD e false

/-- `SetAdd` (lemon.c:3698-3706), with what it returns. -/
def setAdd (s : List Bool) (e : Nat) : List Bool × Bool := (s.set e true, ! setFind s e)

/-- `SetUnion` (lemon.c:3709-3724), with what it returns. -/
def setUnion (s1 s2 : List Bool) : List Bool × Bool :=
  (List.zipWith (· || ·) s1 s2, (List.zip s1 s2).any fun e => e.2 && ! e.1)

variable {size e j : Nat} {s s1 s2 : List Bool}

@[simp] theorem length_setNew : (setNew size).length = size := List.length_replicate

@[simp] theorem setFind_setNew : setFind (setNew size) j = false := by
  unfold setFind setNew
  rw [List.getD_eq_getElem?_getD, List.getElem?_replicate]
  split <;> rfl

@[simp] theorem length_setAdd : (setAdd s e).1.length = s.length := List.length_set

theorem setFind_setAdd (he : e < s.length) : setFind (setAdd s e).1 j = (decide (j = e) || setFind s j) := by
  unfold setAdd setFind
  rw [List.getD_eq_getElem?_getD, List.getD_eq_getElem?_getD, List.getElem?_set]
  by_cases h : j = e
  · simp [h, he]
  · simp [h, Ne.symm h]

/-- An element that is there already changes nothing. -/
theorem setAdd_still (he : e < s.length) (h : (setAdd s e).2 = false) : (setAdd s e).1 = s := by
  unfold setAdd setFind at *
  rw [List.getD_eq_getElem?_getD, List.getElem?_eq_getElem he] at h
  have hval : s[e] = true := by simpa using h
  simp [← hval]

@[simp] theorem length_setUnion (h : s1.length = s2.length) : (setUnion s1 s2).1.length = s1.length := by
  simp [setUnion, h]

theorem setFind_setUnion (h : s1.length = s2.length) :
    setFind (setUnion s1 s2).1 j = (setFind s1 j || setFind s2 j) := by
  unfold setUnion setFind
  rw [List.getD_eq_getElem?_getD, List.getD_eq_getElem?_getD, List.getD_eq_getElem?_getD, List.getElem?_zipWith]
  rcases Nat.lt_or_ge j s1.length with hj | hj
  · rw [List.getElem?_eq_getElem hj, List.getElem?_eq_getElem (h ▸ hj)]
    rfl
  · rw [List.getElem?_eq_none hj, List.getElem?_eq_none (h ▸ hj)]
    rfl

/-- A set that gets nothing new has all of the other. -/
theorem setUnion_still (hlen : s1.length = s2.length) (h : (setUnion s1 s2).2 = false) :
    (setUnion s1 s2).1 = s1 ∧ ∀ j, setFind s2 j = true → setFind s1 j = true := by
  unfold setUnion at *
  simp only at h ⊢
  induction s1 generalizing s2 with
  | nil =>
    cases s2 with
    | nil => exact ⟨rfl, fun j hj => hj⟩
    | cons b s2 => cases hlen
  | cons a s1 ih =>
    cases s2 with
    | nil => cases hlen
    | cons b s2 =>
      rw [List.zip_cons_cons, List.any_cons, Bool.or_eq_false_iff] at h
      obtain ⟨heq, hsub⟩ := ih (Nat.succ.inj hlen) h.2
      refine ⟨?_, fun j hj => ?_⟩
      · rw [List.zipWith_cons_cons, heq]
        cases a <;> cases b <;> first | rfl | (exact absurd h.1 (by decide))
      · cases j with
        | zero =>
          have hb : b = true := hj
          have ha : (b && !a) = false := h.1
          rw [hb] at ha
          simpa [setFind] using ha
        | succ j => exact hsub j hj

/-- How many elements a set has. -/
def members (s : List Bool) : Nat := s.count true

theorem members_le (s : List Bool) : members s ≤ s.length := List.count_le_length

theorem members_setAdd (he : e < s.length) (h : (setAdd s e).2 = true) : members s < members (setAdd s e).1 := by
  unfold setAdd setFind members at *
  rw [List.getD_eq_getElem?_getD, List.getElem?_eq_getElem he] at h
  have hval : s[e] = false := by simpa using h
  simp [List.count_set he, hval]

theorem members_setUnion_le (h : s1.length = s2.length) : members s1 ≤ members (setUnion s1 s2).1 := by
  unfold setUnion members
  induction s1 generalizing s2 with
  | nil => simp
  | cons a s1 ih =>
    cases s2 with
    | nil => cases h
    | cons b s2 =>
      have hle := ih (Nat.succ.inj h)
      simp only [List.zipWith_cons_cons, List.count_cons] at hle ⊢
      cases a <;> cases b <;> simp <;> omega

theorem members_setUnion (h : s1.length = s2.length) (hp : (setUnion s1 s2).2 = true) :
    members s1 < members (setUnion s1 s2).1 := by
  induction s1 generalizing s2 with
  | nil => cases hp
  | cons a s1 ih =>
    cases s2 with
    | nil => cases h
    | cons b s2 =>
      have hlen : s1.length = s2.length := Nat.succ.inj h
      have hle := members_setUnion_le hlen
      have hlt := ih hlen
      unfold setUnion members at *
      simp only [List.zipWith_cons_cons, List.zip_cons_cons, List.any_cons, List.count_cons] at *
      cases a <;> cases b <;> simp at * <;> grind

/-! ## Nonterminals that can be empty -/

section
variable (lemp : Lemon)

/-- The body of the loop over the rules for `lambda` (lemon.c:651-661). -/
def lambdaStep (st : List Bool × Bool) (rp : Rule) : List Bool × Bool :=
  if setFind st.1 rp.lhs then st
  else if rp.rhs.all (setFind st.1) then ((setAdd st.1 rp.lhs).1, true)
  else st

/-- `lambda` of all symbols (lemon.c:639-662). -/
def lambdas : List Bool :=
  saturate lambdaStep lemp.rules (lemp.nsymbol + 1) (List.replicate lemp.nsymbol false)

end

variable {lemp : Lemon} {x t : Nat}

/-- A symbol whose trees can have no leaves. -/
def Nullable (lemp : Lemon) (x : Nat) : Prop := ∃ ρ, Forest lemp.toGrammar [lemp.toSymbol x] [] ρ

theorem forest_of_nullable {rhs : List Nat} (h : ∀ x ∈ rhs, Nullable lemp x) :
    ∃ ρ, Forest lemp.toGrammar (rhs.map lemp.toSymbol) [] ρ := by
  induction rhs with
  | nil => exact ⟨[], .nil⟩
  | cons x rhs ih =>
    obtain ⟨⟨ρ, hx⟩, hrhs⟩ := List.forall_mem_cons.1 h
    obtain ⟨κ, hκ⟩ := ih hrhs
    exact ⟨ρ ++ κ, hx.append hκ⟩

theorem nullable_of_rule {r : Rule} (hr : r ∈ lemp.rules) (h : ∀ x ∈ r.rhs, Nullable lemp x) : Nullable lemp r.lhs := by
  obtain ⟨i, hi⟩ := List.mem_iff_getElem?.1 hr
  obtain ⟨ρ, hρ⟩ := forest_of_nullable h
  refine ⟨ρ ++ [i], ?_⟩
  rw [Lemon.toSymbol_nonterminal (lemp.lhs_nonterminal r hr).1]
  exact Forest.tree (Lemon.toGrammar_rule hi) hρ

/-- What holds of `lambda` during the loop. -/
def LambdaInv (lemp : Lemon) (lam : List Bool) : Prop :=
  lam.length = lemp.nsymbol ∧ ∀ x, setFind lam x = true → Nullable lemp x

theorem lambdaStep_advances : Advances (LambdaInv lemp) members lambdaStep lemp.rules := by
  intro r hr lam hlam b
  unfold lambdaStep
  simp only
  split
  next => exact .inl rfl
  next hnew =>
    split
    next hall =>
      have hlt : r.lhs < lam.length := by
        rw [hlam.1]
        exact (lemp.lhs_nonterminal r hr).2
      have hflag : (setAdd lam r.lhs).2 = true := by
        unfold setAdd
        simpa using hnew
      refine .inr ⟨⟨by simp [hlam.1], fun x hx => ?_⟩, rfl, members_setAdd hlt hflag⟩
      rw [setFind_setAdd hlt, Bool.or_eq_true, decide_eq_true_eq] at hx
      rcases hx with rfl | hx
      · exact nullable_of_rule hr fun y hy => hlam.2 y (List.all_eq_true.1 hall y hy)
      · exact hlam.2 x hx
    next => exact .inl rfl

theorem lambdas_stable : LambdaInv lemp (lambdas lemp) ∧
    ∀ r ∈ lemp.rules, lambdaStep (lambdas lemp, false) r = (lambdas lemp, false) := by
  refine saturate_stable (b := lemp.nsymbol) lambdaStep_advances (fun lam hlam => ?_) ?_ (Nat.lt_succ_self _)
  · exact hlam.1 ▸ members_le lam
  · exact ⟨List.length_replicate, fun x hx => by
      have hnew : setFind (setNew lemp.nsymbol) x = true := hx
      rw [setFind_setNew] at hnew
      cases hnew⟩

/-- A rule whose right-hand side is empty symbols makes its left-hand side empty. -/
theorem lambdas_closed {r : Rule} (hr : r ∈ lemp.rules) (h : ∀ x ∈ r.rhs, setFind (lambdas lemp) x = true) :
    setFind (lambdas lemp) r.lhs = true := by
  have hstep := lambdas_stable.2 r hr
  unfold lambdaStep at hstep
  simp only at hstep
  by_contra hno
  rw [if_neg hno, if_pos (List.all_eq_true.2 h)] at hstep
  cases congrArg Prod.snd hstep

theorem lambda_of_forest {β : List (Symbol Nat Nat)} {w : List Nat} {ρ : List Nat}
    (h : Forest lemp.toGrammar β w ρ) (hw : w = []) : ∀ x, lemp.toSymbol x ∈ β → setFind (lambdas lemp) x = true := by
  induction h with
  | nil => simp
  | leaf a _ _ => cases hw
  | @node β u w π ρ i r hr _ _ ihout ih =>
    obtain ⟨hu, hw'⟩ := List.append_eq_nil_iff.1 hw
    obtain ⟨r0, hr0, rfl⟩ := Lemon.of_toGrammar_rule hr
    intro x hx
    rcases List.mem_cons.1 hx with hx | hx
    · obtain ⟨_, rfl⟩ := Lemon.toSymbol_eq_nonterminal.1 hx
      exact lambdas_closed (Lemon.rule_mem hr0) fun y hy => ihout hu y (List.mem_map_of_mem hy)
    · exact ih hw' x hx

/-- **`lambda` is set exactly for the symbols that derive the empty string.** -/
theorem lambda_iff : setFind (lambdas lemp) x = true ↔ Nullable lemp x := by
  constructor
  · exact lambdas_stable.1.2 x
  · intro h
    obtain ⟨ρ, hρ⟩ := h
    exact lambda_of_forest hρ rfl x List.mem_cons_self

/-! ## First sets -/

/-- `sp->firstset`. -/
def firstsetOf (sets : List (List Bool)) (x : Nat) : List Bool := sets.getD x []

section
variable (lemp : Lemon)

/-- The loop over the right-hand side of one rule (lemon.c:669-682), `s1` its left-hand side. -/
def firstLoop (s1 : Nat) : List Nat → List (List Bool) × Bool → List (List Bool) × Bool
  | [], st => st
  | s2 :: rest, st =>
    if lemp.isTerminal s2 then
      (st.1.set s1 (setAdd (firstsetOf st.1 s1) s2).1, st.2 || (setAdd (firstsetOf st.1 s1) s2).2)
    else if s1 = s2 then
      if setFind (lambdas lemp) s1 then firstLoop s1 rest st else st
    else
      let u := setUnion (firstsetOf st.1 s1) (firstsetOf st.1 s2)
      let st := (st.1.set s1 u.1, st.2 || u.2)
      if setFind (lambdas lemp) s2 then firstLoop s1 rest st else st

def firstStep (st : List (List Bool) × Bool) (rp : Rule) : List (List Bool) × Bool :=
  firstLoop lemp rp.lhs rp.rhs st

/-- The first sets of all symbols (lemon.c:642-644, 664-684), those of the tokens never written. -/
def firstSets : List (List Bool) :=
  saturate (firstStep lemp) lemp.rules (lemp.nsymbol * (lemp.nterminal + 1) + 1)
    (List.replicate lemp.nsymbol (setNew (lemp.nterminal + 1)))

/-- What a form begins with, by the sets: its first symbol, and behind one that can be empty the
rest. -/
def FirstOf (sets : List (List Bool)) : List (Symbol Nat Nat) → Nat → Prop
  | [], _ => False
  | .terminal a :: _, t => t = a
  | .nonterminal A :: β, t =>
    setFind (firstsetOf sets A) t = true ∨ (setFind (lambdas lemp) A = true ∧ FirstOf sets β t)

end

/-- The form begins with the token in some derivation. -/
def Begins (lemp : Lemon) (β : List (Symbol Nat Nat)) (t : Nat) : Prop :=
  ∃ γ : List (Symbol Nat Nat), lemp.toGrammar.cfg.Derives β (.terminal t :: γ)

/-- How many elements the sets have together. -/
def total (sets : List (List Bool)) : Nat := (sets.map members).sum

/-- What holds of the sets during the loop. -/
structure FirstInv (lemp : Lemon) (sets : List (List Bool)) : Prop where
  length : sets.length = lemp.nsymbol
  size : ∀ s ∈ sets, s.length = lemp.nterminal + 1
  begins : ∀ x t, setFind (firstsetOf sets x) t = true → Begins lemp [lemp.toSymbol x] t

variable {sets : List (List Bool)} {β γ : List (Symbol Nat Nat)}

theorem firstsetOf_mem (hx : x < sets.length) : firstsetOf sets x ∈ sets := by
  unfold firstsetOf
  rw [List.getD_eq_getElem?_getD, List.getElem?_eq_getElem hx]
  exact List.getElem_mem hx

theorem firstsetOf_set (hx : x < sets.length) (s : List Bool) (y : Nat) :
    firstsetOf (sets.set x s) y = if y = x then s else firstsetOf sets y := by
  unfold firstsetOf
  rw [List.getD_eq_getElem?_getD, List.getD_eq_getElem?_getD, List.getElem?_set]
  by_cases h : y = x
  · simp [h, hx]
  · simp [h, Ne.symm h]

theorem set_firstsetOf (hx : x < sets.length) : sets.set x (firstsetOf sets x) = sets := by
  unfold firstsetOf
  rw [List.getD_eq_getElem?_getD, List.getElem?_eq_getElem hx]
  simp

theorem total_set (hx : x < sets.length) {s : List Bool} (h : members (firstsetOf sets x) < members s) :
    total sets < total (sets.set x s) := by
  induction sets generalizing x with
  | nil => cases hx
  | cons a sets ih =>
    unfold total at *
    cases x with
    | zero =>
      simp only [List.set_cons_zero, List.map_cons, List.sum_cons]
      exact Nat.add_lt_add_right h _
    | succ x =>
      simp only [List.set_cons_succ, List.map_cons, List.sum_cons]
      exact Nat.add_lt_add_left (ih (Nat.lt_of_succ_lt_succ hx) h) _

theorem total_le (h : FirstInv lemp sets) : total sets ≤ lemp.nsymbol * (lemp.nterminal + 1) := by
  rw [← h.length]
  have hsize := h.size
  clear h
  unfold total
  induction sets with
  | nil => simp
  | cons s sets ih =>
    obtain ⟨hs, hrest⟩ := List.forall_mem_cons.1 hsize
    have hm := members_le s
    have hle := ih hrest
    rw [List.map_cons, List.sum_cons, List.length_cons, Nat.succ_mul]
    omega

/-- A form goes on behind symbols that can be empty. -/
theorem Begins.skip (h : Nullable lemp x) (hb : Begins lemp β t) : Begins lemp (lemp.toSymbol x :: β) t := by
  obtain ⟨ρ, hρ⟩ := h
  obtain ⟨γ, hγ⟩ := hb
  exact ⟨γ, (hρ.derives.append_right β).trans hγ⟩

theorem Begins.head (hb : Begins lemp [lemp.toSymbol x] t) : Begins lemp (lemp.toSymbol x :: β) t := by
  obtain ⟨γ, hγ⟩ := hb
  exact ⟨γ ++ β, hγ.append_right β⟩

/-- One set replaced by a larger one of tokens it begins with. -/
theorem FirstInv.set (h : FirstInv lemp sets) (hx : x < sets.length) {s : List Bool}
    (hlen : s.length = lemp.nterminal + 1)
    (hs : ∀ t, setFind s t = true → setFind (firstsetOf sets x) t = true ∨ Begins lemp [lemp.toSymbol x] t) :
    FirstInv lemp (sets.set x s) := by
  refine ⟨by simp [h.length], fun s' hs' => ?_, fun y t ht => ?_⟩
  · rcases List.mem_or_eq_of_mem_set hs' with hmem | rfl
    · exact h.size s' hmem
    · exact hlen
  · rw [firstsetOf_set hx] at ht
    split at ht
    next hy =>
      rw [hy]
      exact (hs t ht).elim (h.begins x t) id
    next => exact h.begins y t ht

/-- The loop over a right-hand side changes nothing or adds something. -/
theorem firstLoop_advances {s1 : Nat} (h1 : s1 < lemp.nsymbol) (rest : List Nat)
    (hrest : ∀ x ∈ rest, x < lemp.nsymbol)
    (hd : ∀ t, Begins lemp (rest.map lemp.toSymbol) t → Begins lemp [lemp.toSymbol s1] t)
    (hsets : FirstInv lemp sets) (b : Bool) :
    firstLoop lemp s1 rest (sets, b) = (sets, b) ∨
      (FirstInv lemp (firstLoop lemp s1 rest (sets, b)).1 ∧ (firstLoop lemp s1 rest (sets, b)).2 = true ∧
        total sets < total (firstLoop lemp s1 rest (sets, b)).1) := by
  induction rest generalizing sets b with
  | nil => exact .inl rfl
  | cons s2 rest ih =>
    obtain ⟨h2, hrest⟩ := List.forall_mem_cons.1 hrest
    have hx : s1 < sets.length := by rwa [hsets.length]
    have hsize := hsets.size _ (firstsetOf_mem hx)
    unfold firstLoop
    split
    next hterm =>
      have hlt : s2 < lemp.nterminal := of_decide_eq_true hterm
      have he : s2 < (firstsetOf sets s1).length := by omega
      simp only
      cases hflag : (setAdd (firstsetOf sets s1) s2).2 with
      | false =>
        rw [setAdd_still he hflag, set_firstsetOf hx, Bool.or_false]
        exact .inl rfl
      | true =>
        refine .inr ⟨hsets.set hx (by rw [length_setAdd, hsize]) fun t ht => ?_, Bool.or_true b,
          total_set hx (members_setAdd he hflag)⟩
        rw [setFind_setAdd he, Bool.or_eq_true, decide_eq_true_eq] at ht
        rcases ht with rfl | ht
        · refine .inr (hd t ⟨rest.map lemp.toSymbol, ?_⟩)
          rw [List.map_cons, Lemon.toSymbol_terminal hlt]
          exact .refl _
        · exact .inl ht
    next hterm =>
      have hge : lemp.nterminal ≤ s2 := Nat.not_lt.1 (by simpa [Lemon.isTerminal] using hterm)
      have hskip : setFind (lambdas lemp) s2 = true →
          ∀ t, Begins lemp (rest.map lemp.toSymbol) t → Begins lemp [lemp.toSymbol s1] t :=
        fun hl t hb => hd t (Begins.skip (lambda_iff.1 hl) hb)
      split
      next heq =>
        split
        next hl => exact ih hrest (hskip (heq ▸ hl)) hsets b
        next => exact .inl rfl
      next hne =>
        have hx2 : s2 < sets.length := by rwa [hsets.length]
        have hlen : (firstsetOf sets s1).length = (firstsetOf sets s2).length := by
          rw [hsize, hsets.size _ (firstsetOf_mem hx2)]
        simp only
        cases hflag : (setUnion (firstsetOf sets s1) (firstsetOf sets s2)).2 with
        | false =>
          rw [(setUnion_still hlen hflag).1, set_firstsetOf hx, Bool.or_false]
          split
          next hl => exact ih hrest (hskip hl) hsets b
          next => exact .inl rfl
        | true =>
          have hsets' : FirstInv lemp (sets.set s1 (setUnion (firstsetOf sets s1) (firstsetOf sets s2)).1) := by
            refine hsets.set hx (by rw [length_setUnion hlen, hsize]) fun t ht => ?_
            rw [setFind_setUnion hlen, Bool.or_eq_true] at ht
            exact ht.imp id fun ht => hd t (Begins.head (hsets.begins s2 t ht))
          have hgrow := total_set hx (members_setUnion hlen hflag)
          rw [Bool.or_true]
          split
          next hl =>
            rcases ih hrest (hskip hl) hsets' true with hsame | ⟨hinv, hb, hlt⟩
            · rw [hsame]
              exact .inr ⟨hsets', rfl, hgrow⟩
            · exact .inr ⟨hinv, hb, Nat.lt_trans hgrow hlt⟩
          next => exact .inr ⟨hsets', rfl, hgrow⟩

theorem begins_of_rule {r : Rule} (hr : r ∈ lemp.rules) (hb : Begins lemp (r.rhs.map lemp.toSymbol) t) :
    Begins lemp [lemp.toSymbol r.lhs] t := by
  obtain ⟨i, hi⟩ := List.mem_iff_getElem?.1 hr
  obtain ⟨γ, hγ⟩ := hb
  rw [Lemon.toSymbol_nonterminal (lemp.lhs_nonterminal r hr).1]
  have hmem : lemp.toRule r ∈ lemp.toGrammar.cfg.rules := mem_cfg_rules.2 ⟨i, Lemon.toGrammar_rule hi⟩
  have hstep : lemp.toGrammar.cfg.Produces [.nonterminal r.lhs] (r.rhs.map lemp.toSymbol) :=
    ⟨lemp.toRule r, hmem, ContextFreeRule.Rewrites.input_output⟩
  exact ⟨γ, hstep.trans_derives hγ⟩

theorem firstSets_stable : FirstInv lemp (firstSets lemp) ∧
    ∀ r ∈ lemp.rules, firstLoop lemp r.lhs r.rhs (firstSets lemp, false) = (firstSets lemp, false) := by
  have hadv : Advances (FirstInv lemp) total (firstStep lemp) lemp.rules := fun r hr sets hsets b =>
    firstLoop_advances (lemp.lhs_nonterminal r hr).2 r.rhs (fun x hx => (lemp.rhs_symbol r hr x hx).2)
      (fun t => begins_of_rule hr) hsets b
  refine saturate_stable hadv (fun sets hsets => total_le hsets) ?_ (Nat.lt_succ_self _)
  refine ⟨List.length_replicate, fun s hs => ?_, fun x t ht => ?_⟩
  · rw [List.eq_of_mem_replicate hs, length_setNew]
  · have hnew : setFind (firstsetOf (List.replicate lemp.nsymbol (setNew (lemp.nterminal + 1))) x) t = false := by
      unfold firstsetOf
      rw [List.getD_eq_getElem?_getD, List.getElem?_replicate]
      split
      · exact setFind_setNew
      · rfl
    rw [hnew] at ht
    cases ht

/-- A right-hand side that adds nothing: what it begins with is in the set already. -/
theorem firstLoop_closed {s1 : Nat} (h1 : s1 < lemp.nsymbol) (rest : List Nat)
    (hrest : ∀ x ∈ rest, x < lemp.nsymbol)
    (hd : ∀ t, Begins lemp (rest.map lemp.toSymbol) t → Begins lemp [lemp.toSymbol s1] t)
    (hsets : FirstInv lemp sets) (hstill : (firstLoop lemp s1 rest (sets, false)).2 = false) (t : Nat)
    (ht : FirstOf lemp sets (rest.map lemp.toSymbol) t) : setFind (firstsetOf sets s1) t = true := by
  induction rest with
  | nil => exact ht.elim
  | cons s2 rest ih =>
    obtain ⟨h2, hrest⟩ := List.forall_mem_cons.1 hrest
    have hx : s1 < sets.length := by rwa [hsets.length]
    have hsize := hsets.size _ (firstsetOf_mem hx)
    unfold firstLoop at hstill
    by_cases hterm : s2 < lemp.nterminal
    · rw [if_pos (by simpa [Lemon.isTerminal] using hterm)] at hstill
      rw [List.map_cons, Lemon.toSymbol_terminal hterm] at ht
      have hflag : (setAdd (firstsetOf sets s1) s2).2 = false := hstill
      unfold setAdd at hflag
      obtain rfl : t = s2 := ht
      simpa using hflag
    · have hge : lemp.nterminal ≤ s2 := Nat.not_lt.1 hterm
      rw [if_neg (by simpa [Lemon.isTerminal] using hge)] at hstill
      rw [List.map_cons, Lemon.toSymbol_nonterminal hge] at ht
      have hskip : setFind (lambdas lemp) s2 = true →
          ∀ t, Begins lemp (rest.map lemp.toSymbol) t → Begins lemp [lemp.toSymbol s1] t :=
        fun hl t hb => hd t (Begins.skip (lambda_iff.1 hl) hb)
      by_cases heq : s1 = s2
      · rw [if_pos heq] at hstill
        rcases ht with ht | ⟨hl, ht⟩
        · rwa [heq]
        · rw [if_pos (heq ▸ hl)] at hstill
          exact ih hrest (hskip hl) hstill ht
      · rw [if_neg heq] at hstill
        have hx2 : s2 < sets.length := by rwa [hsets.length]
        have hlen : (firstsetOf sets s1).length = (firstsetOf sets s2).length := by
          rw [hsize, hsets.size _ (firstsetOf_mem hx2)]
        simp only at hstill
        cases hflag : (setUnion (firstsetOf sets s1) (firstsetOf sets s2)).2 with
        | false =>
          obtain ⟨hsame, hsub⟩ := setUnion_still hlen hflag
          rw [hsame, hflag, set_firstsetOf hx, Bool.or_false] at hstill
          rcases ht with ht | ⟨hl, ht⟩
          · exact hsub t ht
          · rw [if_pos hl] at hstill
            exact ih hrest (hskip hl) hstill ht
        | true =>
          -- the union added something: the loop cannot have ended without progress
          exfalso
          rw [hflag, Bool.or_true] at hstill
          split at hstill
          next hl =>
            have hsets' : FirstInv lemp (sets.set s1 (setUnion (firstsetOf sets s1) (firstsetOf sets s2)).1) := by
              refine hsets.set hx (by rw [length_setUnion hlen, hsize]) fun t ht => ?_
              rw [setFind_setUnion hlen, Bool.or_eq_true] at ht
              exact ht.imp id fun ht => hd t (Begins.head (hsets.begins s2 t ht))
            rcases firstLoop_advances h1 rest hrest (hskip hl) hsets' true with hsame | ⟨_, hb, _⟩
            · rw [hsame] at hstill
              cases hstill
            · rw [hb] at hstill
              cases hstill
          next => cases hstill

theorem firstOf_append {α : List (Symbol Nat Nat)} : FirstOf lemp sets (α ++ β) t ↔
    FirstOf lemp sets α t ∨
      ((∀ X ∈ α, ∃ A, X = .nonterminal A ∧ setFind (lambdas lemp) A = true) ∧ FirstOf lemp sets β t) := by
  induction α with
  | nil => simp [FirstOf]
  | cons X α ih =>
    cases X with
    | terminal a => simp [FirstOf]
    | nonterminal A =>
      rw [List.cons_append, FirstOf, FirstOf, ih, List.forall_mem_cons]
      simp only [Symbol.nonterminal.injEq, exists_eq_left']
      grind

theorem firstOf_produces (h : lemp.toGrammar.cfg.Produces β γ) (ht : FirstOf lemp (firstSets lemp) γ t) :
    FirstOf lemp (firstSets lemp) β t := by
  obtain ⟨r, hmem, hrew⟩ := h
  obtain ⟨i, hr⟩ := mem_cfg_rules.1 hmem
  obtain ⟨r0, hr0, rfl⟩ := Lemon.of_toGrammar_rule hr
  have hparts : ∃ p q : List (Symbol Nat Nat),
      β = p ++ [.nonterminal r0.lhs] ++ q ∧ γ = p ++ r0.rhs.map lemp.toSymbol ++ q := hrew.exists_parts
  obtain ⟨p, q, rfl, rfl⟩ := hparts
  have hin := Lemon.rule_mem hr0
  have hrule : FirstOf lemp (firstSets lemp) (r0.rhs.map lemp.toSymbol ++ q) t →
      FirstOf lemp (firstSets lemp) (.nonterminal r0.lhs :: q) t := by
    intro hout
    rcases firstOf_append.1 hout with hout | ⟨hall, hq⟩
    · refine .inl (firstLoop_closed (lemp.lhs_nonterminal r0 hin).2 r0.rhs
        (fun x hx => (lemp.rhs_symbol r0 hin x hx).2) (fun t => begins_of_rule hin) firstSets_stable.1 ?_ t hout)
      rw [firstSets_stable.2 r0 hin]
    · refine .inr ⟨lambdas_closed hin fun x hx => ?_, hq⟩
      obtain ⟨A, hA, hl⟩ := hall _ (List.mem_map_of_mem hx)
      obtain ⟨_, rfl⟩ := Lemon.toSymbol_eq_nonterminal.1 hA
      exact hl
  rw [List.append_assoc] at ht ⊢
  rcases firstOf_append.1 ht with ht | ⟨hall, ht⟩
  · exact firstOf_append.2 (.inl ht)
  · exact firstOf_append.2 (.inr ⟨hall, hrule ht⟩)

theorem firstOf_of_begins (h : Begins lemp β t) : FirstOf lemp (firstSets lemp) β t := by
  obtain ⟨γ, hγ⟩ := h
  induction hγ using Relation.ReflTransGen.head_induction_on with
  | refl => exact (rfl : t = t)
  | head hstep _ ih => exact firstOf_produces hstep ih

/-- **The first set of a nonterminal has the tokens that a form derived from it begins with.** -/
theorem first_iff (hx : lemp.nterminal ≤ x) :
    setFind (firstsetOf (firstSets lemp) x) t = true ↔ Begins lemp [lemp.toSymbol x] t := by
  constructor
  · exact firstSets_stable.1.begins x t
  · intro h
    have hfirst := firstOf_of_begins h
    rw [Lemon.toSymbol_nonterminal hx] at hfirst
    rcases hfirst with hfirst | ⟨_, hnil⟩
    · exact hfirst
    · exact hnil.elim

/-- The sets say of a right-hand side what it begins with. -/
theorem firstOf_iff {rhs : List Nat} :
    FirstOf lemp (firstSets lemp) (rhs.map lemp.toSymbol) t ↔ Begins lemp (rhs.map lemp.toSymbol) t := by
  refine ⟨fun h => ?_, firstOf_of_begins⟩
  induction rhs with
  | nil => exact h.elim
  | cons x rhs ih =>
    rw [List.map_cons] at *
    rcases Nat.lt_or_ge x lemp.nterminal with hx | hx
    · rw [Lemon.toSymbol_terminal hx] at *
      obtain rfl : t = x := h
      exact ⟨rhs.map lemp.toSymbol, .refl _⟩
    · rw [Lemon.toSymbol_nonterminal hx] at h
      rcases h with h | ⟨hl, h⟩
      · exact (firstSets_stable.1.begins x t h).head
      · exact Begins.skip (lambda_iff.1 hl) (ih h)

/-- A symbol that can be empty is a nonterminal. -/
theorem Nullable.nonterminal (h : Nullable lemp x) : lemp.nterminal ≤ x := by
  obtain ⟨ρ, hρ⟩ := h
  rcases Nat.lt_or_ge x lemp.nterminal with hx | hx
  · rw [Lemon.toSymbol_terminal hx] at hρ
    cases hρ
  · exact hx

theorem nullable_iff : Nullable lemp x ↔ lemp.toGrammar.cfg.Derives [lemp.toSymbol x] ([] : List (Symbol Nat Nat)) := by
  constructor
  · intro h
    obtain ⟨ρ, hρ⟩ := h
    exact hρ.derives
  · intro h
    have hnil : lemp.toGrammar.cfg.Derives [lemp.toSymbol x] (([] : List Nat).map Symbol.terminal) := h
    exact derives_iff_forest.1 hnil

/-- **`FindFirstSets` is exact**: it marks the symbols that derive the empty string, and gives a
nonterminal the tokens that a form derived from it begins with. -/
theorem findFirstSets_exact (lemp : Lemon) :
    (∀ x, setFind (lambdas lemp) x = true ↔
      lemp.toGrammar.cfg.Derives [lemp.toSymbol x] ([] : List (Symbol Nat Nat))) ∧
    ∀ x, lemp.nterminal ≤ x → ∀ t, setFind (firstsetOf (firstSets lemp) x) t = true ↔
      ∃ γ : List (Symbol Nat Nat), lemp.toGrammar.cfg.Derives [lemp.toSymbol x] (.terminal t :: γ) :=
  ⟨fun _ => lambda_iff.trans nullable_iff, fun _ hx _ => first_iff hx⟩

end Dbsql.L7
