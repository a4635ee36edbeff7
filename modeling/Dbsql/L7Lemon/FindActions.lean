import Mathlib.Algebra.Module.Submodule.Lattice
import Mathlib.Data.List.Permutation
import Dbsql.L7Lemon.Compress
import Dbsql.L7Lemon.Lalr
import Dbsql.L7Lemon.Report
/-!
# The actions of all states (lemon.c, FindActions)

To the shifts of a state come its reductions, one for each token that can follow a complete item,
and in the first state the action that accepts. Then conflicts are resolved and, if it is not
switched off, the tables compressed.

Results:
* `mem_stateActions`: what actions a state has before conflicts are resolved.
* `findActions_lalr`: they are those of the LALR(1) parser, and one is in use for each lookahead
  afterwards; without a conflict nothing changes.
* `parseActions_lalr`: the same for the tables that are written, default reductions included.
* `engine_sound`, `engine_goto`: what the engine does with these tables.
-/
namespace Dbsql.L7
open Dbsql.Core ShiftReduce Engine

section
variable (lemp : Lemon)

/-- The reductions of one configuration (lemon.c:928-938). -/
def reduceActions (heap : List Config) (cfp : Nat) : List Action :=
  match lemp.rules[(itemAt heap cfp).1]? with
  | none => []
  | some rp =>
    if rp.rhs.length = (itemAt heap cfp).2 then
      (List.range lemp.nterminal).filterMap fun j =>
        if setFind (configAt heap cfp).fws j then some ⟨j, .REDUCE, (itemAt heap cfp).1⟩ else none
    else []

/-- `stp->ap` before it is sorted (lemon.c:924-951). -/
def stateActions (b : Build) (q : Nat) (st : State) : List Action :=
  let ap := st.cfp.foldl (fun ap cfp => (reduceActions lemp b.heap cfp).foldl (fun ap new => new :: ap) ap) st.ap
  if q = 0 then ⟨lemp.startSymbol, .ACCEPT, 0⟩ :: ap else ap

/-- `FindActions` (lemon.c:913-990): the actions of each state and its conflicts. -/
def findActions (b : Build) : List (List Action × Nat) :=
  b.states.mapIdx fun q st => resolveAll lemp (actionSort (stateActions lemp b q st))

/-- What is made of the grammar (lemon.c:1412-1438), with `compress` as the options say. -/
def parseActions (compress : Bool) : List (List Action) :=
  (findActions lemp (findFollowSets lemp (findLinks (findStates lemp)))).map fun r =>
    if compress then compressState lemp.nsymbol r.1 else r.1

end

variable {lemp : Lemon} {b : Build} {st : State} {heap : List Config} {ap : Action} {q c i k a : Nat} {compress : Bool}

theorem foldl_push (l l' : List Action) : l.foldl (fun ap new => new :: ap) l' = l.reverse ++ l' := by
  induction l generalizing l' with
  | nil => rfl
  | cons x l ih => simp [ih]

theorem mem_reduceActions : ap ∈ reduceActions lemp heap c ↔
    (∃ r, lemp.rules[(itemAt heap c).1]? = some r ∧ r.rhs.length = (itemAt heap c).2) ∧
      ap.sp < lemp.nterminal ∧ setFind (configAt heap c).fws ap.sp = true ∧ ap.type = .REDUCE ∧
        ap.x = (itemAt heap c).1 := by
  unfold reduceActions
  cases hr : lemp.rules[(itemAt heap c).1]? with
  | none => simp
  | some r =>
    simp only [Option.some.injEq, exists_eq_left']
    by_cases hlen : r.rhs.length = (itemAt heap c).2
    · rw [if_pos hlen, List.mem_filterMap]
      simp only [hlen, true_and]
      constructor
      · intro h
        obtain ⟨j, hj, heq⟩ := h
        split at heq
        next hfind =>
          cases heq
          exact ⟨List.mem_range.1 hj, hfind, rfl, rfl⟩
        next => cases heq
      · intro h
        obtain ⟨hj, hfind, htype, hx⟩ := h
        refine ⟨ap.sp, List.mem_range.2 hj, ?_⟩
        rw [if_pos hfind, ← htype, ← hx]
    · rw [if_neg hlen]
      simp [hlen]

/-- The reductions of all configurations of a state, the last one first. -/
theorem foldl_reduceActions (cs : List Nat) (l : List Action) :
    (cs.foldl (fun ap cfp => (reduceActions lemp heap cfp).foldl (fun ap new => new :: ap) ap) l).Perm
      (cs.flatMap (reduceActions lemp heap) ++ l) := by
  induction cs generalizing l with
  | nil => exact List.Perm.refl _
  | cons c cs ih =>
    rw [List.foldl_cons, foldl_push, List.flatMap_cons]
    refine (ih _).trans ?_
    have hswap : (cs.flatMap (reduceActions lemp heap) ++ ((reduceActions lemp heap c).reverse ++ l)).Perm
        ((reduceActions lemp heap c).reverse ++ (cs.flatMap (reduceActions lemp heap) ++ l)) := by
      rw [← List.append_assoc, ← List.append_assoc]
      exact List.perm_append_comm.append_right l
    refine hswap.trans ?_
    rw [List.append_assoc]
    exact (List.reverse_perm _).append_right _

/-- The action that accepts, in the first state. -/
def acceptActions (lemp : Lemon) (q : Nat) : List Action := if q = 0 then [⟨lemp.startSymbol, .ACCEPT, 0⟩] else []

theorem stateActions_perm : (stateActions lemp b q st).Perm
    (acceptActions lemp q ++ (st.cfp.flatMap (reduceActions lemp b.heap) ++ st.ap)) := by
  unfold stateActions acceptActions
  simp only
  split
  next => exact (foldl_reduceActions st.cfp st.ap).cons _
  next => exact foldl_reduceActions st.cfp st.ap

theorem type_of_accept (h : ap ∈ acceptActions lemp q) : ap.type = .ACCEPT := by
  unfold acceptActions at h
  split at h
  next => rw [List.mem_singleton.1 h]
  next => cases h

theorem type_of_reduction (h : ap ∈ st.cfp.flatMap (reduceActions lemp heap)) : ap.type = .REDUCE := by
  obtain ⟨c, _, hap⟩ := List.mem_flatMap.1 h
  exact (mem_reduceActions.1 hap).2.2.2.1

/-- **The actions of a state**: its shifts, its reductions, and in the first state `accept`. -/
theorem mem_stateActions : ap ∈ stateActions lemp b q st ↔
    (q = 0 ∧ ap = ⟨lemp.startSymbol, .ACCEPT, 0⟩) ∨ (∃ c ∈ st.cfp, ap ∈ reduceActions lemp b.heap c) ∨
      ap ∈ st.ap := by
  rw [stateActions_perm.mem_iff, List.mem_append, List.mem_append, List.mem_flatMap]
  unfold acceptActions
  split
  next h => simp [h]
  next h => simp [h]

/-! ## How many there are -/

/-- The symbol behind a dot is a symbol of the grammar. -/
theorem nextSymbol_lt {x : Nat × Nat} {X : Nat} (h : nextSymbol lemp x = some X) : 0 < X ∧ X < lemp.nsymbol := by
  obtain ⟨r, hr, hX⟩ := Option.bind_eq_some_iff.1 h
  exact lemp.rhs_symbol r (Lemon.rule_mem hr) X (List.mem_of_getElem? hX)

/-- The states with the items they have, whatever the follow sets are. -/
structure SameStates (b b' : Build) : Prop where
  states : b'.states = b.states
  item : ∀ c, itemAt b'.heap c = itemAt b.heap c

theorem follow_same (h : Inv lemp b) : SameStates b (findFollowSets lemp (findLinks b)) :=
  ⟨h.followSets_spec.1, h.followSets_spec.2.1⟩

/-- A reduction is known by its rule and its token. -/
theorem reductions_nodup {b' : Build} (h : Inv lemp b) (hsame : SameStates b b') (hst : b.states[q]? = some st) :
    ((st.cfp.flatMap (reduceActions lemp b'.heap)).map fun ap => (ap.x, ap.sp)).Nodup := by
  have hok := h.ok st (List.mem_of_getElem? hst)
  rw [List.map_flatMap, List.nodup_flatMap]
  constructor
  · intro c hc
    unfold reduceActions
    split
    next => exact .nil
    next =>
      split
      next =>
        rw [List.map_filterMap]
        refine List.Nodup.filterMap (fun j j' y hy hy' => ?_) List.nodup_range
        simp only [Option.mem_def, Option.map_eq_some_iff] at hy hy'
        obtain ⟨ap, hap, rfl⟩ := hy
        obtain ⟨ap', hap', heq⟩ := hy'
        split at hap
        next =>
          split at hap'
          next =>
            cases hap
            cases hap'
            exact (congrArg Prod.snd heq).symm
          next => cases hap'
        next => cases hap
      next => exact .nil
  · have hn := hok.nodup
    rw [List.Nodup, List.pairwise_map] at hn
    refine hn.imp_of_mem fun {c d} hc hd hne => ?_
    intro y hy hy'
    obtain ⟨ap, hap, rfl⟩ := List.mem_map.1 hy
    obtain ⟨ap', hap', heq⟩ := List.mem_map.1 hy'
    obtain ⟨⟨r, hr, hlen⟩, _, _, _, hx⟩ := mem_reduceActions.1 hap
    obtain ⟨⟨r', hr', hlen'⟩, _, _, _, hx'⟩ := mem_reduceActions.1 hap'
    have hrule : (itemAt b'.heap d).1 = (itemAt b'.heap c).1 := by
      rw [← hx, ← hx']
      exact congrArg Prod.fst heq
    rw [hrule, hr] at hr'
    cases hr'
    refine hne ?_
    have hitems : itemAt b'.heap c = itemAt b'.heap d := Prod.ext hrule.symm (hlen.symm.trans hlen')
    rw [hsame.item, hsame.item] at hitems
    exact hitems

theorem length_stateActions {b' : Build} (h : Inv lemp b) (hsame : SameStates b b') (hst : b.states[q]? = some st) :
    (stateActions lemp b' q st).length < 2 ^ 30 := by
  have hok := h.ok st (List.mem_of_getElem? hst)
  have hshift : st.ap.length ≤ lemp.nsymbol := by
    have hsub : st.ap.map Action.sp ⊆ List.range lemp.nsymbol := by
      intro X hX
      obtain ⟨ap, hap, rfl⟩ := List.mem_map.1 hX
      obtain ⟨⟨c, _, hnext⟩, _⟩ := (h.acts q st hst ap hap).2
      exact List.mem_range.2 (nextSymbol_lt hnext).2
    have hlen := ((h.one st (List.mem_of_getElem? hst)).subperm hsub).length_le
    simpa using hlen
  have hreduce : (st.cfp.flatMap (reduceActions lemp b'.heap)).length ≤ lemp.nrule * lemp.nterminal := by
    have hnodup := reductions_nodup h hsame hst
    have hsub : (st.cfp.flatMap (reduceActions lemp b'.heap)).map (fun ap => (ap.x, ap.sp)) ⊆
        (List.range lemp.nrule) ×ˢ (List.range lemp.nterminal) := by
      intro y hy
      obtain ⟨ap, hap, rfl⟩ := List.mem_map.1 hy
      obtain ⟨c, _, hap⟩ := List.mem_flatMap.1 hap
      obtain ⟨⟨r, hr, _⟩, hsp, _, _, hx⟩ := mem_reduceActions.1 hap
      refine List.mem_product.2 ⟨List.mem_range.2 ?_, List.mem_range.2 hsp⟩
      rw [hx]
      exact Lemon.rule_lt hr
    have hlen := (hnodup.subperm hsub).length_le
    rw [List.length_map, List.length_product, List.length_range, List.length_range] at hlen
    exact hlen
  have haccept : (acceptActions lemp q).length ≤ 1 := by
    unfold acceptActions
    split <;> simp
  have hsmall := lemp.actions_small
  rw [stateActions_perm.length_eq, List.length_append, List.length_append]
  unfold Lemon.nsymbol Lemon.nrule at *
  omega

/-! ## Conflicts -/

/-- The start symbol stands on no right-hand side; lemon reports it otherwise (lemon.c:716-727). -/
def StartFree (lemp : Lemon) : Prop := ∀ r ∈ lemp.rules, lemp.startSymbol ∉ r.rhs

/-- Where an action of a state comes from. -/
inductive From (lemp : Lemon) (b b' : Build) (q : Nat) (ap : Action) : Prop
  | shift : ap.type = .SHIFT → (∃ st, b.states[q]? = some st ∧ ap ∈ st.ap) →
      Goto lemp b q ap.sp ap.x → From lemp b b' q ap
  | reduce {c : Nat} {r : Rule} : ap.type = .REDUCE → lemp.rules[ap.x]? = some r → b.At q c →
      itemAt b.heap c = (ap.x, r.rhs.length) → ap.sp < lemp.nterminal →
      setFind (configAt b'.heap c).fws ap.sp = true → From lemp b b' q ap
  | accept : q = 0 → ap = ⟨lemp.startSymbol, .ACCEPT, 0⟩ → From lemp b b' q ap

theorem mem_from {b' : Build} (h : Inv lemp b) (hsame : SameStates b b') (hst : b.states[q]? = some st) :
    ap ∈ stateActions lemp b' q st ↔ From lemp b b' q ap := by
  rw [mem_stateActions]
  constructor
  · intro hap
    rcases hap with ⟨hq, hap⟩ | ⟨c, hc, hap⟩ | hap
    · exact .accept hq hap
    · obtain ⟨⟨r, hr, hlen⟩, hsp, hfind, htype, hx⟩ := mem_reduceActions.1 hap
      rw [← hx] at hr
      refine .reduce htype hr ⟨st, hst, hc⟩ ?_ hsp hfind
      rw [← hsame.item]
      exact Prod.ext hx.symm hlen.symm
    · obtain ⟨htype, hg⟩ := h.acts q st hst ap hap
      exact .shift htype ⟨st, hst, hap⟩ hg
  · intro hap
    cases hap with
    | shift _ hex _ =>
      obtain ⟨st', hst', hap⟩ := hex
      rw [hst] at hst'
      cases hst'
      exact .inr (.inr hap)
    | @reduce c r htype hr hc hitem hsp hfind =>
      obtain ⟨st', hst', hc⟩ := hc
      rw [hst] at hst'
      cases hst'
      have hcitem : itemAt b'.heap c = (ap.x, r.rhs.length) := (hsame.item c).trans hitem
      refine .inr (.inl ⟨c, hc, mem_reduceActions.2 ⟨⟨r, ?_, ?_⟩, hsp, hfind, htype, ?_⟩⟩)
      · rw [hcitem]
        exact hr
      · rw [hcitem]
      · rw [hcitem]
    | accept hq hap => exact .inl ⟨hq, hap⟩

/-- The first state has an item only if the start symbol is a nonterminal. -/
theorem Inv.start_nonterminal (h : Inv lemp b) (hc : b.At 0 c) : lemp.nterminal ≤ lemp.startSymbol := by
  obtain ⟨st, hst, hc⟩ := hc
  have hcl := ((h.ok st (List.mem_of_getElem? hst)).items _).1 ⟨c, hc, rfl⟩
  have hbase : ∃ x, x ∈ st.bp.map (itemAt b.heap) := by
    generalize (st.list b.heap).item c = x at hcl
    induction hcl with
    | base hmem => exact ⟨_, hmem⟩
    | step _ _ ih => exact ih
  obtain ⟨x, hx⟩ := hbase
  obtain ⟨r, hr, hlhs⟩ := Lemon.mem_rulesOf.1 (((h.start st hst).1 x).1 hx).2
  rw [← hlhs]
  exact (lemp.lhs_nonterminal r (Lemon.rule_mem hr)).1

/-- The start symbol is not shifted. -/
theorem StartFree.goto {X q' : Nat} (hfree : StartFree lemp) (hg : Goto lemp b q X q') : X ≠ lemp.startSymbol := by
  intro heq
  obtain ⟨⟨c, _, hX⟩, _⟩ := hg
  obtain ⟨r, hr, hmem⟩ := Option.bind_eq_some_iff.1 hX
  exact hfree r (Lemon.rule_mem hr) (heq ▸ List.mem_of_getElem? hmem)

/-- Of two different actions for one lookahead at least one is a reduction, and `accept` has no other. -/
theorem From.conflict {b' : Build} (h : Inv lemp b) (hfree : StartFree lemp) {ap ap' : Action}
    (hf : From lemp b b' q ap) (hf' : From lemp b b' q ap') (hsp : ap.sp = ap'.sp) :
    (ap.type = .REDUCE ∧ ap'.type = .REDUCE) ∨ (ap.type = .SHIFT ∧ ap'.type = .REDUCE) ∨
      (ap.type = .REDUCE ∧ ap'.type = .SHIFT) ∨ (ap.type = ap'.type ∧ ap.type ≠ .REDUCE) := by
  cases hf with
  | shift ht _ hg =>
    cases hf' with
    | shift ht' _ _ => exact .inr (.inr (.inr ⟨ht.trans ht'.symm, by rw [ht]; exact ActionType.noConfusion⟩))
    | reduce ht' _ _ _ _ _ => exact .inr (.inl ⟨ht, ht'⟩)
    | accept _ heq =>
      have hX : ap.sp = lemp.startSymbol := by
        rw [hsp, heq]
      exact absurd hX (hfree.goto hg)
  | reduce ht _ hc _ hlt _ =>
    cases hf' with
    | shift ht' _ _ => exact .inr (.inr (.inl ⟨ht, ht'⟩))
    | reduce ht' _ _ _ _ _ => exact .inl ⟨ht, ht'⟩
    | accept hq heq =>
      subst hq
      have hge := h.start_nonterminal hc
      have hX : ap.sp = lemp.startSymbol := by
        rw [hsp, heq]
      omega
  | accept hq heq =>
    cases hf' with
    | shift _ _ hg =>
      have hX : ap'.sp = lemp.startSymbol := by
        rw [← hsp, heq]
      exact absurd hX (hfree.goto hg)
    | reduce _ _ hc _ hlt _ =>
      subst hq
      have hge := h.start_nonterminal hc
      have hX : ap'.sp = lemp.startSymbol := by
        rw [← hsp, heq]
      omega
    | accept _ heq' => exact .inr (.inr (.inr ⟨by rw [heq, heq'], by rw [heq]; exact ActionType.noConfusion⟩))

theorem twice_symm {a a' : Action} (hno : ¬ (a.sp = a'.sp ∧ a.type = a'.type ∧ a.type ≠ .REDUCE)) :
    ¬ (a'.sp = a.sp ∧ a'.type = a.type ∧ a'.type ≠ .REDUCE) := by
  intro hyes
  exact hno ⟨hyes.1.symm, hyes.2.1.symm, hyes.2.1 ▸ hyes.2.2⟩

/-- No two shifts, and no two `accept`, have one lookahead. -/
theorem stateActions_once {b' : Build} (h : Inv lemp b) (hst : b.states[q]? = some st) :
    (stateActions lemp b' q st).Pairwise fun a a' => ¬ (a.sp = a'.sp ∧ a.type = a'.type ∧ a.type ≠ .REDUCE) := by
  have hshift : ∀ ap ∈ st.ap, ap.type = .SHIFT := fun ap hap => (h.acts q st hst ap hap).1
  refine (stateActions_perm.pairwise_iff twice_symm).2 ?_
  rw [List.pairwise_append, List.pairwise_append]
  refine ⟨?_, ⟨?_, ?_, fun a ha a' _ hyes => hyes.2.2 (type_of_reduction ha)⟩, fun a ha a' ha' hyes => ?_⟩
  · unfold acceptActions
    split <;> simp
  · have hany : (st.cfp.flatMap (reduceActions lemp b'.heap)).Pairwise fun _ _ => True :=
      List.pairwise_of_forall fun _ _ => trivial
    refine hany.imp_of_mem ?_
    intro a a' ha _ _ hyes
    exact hyes.2.2 (type_of_reduction ha)
  · have hone := h.one st (List.mem_of_getElem? hst)
    rw [List.Nodup, List.pairwise_map] at hone
    exact hone.imp fun hne hyes => hne hyes.1
  · have htype := type_of_accept ha
    rcases List.mem_append.1 ha' with ha' | ha'
    · have heq := hyes.2.1
      rw [htype, type_of_reduction ha'] at heq
      cases heq
    · have heq := hyes.2.1
      rw [htype, hshift a' ha'] at heq
      cases heq

/-- No action comes twice. -/
theorem stateActions_nodup {b' : Build} (h : Inv lemp b) (hsame : SameStates b b')
    (hst : b.states[q]? = some st) : (stateActions lemp b' q st).Nodup := by
  have hshift : ∀ ap ∈ st.ap, ap.type = .SHIFT := fun ap hap => (h.acts q st hst ap hap).1
  rw [stateActions_perm.nodup_iff, List.nodup_append, List.nodup_append]
  refine ⟨?_, ⟨(reductions_nodup h hsame hst).of_map, (h.one st (List.mem_of_getElem? hst)).of_map, ?_⟩, ?_⟩
  · unfold acceptActions
    split <;> simp
  · intro a ha a' ha' heq
    have htype := type_of_reduction ha
    rw [heq, hshift a' ha'] at htype
    cases htype
  · intro a ha a' ha' heq
    have htype := type_of_accept ha
    rcases List.mem_append.1 ha' with ha' | ha'
    · rw [heq, type_of_reduction ha'] at htype
      cases htype
    · rw [heq, hshift a' ha'] at htype
      cases htype

/-- The actions are in an order that `resolve_conflict` can work with. -/
theorem stateActions_tidy {b' : Build} (h : Inv lemp b) (hsame : SameStates b b') (hfree : StartFree lemp)
    (hst : b.states[q]? = some st) : Tidy (actionSort (stateActions lemp b' q st)) := by
  have hlen := length_stateActions h hsame hst
  have hsorted := actionSort_sorted hlen
  have hperm := actionSort_perm hlen
  have hfrom : ∀ ap ∈ actionSort (stateActions lemp b' q st), From lemp b b' q ap :=
    fun ap hap => (mem_from h hsame hst).1 (hperm.mem_iff.1 hap)
  have honce : (actionSort (stateActions lemp b' q st)).Pairwise
      fun a a' => ¬ (a.sp = a'.sp ∧ a.type = a'.type ∧ a.type ≠ .REDUCE) := by
    refine (hperm.pairwise_iff twice_symm).2 ?_
    exact stateActions_once h hst
  constructor
  · refine hsorted.imp fun hle => ?_
    rcases hle with hlt | ⟨heq, _⟩
    · exact hlt.le
    · exact heq.le
  · refine (hsorted.and honce).imp_of_mem fun {a a'} ha ha' hboth hsp _ _ => ?_
    obtain ⟨hle, hno⟩ := hboth
    unfold Conflicting
    rcases (hfrom a ha).conflict h hfree (hfrom a' ha') hsp with ⟨h1, h2⟩ | ⟨h1, h2⟩ | ⟨h1, h2⟩ | ⟨h1, h2⟩
    · exact ⟨.inr h1, h2⟩
    · exact ⟨.inl h1, h2⟩
    · -- a shift is sorted before a reduction
      exfalso
      rcases hle with hlt | ⟨_, hlt | ⟨heq, _⟩⟩
      · omega
      · rw [h1, h2] at hlt
        exact absurd hlt (by decide)
      · rw [h1, h2] at heq
        cases heq
    · exact absurd ⟨hsp, h1, h2⟩ hno

/-! ## What the parser does -/

/-- An action of the LALR(1) parser of the grammar in the state `q`. -/
inductive LalrAction (lemp : Lemon) (q : Nat) (ap : Action) : Prop
  | shift : ap.type = .SHIFT →
      (automaton lemp (findStates lemp) (findStates_complete lemp)).goto q (lemp.toSymbol ap.sp) ap.x →
      LalrAction lemp q ap
  | reduce {r : Rule} : ap.type = .REDUCE → lemp.rules[ap.x]? = some r → ap.sp < lemp.nterminal →
      (automaton lemp (findStates lemp) (findStates_complete lemp)).Lalr 0 q ap.x r.rhs.length ap.sp →
      LalrAction lemp q ap
  | accept : q = 0 → ap = ⟨lemp.startSymbol, .ACCEPT, 0⟩ → LalrAction lemp q ap

/-- What the actions `r` of a state and its count of conflicts say. -/
structure Decides (lemp : Lemon) (q : Nat) (r : List Action × Nat) : Prop where
  sound : ∀ ap ∈ r.1, ap.inUse = true → LalrAction lemp q ap
  served : ∀ ap, LalrAction lemp q ap → Served r.1 ap.sp
  once : (usedSps r.1).Nodup
  clean : (∀ ap ap', LalrAction lemp q ap → LalrAction lemp q ap' → ap.sp = ap'.sp → ap = ap') →
    r.2 = 0 ∧ ∀ ap, ap ∈ r.1 ↔ LalrAction lemp q ap

theorem from_iff_lalr :
    From lemp (findStates lemp) (findFollowSets lemp (findLinks (findStates lemp))) q ap ↔ LalrAction lemp q ap := by
  have h := findStates_complete lemp
  constructor
  · intro hf
    cases hf with
    | shift htype hex _ =>
      obtain ⟨st, hst, hap⟩ := hex
      exact .shift htype ⟨ap.sp, rfl, st, ap, hst, hap, rfl, rfl⟩
    | @reduce c r htype hr hc hitem hsp hfind =>
      have hl := (h.lalr_of_follows ((findFollow_iff h.inv hc).1 hfind)).2 q hc
      rw [hitem] at hl
      exact .reduce htype hr hsp hl
    | accept hq hap => exact .accept hq hap
  · intro hl
    cases hl with
    | shift htype hg =>
      obtain ⟨X, hX, st, ap', hst, hap, hsp, hx⟩ := hg
      obtain ⟨htype', hgoto⟩ := h.inv.acts q st hst ap' hap
      obtain rfl := Lemon.toSymbol_inj.1 hX
      have heq : ap' = ap := by
        cases ap
        cases ap'
        rw [Action.mk.injEq]
        exact ⟨hsp, htype'.trans htype.symm, hx⟩
      subst heq
      exact .shift htype ⟨st, hst, hap⟩ hgoto
    | reduce htype hr hsp hl =>
      obtain ⟨c, hc, hitem, hf⟩ := h.follows_of_lalr hl (findStates_spec lemp).2.1
      exact .reduce htype hr hc hitem hsp ((findFollow_iff h.inv hc).2 hf)
    | accept hq hap => exact .accept hq hap

theorem LalrAction.lt (h : LalrAction lemp q ap) : q < (findStates lemp).states.length := by
  cases from_iff_lalr.2 h with
  | shift _ hex _ =>
    obtain ⟨st, hst, _⟩ := hex
    exact (List.getElem?_eq_some_iff.1 hst).1
  | reduce _ _ hc _ _ _ => exact hc.lt
  | accept hq _ =>
    rw [hq]
    exact (findStates_spec lemp).2.1

theorem LalrAction.inUse (h : LalrAction lemp q ap) : ap.inUse = true := by
  unfold Action.inUse
  cases h with
  | shift htype _ => rw [htype]; rfl
  | reduce htype _ _ _ => rw [htype]; rfl
  | accept _ hap => rw [hap]; rfl

theorem findActions_getElem? (lemp : Lemon) (b : Build) (q : Nat) : (findActions lemp b)[q]? =
    (b.states[q]?).map fun st => resolveAll lemp (actionSort (stateActions lemp b q st)) := by
  unfold findActions
  rw [List.getElem?_mapIdx]

/-- **The actions of a state are those of the LALR(1) parser.** One stays in use for each lookahead
that has any; where none has two, all of them stay and no conflict is counted. -/
theorem findActions_decides (lemp : Lemon) (hfree : StartFree lemp) (q : Nat) :
    Decides lemp q ((findActions lemp (findFollowSets lemp (findLinks (findStates lemp)))).getD q ([], 0)) := by
  have h := (findStates_complete lemp).inv
  have hsame := follow_same h
  rw [List.getD_eq_getElem?_getD, findActions_getElem?, hsame.states]
  cases hst : (findStates lemp).states[q]? with
  | none =>
    have hno : ∀ ap, ¬ LalrAction lemp q ap := by
      intro ap hl
      exact absurd hl.lt (Nat.not_lt.2 (List.getElem?_eq_none_iff.1 hst))
    exact ⟨fun ap hap _ => absurd hap List.not_mem_nil, fun ap hl => absurd hl (hno ap), .nil,
      fun _ => ⟨rfl, fun ap => ⟨fun hap => absurd hap List.not_mem_nil, fun hl => absurd hl (hno ap)⟩⟩⟩
  | some st =>
    have htidy := stateActions_tidy h hsame hfree hst
    have hperm := actionSort_perm (length_stateActions h hsame hst)
    have hmem : ∀ ap, ap ∈ actionSort (stateActions lemp (findFollowSets lemp (findLinks (findStates lemp))) q st) ↔
        LalrAction lemp q ap := by
      intro ap
      rw [hperm.mem_iff, mem_from h hsame hst, from_iff_lalr]
    rw [Option.map_some, Option.getD_some]
    refine ⟨?_, ?_, resolveAll_nodup htidy, ?_⟩
    · intro ap hap hu
      obtain ⟨ap0, hap0, hkept⟩ := exists_kept (resolveAll_kept htidy) hap
      rw [hkept.eq hu]
      exact (hmem ap0).1 hap0
    · intro ap hl
      exact resolveAll_served htidy ⟨ap, (hmem ap).2 hl, rfl, hl.inUse⟩
    · intro hone
      have hdistinct : ((actionSort (stateActions lemp (findFollowSets lemp (findLinks (findStates lemp))) q st)).map
          Action.sp).Nodup := by
        have hnodup := hperm.nodup_iff.2 (stateActions_nodup h hsame hst)
        refine hnodup.map_on fun ap hap ap' hap' hsp => ?_
        exact hone ap ap' ((hmem ap).1 hap) ((hmem ap').1 hap') hsp
      rw [resolveAll_of_distinct hdistinct]
      exact ⟨rfl, hmem⟩

/-! ## With default reductions -/

theorem startSymbol_lt (lemp : Lemon) : lemp.startSymbol < lemp.nsymbol := by
  unfold Lemon.startSymbol
  simp only
  cases hfind : lemp.start.bind lemp.symbolFind with
  | none => exact (lemp.lhs_nonterminal _ (List.head_mem lemp.rules_ne)).2
  | some x =>
    obtain ⟨name, _, hx⟩ := Option.bind_eq_some_iff.1 hfind
    unfold Lemon.symbolFind at hx
    obtain ⟨hlt, _⟩ := List.findIdx?_eq_some_iff_getElem.1 hx
    exact hlt

theorem LalrAction.sp_lt (h : LalrAction lemp q ap) : ap.sp < lemp.nsymbol := by
  cases from_iff_lalr.2 h with
  | shift _ _ hg =>
    obtain ⟨⟨c, _, hX⟩, _⟩ := hg
    exact (nextSymbol_lt hX).2
  | reduce _ _ _ _ hsp _ => exact Nat.lt_of_lt_of_le hsp lemp.nterminal_le
  | accept _ hap =>
    rw [hap]
    exact startSymbol_lt lemp

/-- The actions of a state before the tables are compressed. -/
theorem mem_parseActions (hfree : StartFree lemp) {aps : List Action}
    (h : (parseActions lemp compress)[q]? = some aps) : ∃ r : List Action × Nat, Decides lemp q r ∧
      r.1.length < 2 ^ 30 ∧ (∀ ap ∈ r.1, ap.sp < lemp.nsymbol) ∧
      aps = if compress then compressState lemp.nsymbol r.1 else r.1 := by
  unfold parseActions at h
  rw [List.getElem?_map, Option.map_eq_some_iff] at h
  obtain ⟨r, hr, rfl⟩ := h
  have hd := findActions_decides lemp hfree q
  rw [List.getD_eq_getElem?_getD, hr, Option.getD_some] at hd
  have hinv := (findStates_complete lemp).inv
  have hsame := follow_same hinv
  rw [findActions_getElem?, hsame.states, Option.map_eq_some_iff] at hr
  obtain ⟨st, hst, rfl⟩ := hr
  have htidy := stateActions_tidy hinv hsame hfree hst
  have hkept : List.Forall₂ Kept _ (resolveAll lemp _).1 := resolveAll_kept htidy
  have hlen := length_stateActions hinv hsame hst
  have hperm := actionSort_perm hlen
  refine ⟨_, hd, ?_, ?_, rfl⟩
  · rw [← hkept.length_eq, hperm.length_eq]
    exact hlen
  · intro ap hap
    obtain ⟨ap0, hap0, hk⟩ := exists_kept hkept hap
    rw [hk.sp]
    exact (from_iff_lalr.1 ((mem_from hinv hsame hst).1 (hperm.mem_iff.1 hap0))).sp_lt

/-- **No two actions of a state that are in use have one lookahead**, the default counted as one. -/
theorem parseActions_one (hfree : StartFree lemp) : OneAction (parseActions lemp compress) := by
  intro aps haps
  obtain ⟨q, hq⟩ := List.mem_iff_getElem?.1 haps
  obtain ⟨r, hd, hlen, hsp, rfl⟩ := mem_parseActions hfree hq
  split
  next => exact compress_nodup hlen hd.once fun ap hap => (hsp ap hap).ne
  next => exact hd.once

/-- The default of a state, for one of its reductions. -/
def IsDefault (lemp : Lemon) (q : Nat) (ap : Action) : Prop :=
  ∃ ap0, LalrAction lemp q ap0 ∧ ap0.type = .REDUCE ∧ ap = ⟨lemp.nsymbol, .REDUCE, ap0.x⟩

theorem parseActions_sound (hfree : StartFree lemp) {aps : List Action}
    (h : (parseActions lemp compress)[q]? = some aps) (hap : ap ∈ aps) (hu : ap.inUse = true) :
    LalrAction lemp q ap ∨ IsDefault lemp q ap := by
  obtain ⟨r, hd, hlen, _, rfl⟩ := mem_parseActions hfree h
  split at hap
  next =>
    rcases @compress_mem lemp.nsymbol r.1 hlen with heq | ⟨rbest, ⟨ap0, hap0, htype, hx⟩, hmem⟩
    · rw [heq] at hap
      exact .inl (hd.sound ap hap hu)
    · rcases (hmem ap hu).1 hap with ⟨hold, _⟩ | hdflt
      · exact .inl (hd.sound ap hold hu)
      · have hu0 : ap0.inUse = true := by
          unfold Action.inUse
          rw [htype]
          rfl
        exact .inr ⟨ap0, hd.sound ap0 hap0 hu0, htype, hx ▸ hdflt⟩
  next => exact .inl (hd.sound ap hap hu)

/-- The only action for its lookahead. -/
def Alone (lemp : Lemon) (q : Nat) (ap : Action) : Prop :=
  LalrAction lemp q ap ∧ ∀ ap', LalrAction lemp q ap' → ap'.sp = ap.sp → ap' = ap

theorem parseActions_kept (hfree : StartFree lemp) {aps : List Action}
    (h : (parseActions lemp compress)[q]? = some aps) (hal : Alone lemp q ap) :
    ap ∈ aps ∨ (ap.type = .REDUCE ∧ ⟨lemp.nsymbol, .REDUCE, ap.x⟩ ∈ aps) := by
  obtain ⟨r, hd, hlen, _, rfl⟩ := mem_parseActions hfree h
  obtain ⟨ap', hap', hsp, hu⟩ := hd.served ap hal.1
  obtain rfl := hal.2 ap' (hd.sound ap' hap' hu) hsp
  split
  next =>
    rcases @compress_mem lemp.nsymbol r.1 hlen with heq | ⟨rbest, _, hmem⟩
    · rw [heq]
      exact .inl hap'
    · by_cases hred : Reduces rbest ap'
      · exact .inr ⟨hred.1, (hmem _ rfl).2 (.inr (by rw [hred.2]))⟩
      · exact .inl ((hmem ap' hu).2 (.inl ⟨hap', hred⟩))
  next => exact .inl hap'

theorem length_parseActions : (parseActions lemp compress).length = (findStates lemp).states.length := by
  unfold parseActions findActions
  rw [List.length_map, List.length_mapIdx]
  exact congrArg List.length (follow_same (findStates_complete lemp).inv).states

theorem LalrAction.lt_parse (compress : Bool) (h : LalrAction lemp q ap) : q < (parseActions lemp compress).length := by
  rw [length_parseActions]
  exact h.lt

/-- **The actions of the generated parser are those of the LALR(1) parser**, one at most for each
lookahead; an action without a conflict is there, or the default makes its reduction. -/
theorem parseActions_lalr (lemp : Lemon) (hfree : StartFree lemp) (compress : Bool) (q : Nat) :
    (usedSps (actionsOf (parseActions lemp compress) q)).Nodup ∧
      (∀ ap ∈ actionsOf (parseActions lemp compress) q, ap.inUse = true →
        LalrAction lemp q ap ∨ IsDefault lemp q ap) ∧
      ∀ ap, Alone lemp q ap → ap ∈ actionsOf (parseActions lemp compress) q ∨
        (ap.type = .REDUCE ∧ ⟨lemp.nsymbol, .REDUCE, ap.x⟩ ∈ actionsOf (parseActions lemp compress) q) := by
  unfold actionsOf
  rw [List.getD_eq_getElem?_getD]
  cases h : (parseActions lemp compress)[q]? with
  | none =>
    refine ⟨.nil, fun ap hap => absurd hap List.not_mem_nil, fun ap hal => ?_⟩
    exact absurd (hal.1.lt_parse compress) (Nat.not_lt.2 (List.getElem?_eq_none_iff.1 h))
  | some aps =>
    exact ⟨parseActions_one hfree aps (List.mem_of_getElem? h), fun _ hap hu => parseActions_sound hfree h hap hu,
      fun _ hal => parseActions_kept hfree h hal⟩

/-- Sums: `s ::= e`, `e ::= e PLUS e` and `e ::= NUM`, where `PLUS` has no precedence. -/
def sums : Lemon where
  symbols := [⟨"$", none, -1, .UNK⟩, ⟨"NUM", none, -1, .UNK⟩, ⟨"PLUS", none, -1, .UNK⟩,
    ⟨"e", none, -1, .UNK⟩, ⟨"s", none, -1, .UNK⟩]
  nterminal := 3
  rules := [⟨4, [3], none⟩, ⟨3, [3, 2, 3], none⟩, ⟨3, [1], none⟩]
  start := none
  errsym := 0
  nterminal_pos := by decide
  nterminal_le := by decide
  lhs_nonterminal := by decide
  rhs_symbol := by decide
  fallback_token := by simp
  rules_ne := by simp
  actions_small := by decide
  items_small := by decide

theorem sums_free : StartFree sums := by
  unfold StartFree
  decide

/-- The states of `sums`. -/
def sumsStates : List State :=
  [⟨[0], [0, 2, 1], [⟨1, .SHIFT, 4⟩, ⟨3, .SHIFT, 1⟩]⟩, ⟨[3, 4], [3, 4], [⟨2, .SHIFT, 2⟩]⟩,
    ⟨[5], [7, 5, 6], [⟨1, .SHIFT, 4⟩, ⟨3, .SHIFT, 3⟩]⟩, ⟨[8, 9], [8, 9], [⟨2, .SHIFT, 2⟩]⟩,
    ⟨[11], [11], []⟩]

/-- Its configurations before the follow sets are made. -/
def sumsLinks : List Config :=
  let empty := [false, false, false, false]
  let plus := [false, false, true, false]
  [⟨0, 0, [true, false, false, false], [3, 2, 1], []⟩, ⟨2, 0, plus, [11], []⟩, ⟨1, 0, plus, [4], []⟩,
    ⟨0, 1, empty, [], [0]⟩, ⟨1, 1, empty, [5], [2]⟩, ⟨1, 2, empty, [9, 7, 6], [8, 4]⟩,
    ⟨2, 0, plus, [11], []⟩, ⟨1, 0, plus, [8], []⟩, ⟨1, 1, empty, [5], [7]⟩, ⟨1, 3, empty, [], [5]⟩,
    ⟨1, 2, empty, [], []⟩, ⟨2, 1, empty, [], [1, 6]⟩, ⟨2, 1, empty, [], []⟩]

theorem sums_links : findLinks (findStates sums) = ⟨sumsLinks, sumsStates⟩ := by cbv

/-- `$` follows the start rule, `$` and `PLUS` every other; two configurations were not used. -/
theorem sums_follow : findFollowSets sums ⟨sumsLinks, sumsStates⟩ =
    ⟨sumsLinks.mapIdx fun i c => { c with fws :=
      if i = 0 ∨ i = 3 then [true, false, false, false]
      else if i = 10 ∨ i = 12 then c.fws
      else [true, false, true, false] }, sumsStates⟩ := by rfl

/-- Behind `e PLUS e` the shift of `PLUS` wins over the reduction; behind `NUM` the reduction is the
default. -/
theorem parseActions_lalr_sums :
    actionsOf (parseActions sums true) 3 = [⟨0, .REDUCE, 1⟩, ⟨2, .SHIFT, 2⟩, ⟨2, .CONFLICT, 1⟩] ∧
    actionsOf (parseActions sums true) 4 = [⟨2, .NOT_USED, 2⟩, ⟨5, .REDUCE, 2⟩] ∧
    ∀ q, (usedSps (actionsOf (parseActions sums true) q)).Nodup ∧
      (∀ ap ∈ actionsOf (parseActions sums true) q, ap.inUse = true →
        LalrAction sums q ap ∨ IsDefault sums q ap) ∧
      ∀ ap, Alone sums q ap → ap ∈ actionsOf (parseActions sums true) q ∨
        (ap.type = .REDUCE ∧ ⟨sums.nsymbol, .REDUCE, ap.x⟩ ∈ actionsOf (parseActions sums true) q) := by
  refine ⟨?_, ?_, fun q => parseActions_lalr sums sums_free true q⟩
  · unfold parseActions
    rw [sums_links, sums_follow]
    cbv
  · unfold parseActions
    rw [sums_links, sums_follow]
    cbv

/-! ## The engine on these tables -/

variable {sts : List (List Action)} {aps : List Action} {act : Nat}

/-- The default of a state is the error, or the action with the lookahead `{default}`. -/
theorem iDflt_cases (lemp : Lemon) (sts : List (List Action)) (aps : List Action) :
    iDflt lemp sts aps = sts.length + lemp.nrule ∨
      ∃ ap ∈ aps, lemp.nsymbol ≤ ap.sp ∧ actCode lemp sts ap = some (iDflt lemp sts aps) := by
  unfold iDflt
  generalize sts.length + lemp.nrule = d
  induction aps generalizing d with
  | nil => exact .inl rfl
  | cons ap aps ih =>
    rw [List.foldl_cons]
    rcases ih (if lemp.nsymbol ≤ ap.sp then (actCode lemp sts ap).getD d else d) with heq | ⟨ap', hmem, hsp, hcode⟩
    · rw [heq]
      split
      next hle =>
        cases hcode : actCode lemp sts ap with
        | none => exact .inl rfl
        | some act => exact .inr ⟨ap, List.mem_cons_self, hle, hcode⟩
      next => exact .inl rfl
    · exact .inr ⟨ap', List.mem_cons_of_mem ap hmem, hsp, hcode⟩

/-- What the engine may do in a state on the symbol `a`: the error, a reduction of the LALR(1)
parser, or its action on `a` or one of the symbols `a` falls back to. -/
def Allowed (lemp : Lemon) (sts : List (List Action)) (q a act : Nat) : Prop :=
  act = sts.length + lemp.nrule ∨ ∃ ap, LalrAction lemp q ap ∧ actCode lemp sts ap = some act ∧
    (ap.type = .REDUCE ∨ Relation.ReflTransGen (fun x y => lemp.fallback x = some y) a ap.sp)

theorem iDflt_allowed (hfree : StartFree lemp) (h : (parseActions lemp compress)[q]? = some aps) :
    Allowed lemp (parseActions lemp compress) q a (iDflt lemp (parseActions lemp compress) aps) := by
  rcases iDflt_cases lemp (parseActions lemp compress) aps with heq | ⟨ap, hap, hsp, hcode⟩
  · exact .inl heq
  · rcases parseActions_sound hfree h hap (actCode_inUse hcode) with hl | ⟨ap0, hl, htype, rfl⟩
    · exact absurd hl.sp_lt (Nat.not_lt.2 hsp)
    · refine .inr ⟨ap0, hl, ?_, .inl htype⟩
      obtain ⟨sp, type, x⟩ := ap0
      cases htype
      exact hcode

theorem set_allowed (hfree : StartFree lemp) (h : (parseActions lemp compress)[q]? = some aps) (hap : ap ∈ aps)
    (hsp : ap.sp < lemp.nsymbol) (hcode : actCode lemp (parseActions lemp compress) ap = some act) :
    Allowed lemp (parseActions lemp compress) q ap.sp act := by
  rcases parseActions_sound hfree h hap (actCode_inUse hcode) with hl | ⟨ap0, _, _, rfl⟩
  · exact .inr ⟨ap, hl, hcode, .inr .refl⟩
  · exact absurd hsp (Nat.lt_irrefl _)

theorem actionsOf_getElem? (hq : q < sts.length) : sts[q]? = some (actionsOf sts q) := by
  unfold actionsOf
  rw [List.getD_eq_getElem?_getD, List.getElem?_eq_getElem hq, Option.getD_some]

theorem shiftSpec_allowed {fuel : Nat} (hfree : StartFree lemp) (hq : q < (parseActions lemp compress).length)
    (h : Order.shiftSpec lemp (parseActions lemp compress) q fuel a = some act) :
    Allowed lemp (parseActions lemp compress) q a act := by
  have hrow := actionsOf_getElem? hq
  induction fuel generalizing a with
  | zero => cases h
  | succ fuel ih =>
    unfold Order.shiftSpec at h
    split at h
    next =>
      cases h
      exact iDflt_allowed hfree hrow
    next =>
      cases hact : Order.actOf (setOf lemp (parseActions lemp compress) q true) a with
      | some act' =>
        rw [hact] at h
        cases h
        have hmem := (Order.actOf_eq_some (setOf_nodup (parseActions_one hfree) q true)).1 hact
        obtain ⟨hlt, ap, hap, rfl, hcode⟩ := mem_tokenActs.1 hmem
        exact set_allowed hfree hrow hap (Nat.lt_of_lt_of_le hlt lemp.nterminal_le) hcode
      | none =>
        rw [hact] at h
        cases hfb : lemp.fallback a with
        | none =>
          rw [hfb] at h
          cases h
          exact iDflt_allowed hfree hrow
        | some x =>
          rw [hfb] at h
          rcases ih h with herr | ⟨ap, hl, hcode, htype | hreach⟩
          · exact .inl herr
          · exact .inr ⟨ap, hl, hcode, .inl htype⟩
          · exact .inr ⟨ap, hl, hcode, .inr (.head hfb hreach)⟩

variable {o : Order lemp (parseActions lemp compress)} {depth fuel : Nat}

/-- **What the engine does on a token** the LALR(1) parser does on it or on one of its fallbacks,
unless it is an error or a reduction by default. -/
theorem engine_sound (hfree : StartFree lemp) (hclash : o.ClashFree) (hq : q < (findStates lemp).states.length)
    (ha : a < lemp.nterminal) (h : findShiftLoop (o.tables depth) fuel q a = some act) :
    Allowed lemp (parseActions lemp compress) q a act := by
  have hq' : q < (parseActions lemp compress).length := by
    rw [length_parseActions]
    exact hq
  rw [Order.findShift_eq (parseActions_one hfree) hclash hq' ha] at h
  exact shiftSpec_allowed hfree hq' h

/-- On a nonterminal there is nothing but the shift. -/
theorem LalrAction.alone_goto (hfree : StartFree lemp) (hl : LalrAction lemp q ap) (hX : lemp.nterminal ≤ ap.sp)
    (htype : ap.type = .SHIFT) : Alone lemp q ap := by
  have hinv := (findStates_complete lemp).inv
  refine ⟨hl, fun ap' hl' hsp => ?_⟩
  cases from_iff_lalr.2 hl with
  | shift _ hex hg =>
    cases from_iff_lalr.2 hl' with
    | shift _ hex' _ =>
      obtain ⟨st, hst, hap⟩ := hex
      obtain ⟨st', hst', hap'⟩ := hex'
      rw [hst] at hst'
      cases hst'
      exact List.inj_on_of_nodup_map (hinv.one st (List.mem_of_getElem? hst)) hap' hap hsp
    | reduce _ _ _ _ hlt _ => omega
    | accept _ heq =>
      have hstart : ap.sp = lemp.startSymbol := by
        rw [← hsp, heq]
      exact absurd hstart (hfree.goto hg)
  | reduce hred _ _ _ _ _ =>
    rw [htype] at hred
    cases hred
  | accept _ heq =>
    rw [heq] at htype
    cases htype

/-- **After a reduction the engine goes where the automaton goes.** -/
theorem engine_goto (hfree : StartFree lemp) (hclash : o.ClashFree) {X q' : Nat} (hX : lemp.nterminal ≤ X)
    (hg : Edge lemp (findStates lemp) q (lemp.toSymbol X) q') :
    yyFindReduceAction (o.tables depth) q X = some q' := by
  have hl : LalrAction lemp q ⟨X, .SHIFT, q'⟩ := .shift rfl hg
  have hal := hl.alone_goto hfree hX rfl
  have hq := hl.lt_parse compress
  have hrow := actionsOf_getElem? hq
  have hmem : ⟨X, .SHIFT, q'⟩ ∈ actionsOf (parseActions lemp compress) q := by
    rcases parseActions_kept hfree hrow hal with hap | ⟨hred, _⟩
    · exact hap
    · cases hred
  have hlt : X < lemp.nsymbol := hl.sp_lt
  have hset : (X, q') ∈ setOf lemp (parseActions lemp compress) q false :=
    mem_ntActs.2 ⟨hX, hlt.ne, _, hmem, rfl, rfl⟩
  rw [Order.findReduce_eq (parseActions_one hfree) hclash hq hX hlt,
    (Order.actOf_eq_some (setOf_nodup (parseActions_one hfree) q false)).2 hset, Option.getD_some]

end Dbsql.L7
