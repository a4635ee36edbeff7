import Dbsql.L7Lemon.FollowSets
/-!
# The LR(0) states and the LALR(1) lookaheads

What `FindStates` has made is an automaton over the grammar: the items of a state are the closure
of its basis, and a symbol leads to the state with the items moved over it. The follow sets on top
of it are compared with the definition of the lookaheads by propagation.

Results:
* `findStates_lr0`: the states, their items and their shifts are those of the LR(0) construction
  (`Lr0`), no more and no fewer.
* `automaton`: so they are an `Automaton` of the library.
* `followSets_lalr`: the follow sets have exactly the LALR(1) lookaheads.
-/
namespace Dbsql.L7
open Dbsql.Core ShiftReduce

variable {lemp : Lemon} {b : Build} {q q' X c d i j k a : Nat} {rest : List Nat}

/-- What an automaton needs of the states. -/
structure Complete (lemp : Lemon) (b : Build) : Prop where
  inv : Inv lemp b
  done : ∀ q < b.states.length, Done lemp b q

theorem findStates_complete (lemp : Lemon) : Complete lemp (findStates lemp) :=
  ⟨(findStates_spec lemp).1, (findStates_spec lemp).2.2⟩

/-- The state has the item. -/
def HasItem (b : Build) (q i k : Nat) : Prop := ∃ c, b.At q c ∧ itemAt b.heap c = (i, k)

/-- The state shifts the symbol to the other. -/
def ShiftsTo (b : Build) (q X q' : Nat) : Prop := ∃ st ap, b.states[q]? = some st ∧ ap ∈ st.ap ∧ ap.sp = X ∧ ap.x = q'

theorem Inv.hasItem_iff (h : Inv lemp b) {st : State} (hst : b.states[q]? = some st) :
    HasItem b q i k ↔ InClosure lemp (st.bp.map (itemAt b.heap)) (i, k) := by
  have hitems := (h.ok st (List.mem_of_getElem? hst)).items (i, k)
  refine Iff.trans ?_ hitems
  constructor
  · intro hi
    obtain ⟨c, ⟨st', hst', hc⟩, heq⟩ := hi
    rw [hst] at hst'
    cases hst'
    exact ⟨c, hc, heq⟩
  · intro hi
    obtain ⟨c, hc, heq⟩ := hi
    exact ⟨c, ⟨st, hst, hc⟩, heq⟩

theorem HasItem.state (h : HasItem b q i k) : ∃ st, b.states[q]? = some st := by
  obtain ⟨_, ⟨st, hst, _⟩, _⟩ := h
  exact ⟨st, hst⟩

theorem Inv.item_valid (h : Inv lemp b) (hi : HasItem b q i k) : (i, k) ∈ lemp.items := by
  obtain ⟨st, hst⟩ := hi.state
  have hok := h.ok st (List.mem_of_getElem? hst)
  refine ((h.hasItem_iff hst).1 hi).mem_items fun x hx => ?_
  obtain ⟨c, hc, rfl⟩ := List.mem_map.1 hx
  exact hok.valid c hc

/-- An item that is not in the basis has its dot at the left. -/
theorem Inv.basis_of_dot (h : Inv lemp b) {st : State} (hst : b.states[q]? = some st) (hi : HasItem b q i (k + 1)) :
    (i, k + 1) ∈ st.bp.map (itemAt b.heap) := by
  have hcl := (h.hasItem_iff hst).1 hi
  generalize hx : (i, k + 1) = x at hcl
  cases hcl with
  | base hmem => exact hmem
  | step _ _ => cases hx

theorem shiftsTo_goto (h : Inv lemp b) (hs : ShiftsTo b q X q') : Goto lemp b q X q' := by
  obtain ⟨st, ap, hst, hap, rfl, rfl⟩ := hs
  exact (h.acts q st hst ap hap).2

/-- Sorted bases that say the same are one state's. -/
theorem Inv.state_unique (h : Inv lemp b) {st st' : State} (hst : b.states[q]? = some st) (hst' : b.states[q']? = some st')
    (hmem : ∀ x, x ∈ st.bp.map (itemAt b.heap) ↔ x ∈ st'.bp.map (itemAt b.heap)) : q = q' := by
  have heq := eq_of_sorted (h.ok st (List.mem_of_getElem? hst)).sorted (h.ok st' (List.mem_of_getElem? hst')).sorted hmem
  have hq : b.bases[q]? = some (st.bp.map (itemAt b.heap)) := by
    rw [Build.bases, List.getElem?_map, hst]
    rfl
  have hq' : b.bases[q']? = some (st.bp.map (itemAt b.heap)) := by
    rw [Build.bases, List.getElem?_map, hst']
    exact congrArg some heq.symm
  exact (List.getElem?_inj (List.getElem?_eq_some_iff.1 hq).1 h.bases).1 (hq.trans hq'.symm)

/-- The state a symbol is shifted to is the one with the items moved over it. -/
theorem Complete.shiftsTo_iff (h : Complete lemp b) : ShiftsTo b q X q' ↔ Goto lemp b q X q' := by
  refine ⟨shiftsTo_goto h.inv, fun hg => ?_⟩
  obtain ⟨⟨c, hc, hX⟩, st', hst', hbasis⟩ := hg
  obtain ⟨st, st2, ap, d, hst, hap, hsp, hst2, _⟩ := h.done q hc.lt c hc X hX
  have hgoto := (h.inv.acts q st hst ap hap).2
  obtain ⟨_, st3, hst3, hbasis'⟩ := hgoto
  refine ⟨st, ap, hst, hap, hsp, h.inv.state_unique hst3 hst' fun x => ?_⟩
  rw [hbasis', hbasis, hsp]

/-- A symbol that stands behind the dot in a state is shifted. -/
theorem Complete.shifts (h : Complete lemp b) (hi : HasItem b q i k) (hX : nextSymbol lemp (i, k) = some X) :
    ∃ q', ShiftsTo b q X q' := by
  obtain ⟨c, hc, heq⟩ := hi
  obtain ⟨st, _, ap, _, hst, hap, hsp, _⟩ := h.done q hc.lt c hc X (heq ▸ hX)
  exact ⟨ap.x, st, ap, hst, hap, hsp, rfl⟩

/-- **The sets of items of the LR(0) construction**: the closure of the start symbol's rules, and
with a set the closure of what stands in it before a symbol, with the dot moved over it. -/
inductive Lr0 (lemp : Lemon) : Set (Nat × Nat) → Prop
  | start : Lr0 lemp {x | InClosure lemp ((lemp.rulesOf lemp.startSymbol).map fun r => (r, 0)) x}
  | goto {I : Set (Nat × Nat)} {X : Nat} {J : List (Nat × Nat)} : Lr0 lemp I →
      (∃ x ∈ I, nextSymbol lemp x = some X) →
      (∀ y, y ∈ J ↔ ∃ x ∈ I, nextSymbol lemp x = some X ∧ y = advance x) →
      Lr0 lemp {x | InClosure lemp J x}

/-- The items of a state. -/
def itemsOf (b : Build) (q : Nat) : Set (Nat × Nat) := {x | HasItem b q x.1 x.2}

theorem mem_startItems {x : Nat × Nat} : x ∈ (lemp.rulesOf lemp.startSymbol).map (fun r => (r, 0)) ↔
    x.2 = 0 ∧ x.1 ∈ lemp.rulesOf lemp.startSymbol := by
  rw [List.mem_map]
  constructor
  · intro hx
    obtain ⟨r, hr, rfl⟩ := hx
    exact ⟨rfl, hr⟩
  · intro hx
    exact ⟨x.1, hx.2, Prod.ext rfl hx.1.symm⟩

theorem Inv.itemsOf_eq (h : Inv lemp b) {st : State} (hst : b.states[q]? = some st) :
    itemsOf b q = {x | InClosure lemp (st.bp.map (itemAt b.heap)) x} :=
  Set.ext fun _ => h.hasItem_iff hst

theorem Inv.itemsOf_zero (h : Inv lemp b) (hpos : 0 < b.states.length) :
    itemsOf b 0 = {x | InClosure lemp ((lemp.rulesOf lemp.startSymbol).map fun r => (r, 0)) x} := by
  have hst := List.getElem?_eq_getElem hpos
  obtain ⟨hstart, _⟩ := h.start _ hst
  rw [h.itemsOf_eq hst]
  exact Set.ext fun _ => ⟨.congr fun x hx => mem_startItems.2 ((hstart x).1 hx),
    .congr fun x hx => (hstart x).2 (mem_startItems.1 hx)⟩

theorem Inv.start_dot (h : Inv lemp b) (hi : HasItem b 0 i k) : k = 0 := by
  cases k with
  | zero => rfl
  | succ k =>
    obtain ⟨st, hst⟩ := hi.state
    exact (((h.start st hst).1 (i, k + 1)).1 (h.basis_of_dot hst hi)).1

/-- The items of a later state with the dot inside are its basis. -/
theorem Inv.mem_basis_iff (h : Inv lemp b) {st : State} (hst : b.states[q + 1]? = some st) (x : Nat × Nat) :
    x ∈ st.bp.map (itemAt b.heap) ↔ x ∈ itemsOf b (q + 1) ∧ 0 < x.2 := by
  constructor
  · intro hx
    refine ⟨(h.hasItem_iff hst).2 (.base hx), ?_⟩
    obtain ⟨c, hc, rfl⟩ := List.mem_map.1 hx
    exact h.later q st hst c hc
  · intro hx
    obtain ⟨hi, hpos⟩ := hx
    obtain ⟨i, k⟩ := x
    obtain ⟨k, rfl⟩ := Nat.exists_eq_succ_of_ne_zero hpos.ne'
    exact h.basis_of_dot hst hi

/-- States with the same items are one. -/
theorem Inv.itemsOf_inj (h : Inv lemp b) (hq : q < b.states.length) (hq' : q' < b.states.length)
    (heq : itemsOf b q = itemsOf b q') : q = q' := by
  -- a later state has an item with the dot inside, and the first has none
  have hne : ∀ p, p + 1 < b.states.length → itemsOf b (p + 1) ≠ itemsOf b 0 := by
    intro p hp heq
    obtain ⟨p', _, X, ⟨c, hc, hX⟩, st, hst, hbasis⟩ := h.made p hp
    obtain ⟨hi, hpos⟩ := (h.mem_basis_iff hst (advance (itemAt b.heap c))).1 ((hbasis _).2 ⟨c, hc, hX, rfl⟩)
    rw [heq] at hi
    have hzero := h.start_dot hi
    omega
  cases q with
  | zero =>
    cases q' with
    | zero => rfl
    | succ q' => exact absurd heq.symm (hne q' hq')
  | succ q =>
    cases q' with
    | zero => exact absurd heq (hne q hq)
    | succ q' =>
      have hst := List.getElem?_eq_getElem hq
      have hst' := List.getElem?_eq_getElem hq'
      exact h.state_unique hst hst' fun x => by rw [h.mem_basis_iff hst, h.mem_basis_iff hst', heq]

/-- What stands before the symbol in the items of a state is what stands before it there. -/
theorem mem_itemsOf_advance {y : Nat × Nat} : (∃ x ∈ itemsOf b q, nextSymbol lemp x = some X ∧ y = advance x) ↔
    ∃ c, b.At q c ∧ nextSymbol lemp (itemAt b.heap c) = some X ∧ y = advance (itemAt b.heap c) := by
  constructor
  · intro hx
    obtain ⟨x, ⟨c, hc, heq⟩, hX, rfl⟩ := hx
    have heq : itemAt b.heap c = x := heq
    exact ⟨c, hc, heq ▸ hX, by rw [heq]⟩
  · intro hc
    obtain ⟨c, hc, hX, rfl⟩ := hc
    exact ⟨itemAt b.heap c, ⟨c, hc, rfl⟩, hX, rfl⟩

/-- A move of the construction ends in a state if it begins in one. -/
theorem Lr0.of_goto (hI : Lr0 lemp (itemsOf b q)) (h : Inv lemp b) (hg : Goto lemp b q X q') :
    Lr0 lemp (itemsOf b q') := by
  obtain ⟨⟨c, hc, hX⟩, st, hst, hbasis⟩ := hg
  rw [h.itemsOf_eq hst]
  exact .goto hI ⟨itemAt b.heap c, ⟨c, hc, rfl⟩, hX⟩ fun y => (hbasis y).trans mem_itemsOf_advance.symm

/-- Every state is made by the construction: each but the first is where an earlier one leads. -/
theorem Inv.lr0 (h : Inv lemp b) (hq : q < b.states.length) : Lr0 lemp (itemsOf b q) := by
  induction q using Nat.strong_induction_on with
  | _ q ih =>
    cases q with
    | zero => exact h.itemsOf_zero hq ▸ .start
    | succ q =>
      obtain ⟨q', hle, X, hg⟩ := h.made q hq
      exact (ih q' (by omega) (by omega)).of_goto h hg

/-- And the construction makes nothing else. -/
theorem Complete.of_lr0 (h : Complete lemp b) (hpos : 0 < b.states.length) {I : Set (Nat × Nat)} (hI : Lr0 lemp I) :
    ∃ q < b.states.length, itemsOf b q = I := by
  induction hI with
  | start => exact ⟨0, hpos, h.inv.itemsOf_zero hpos⟩
  | @goto I X J hI hsome hJ ih =>
    obtain ⟨q, hq, rfl⟩ := ih
    obtain ⟨x, hx, hX⟩ := hsome
    obtain ⟨q', hs⟩ := h.shifts hx hX
    obtain ⟨_, st, hst, hbasis⟩ := shiftsTo_goto h.inv hs
    refine ⟨q', (List.getElem?_eq_some_iff.1 hst).1, ?_⟩
    have hmem : ∀ y, y ∈ st.bp.map (itemAt b.heap) ↔ y ∈ J := fun y =>
      ((hbasis y).trans mem_itemsOf_advance.symm).trans (hJ y).symm
    rw [h.inv.itemsOf_eq hst]
    exact Set.ext fun _ => ⟨.congr fun y hy => (hmem y).1 hy, .congr fun y hy => (hmem y).2 hy⟩

theorem Complete.reached (h : Complete lemp b) (hq : q < b.states.length) :
    Relation.ReflTransGen (fun p p' => ∃ X, ShiftsTo b p X p') 0 q := by
  induction q using Nat.strong_induction_on with
  | _ q ih =>
    cases q with
    | zero => exact .refl
    | succ q =>
      obtain ⟨q', hle, X, hg⟩ := h.inv.made q hq
      exact (ih q' (by omega) (by omega)).tail ⟨X, h.shiftsTo_iff.2 hg⟩

/-- **`FindStates` makes the LR(0) states**: the sets of items of its states are those of the
construction, each once; each state has the closure of its basis, state 0 that of the start
symbol's rules; a state shifts every symbol that stands behind a dot in it, to the state with what
stands before the symbol moved over it and no other; and all are reached from state 0. -/
theorem findStates_lr0 (lemp : Lemon) : (findStates lemp).bases.Nodup ∧
    (∀ I, Lr0 lemp I → ∃! q, q < (findStates lemp).states.length ∧ itemsOf (findStates lemp) q = I) ∧
    (∀ q < (findStates lemp).states.length, Lr0 lemp (itemsOf (findStates lemp) q)) ∧
    (∀ q st, (findStates lemp).states[q]? = some st → ∀ i k, HasItem (findStates lemp) q i k ↔
      InClosure lemp (st.bp.map (itemAt (findStates lemp).heap)) (i, k)) ∧
    (∀ i k, HasItem (findStates lemp) 0 i k ↔
      InClosure lemp ((lemp.rulesOf lemp.startSymbol).map fun r => (r, 0)) (i, k)) ∧
    (∀ q X q', ShiftsTo (findStates lemp) q X q' ↔ Goto lemp (findStates lemp) q X q') ∧
    (∀ q i k X, HasItem (findStates lemp) q i k → nextSymbol lemp (i, k) = some X →
      ∃ q', ShiftsTo (findStates lemp) q X q') ∧
    ∀ q < (findStates lemp).states.length,
      Relation.ReflTransGen (fun p p' => ∃ X, ShiftsTo (findStates lemp) p X p') 0 q := by
  have hcomp := findStates_complete lemp
  obtain ⟨hinv, hpos, _⟩ := findStates_spec lemp
  refine ⟨hinv.bases, fun I hI => ?_, fun q hq => hinv.lr0 hq, fun q st hst i k => hinv.hasItem_iff hst,
    fun i k => ?_, fun q X q' => hcomp.shiftsTo_iff, fun q i k X hi hX => hcomp.shifts hi hX, fun q hq => hcomp.reached hq⟩
  · obtain ⟨q, hq, rfl⟩ := hcomp.of_lr0 hpos hI
    exact ⟨q, ⟨hq, rfl⟩, fun q' hq' => hinv.itemsOf_inj hq'.1 hq hq'.2⟩
  · exact Set.ext_iff.1 (hinv.itemsOf_zero hpos) (i, k)

/-! ## The automaton -/

theorem nextSymbol_eq {r : Rule} (hr : lemp.rules[i]? = some r) : nextSymbol lemp (i, k) = r.rhs[k]? := by
  unfold nextSymbol
  rw [hr]
  rfl

/-- The state shifts the symbol of the grammar to the other. -/
def Edge (lemp : Lemon) (b : Build) (q : Nat) (X : Symbol Nat Nat) (q' : Nat) : Prop :=
  ∃ x, lemp.toSymbol x = X ∧ ShiftsTo b q x q'

variable {r : ContextFreeRule Nat Nat} {X' : Symbol Nat Nat}

theorem Inv.hasItem_rule (h : Inv lemp b) (hi : HasItem b q i k) :
    ∃ r, lemp.toGrammar.rules[i]? = some r ∧ k ≤ r.output.length := by
  obtain ⟨r, hr, hk⟩ := mem_items.1 (h.item_valid hi)
  exact ⟨lemp.toRule r, Lemon.toGrammar_rule hr, by simpa using hk⟩

theorem Inv.edge_start (h : Inv lemp b) : ¬ Edge lemp b q X' 0 := by
  intro hg
  obtain ⟨x, _, hs⟩ := hg
  obtain ⟨⟨c, hc, hX⟩, st, hst, hbasis⟩ := shiftsTo_goto h hs
  have hmem := (hbasis _).2 ⟨c, hc, hX, rfl⟩
  have hz := (((h.start st hst).1 _).1 hmem).1
  exact absurd hz (Nat.succ_ne_zero _)

theorem Inv.edge_back (h : Inv lemp b) (hg : Edge lemp b q X' q') (hi : HasItem b q' i (k + 1)) :
    HasItem b q i k ∧ ∀ r, lemp.toGrammar.rules[i]? = some r → r.output[k]? = some X' := by
  obtain ⟨x, rfl, hs⟩ := hg
  obtain ⟨_, st, hst, hbasis⟩ := shiftsTo_goto h hs
  obtain ⟨c, hc, hX, heq⟩ := (hbasis _).1 (h.basis_of_dot hst hi)
  have hitem : itemAt b.heap c = (i, k) := by
    have h1 := congrArg Prod.fst heq
    have h2 := congrArg Prod.snd heq
    exact Prod.ext h1.symm (Nat.succ.inj h2.symm)
  refine ⟨⟨c, hc, hitem⟩, fun r hr => ?_⟩
  obtain ⟨r0, hr0, rfl⟩ := Lemon.of_toGrammar_rule hr
  rw [hitem, nextSymbol_eq hr0] at hX
  rw [Lemon.toRule_output_getElem?, hX]
  rfl

theorem Complete.edge_ready (h : Complete lemp b) (hi : HasItem b q i k) (hr : lemp.toGrammar.rules[i]? = some r)
    (hX : r.output[k]? = some X') : ∃ q', Edge lemp b q X' q' := by
  obtain ⟨r0, hr0, rfl⟩ := Lemon.of_toGrammar_rule hr
  rw [Lemon.toRule_output_getElem?, Option.map_eq_some_iff] at hX
  obtain ⟨x, hx, rfl⟩ := hX
  obtain ⟨c, hc, hitem⟩ := hi
  obtain ⟨st, _, ap, _, hst, hap, hsp, _⟩ := h.done q hc.lt c hc x (by rw [hitem, nextSymbol_eq hr0, hx])
  exact ⟨ap.x, x, rfl, st, ap, hst, hap, hsp, rfl⟩

theorem Complete.item_origin (h : Complete lemp b) (hi : HasItem b q i 0) (hr : lemp.toGrammar.rules[i]? = some r) :
    (q = 0 ∧ r.input = lemp.toGrammar.initial) ∨ ∃ q', Edge lemp b q (.nonterminal r.input) q' := by
  obtain ⟨r0, hr0, rfl⟩ := Lemon.of_toGrammar_rule hr
  obtain ⟨st, hst⟩ := hi.state
  have hcl := (h.inv.hasItem_iff hst).1 hi
  generalize hx : (i, 0) = x at hcl
  cases hcl with
  | base hmem =>
    subst hx
    cases q with
    | zero =>
      obtain ⟨r', hr', hlhs⟩ := Lemon.mem_rulesOf.1 (((h.inv.start st hst).1 (i, 0)).1 hmem).2
      rw [hr0] at hr'
      cases hr'
      exact .inl ⟨rfl, hlhs⟩
    | succ q =>
      obtain ⟨c, hc, hitem⟩ := List.mem_map.1 hmem
      have hpos := h.inv.later q st hst c hc
      rw [hitem] at hpos
      exact absurd hpos (Nat.lt_irrefl 0)
  | @step x j rest hcl hexp =>
    cases hx
    obtain ⟨c, hc, hitem⟩ := ((h.inv.ok st (List.mem_of_getElem? hst)).items x).2 hcl
    obtain ⟨r1, r', hr1, hsym, hr', _⟩ := hexp
    rw [hr0] at hr'
    cases hr'
    have hat : b.At q c := ⟨st, hst, hc⟩
    have hnext : nextSymbol lemp (itemAt b.heap c) = some r0.lhs := by
      have hitem' : itemAt b.heap c = x := hitem
      rw [hitem']
      exact (nextSymbol_eq hr1).trans hsym
    obtain ⟨st', _, ap, _, hst', hap, hsp, _⟩ := h.done q hat.lt c hat r0.lhs hnext
    refine .inr ⟨ap.x, r0.lhs, ?_, st', ap, hst', hap, hsp, rfl⟩
    exact Lemon.toSymbol_nonterminal (lemp.lhs_nonterminal r0 (Lemon.rule_mem hr0)).1

/-- The states as an automaton over the grammar. -/
def automaton (lemp : Lemon) (b : Build) (h : Complete lemp b) : Automaton lemp.toGrammar Nat where
  start := 0
  goto := Edge lemp b
  item := HasItem b
  item_rule := h.inv.hasItem_rule
  start_dot := h.inv.start_dot
  goto_start := h.inv.edge_start
  back := h.inv.edge_back
  ready := h.edge_ready
  origin := h.item_origin

/-! ## Lookaheads -/

theorem mem_configs : c ∈ b.configs ↔ ∃ q, b.At q c := by
  unfold Build.configs
  rw [List.mem_flatMap]
  constructor
  · intro h
    obtain ⟨st, hst, hc⟩ := h
    obtain ⟨q, hq⟩ := List.mem_iff_getElem?.1 hst
    exact ⟨q, st, hq, hc⟩
  · intro h
    obtain ⟨q, st, hq, hc⟩ := h
    exact ⟨st, List.mem_of_getElem? hq, hc⟩

theorem Inv.configs_nodup (h : Inv lemp b) : b.configs.Nodup := by
  unfold Build.configs
  rw [List.nodup_flatMap]
  refine ⟨fun st hst => List.Nodup.of_map _ (h.ok st hst).nodup, ?_⟩
  rw [List.pairwise_iff_getElem]
  intro q q' hq hq' hlt c hc hc'
  have heq := h.apart q q' c ⟨_, List.getElem?_eq_getElem hq, hc⟩ ⟨_, List.getElem?_eq_getElem hq', hc'⟩
  exact absurd heq hlt.ne

theorem Inv.configs_live (h : Inv lemp b) (hc : c ∈ b.configs) : c < b.heap.length := by
  obtain ⟨q, st, hst, hc⟩ := mem_configs.1 hc
  exact (h.ok st (List.mem_of_getElem? hst)).live c hc

/-- The links between the configurations, after `FindLinks`. -/
theorem Inv.findLinks_spec (h : Inv lemp b) : (findLinks b).heap.length = b.heap.length ∧
    ∀ c, itemAt (findLinks b).heap c = itemAt b.heap c ∧ (configAt (findLinks b).heap c).fws = (configAt b.heap c).fws ∧
      ∀ d, d ∈ (configAt (findLinks b).heap c).fplp ↔
        d ∈ (configAt b.heap c).fplp ∨ (d ∈ b.configs ∧ c ∈ (configAt b.heap d).bplp) := by
  have hlive : ∀ c ∈ b.configs, ∀ d ∈ (configAt b.heap c).bplp, d < b.heap.length := by
    intro c hc d hd
    obtain ⟨q, hq⟩ := mem_configs.1 hc
    obtain ⟨q', _, hd', _⟩ := h.links q c hq d hd
    exact h.configs_live (mem_configs.2 ⟨q', hd'⟩)
  obtain ⟨hlen, hall⟩ := foldl_linkStep hlive
  exact ⟨hlen, fun c => ⟨(hall c).1, (hall c).2.1, (hall c).2.2.2⟩⟩

/-- A link forward stays in the state or goes where the symbol is shifted. -/
theorem Inv.link_cases (h : Inv lemp b) (hc : b.At q c) (hd : d ∈ (configAt (findLinks b).heap c).fplp) :
    (b.At q d ∧ (itemAt b.heap d).2 = 0 ∧
      ∃ rest, Expands lemp (itemAt b.heap c) (itemAt b.heap d).1 rest ∧ ∀ x ∈ rest, Nullable lemp x) ∨
    ∃ q' X, b.At q' d ∧ nextSymbol lemp (itemAt b.heap c) = some X ∧ itemAt b.heap d = advance (itemAt b.heap c) ∧
      Goto lemp b q X q' := by
  rcases ((h.findLinks_spec.2 c).2.2 d).1 hd with hd | ⟨hmem, hd⟩
  · obtain ⟨st, hst, hc⟩ := hc
    obtain ⟨hmem, hs⟩ := (h.ok st (List.mem_of_getElem? hst)).fplp c hc d hd
    exact .inl ⟨⟨st, hst, hmem⟩, hs⟩
  · obtain ⟨q', hq'⟩ := mem_configs.1 hmem
    obtain ⟨q2, X, hc2, hX, hadv, hg⟩ := h.links q' d hq' c hd
    obtain rfl := h.apart q q2 c hc hc2
    exact .inr ⟨q', X, hq', hX, hadv, hg⟩

/-- What `FindFollowSets` does to the states with their links. -/
theorem Inv.followSets_spec (h : Inv lemp b) : (findFollowSets lemp (findLinks b)).states = b.states ∧
    (∀ c, itemAt (findFollowSets lemp (findLinks b)).heap c = itemAt b.heap c) ∧
      ∀ c ∈ b.configs, ∀ a, setFind (configAt (findFollowSets lemp (findLinks b)).heap c).fws a = true ↔
        Follows (findLinks b).heap b.configs c a := by
  obtain ⟨hlen, hall⟩ := h.findLinks_spec
  have hlive : ∀ c ∈ b.configs, c < (findLinks b).heap.length := by
    intro c hc
    rw [hlen]
    exact h.configs_live hc
  have hlinks : ∀ c ∈ b.configs, ∀ d ∈ (configAt (findLinks b).heap c).fplp, d ∈ b.configs := by
    intro c hc d hd
    obtain ⟨q, hq⟩ := mem_configs.1 hc
    rcases h.link_cases hq hd with ⟨hd', _⟩ | ⟨q', _, hd', _⟩
    · exact mem_configs.2 ⟨q, hd'⟩
    · exact mem_configs.2 ⟨q', hd'⟩
  have hsize : ∀ c ∈ b.configs, (configAt (findLinks b).heap c).fws.length = lemp.nterminal + 1 := by
    intro c hc
    obtain ⟨q, st, hst, hmem⟩ := mem_configs.1 hc
    rw [(hall c).2.1]
    exact (h.ok st (List.mem_of_getElem? hst)).size c hmem
  obtain ⟨hst, hitem, hfws⟩ := findFollowSets_spec lemp (findLinks b) hlive h.configs_nodup hlinks hsize
  exact ⟨hst, fun c => (hitem c).trans (hall c).1, hfws⟩

theorem findFollow_iff (h : Inv lemp b) (hc : b.At q c) :
    setFind (configAt (findFollowSets lemp (findLinks b)).heap c).fws a = true ↔
      Follows (findLinks b).heap b.configs c a :=
  h.followSets_spec.2.2 c (mem_configs.2 ⟨q, hc⟩) a

theorem nullable_iff_derives : (∀ x ∈ rest, Nullable lemp x) ↔
    lemp.toGrammar.cfg.Derives (rest.map lemp.toSymbol) ([] : List (Symbol Nat Nat)) := by
  constructor
  · intro h
    obtain ⟨ρ, hρ⟩ := forest_of_nullable h
    exact hρ.derives
  · intro h x hx
    have hnil : lemp.toGrammar.cfg.Derives (rest.map lemp.toSymbol) (([] : List Nat).map Symbol.terminal) := h
    obtain ⟨ρ, hρ⟩ := derives_iff_forest.1 hnil
    exact lambda_iff.1 (lambda_of_forest hρ rfl x (List.mem_map_of_mem hx))

theorem expands_rule (h : Expands lemp (i, k) j rest) : ∃ r r', lemp.toGrammar.rules[i]? = some r ∧
    r.output[k]? = some (.nonterminal r'.input) ∧ lemp.toGrammar.rules[j]? = some r' ∧
    r.output.drop (k + 1) = rest.map lemp.toSymbol := by
  obtain ⟨r, r', hr, hsym, hr', rfl⟩ := h
  refine ⟨lemp.toRule r, lemp.toRule r', Lemon.toGrammar_rule hr, ?_, Lemon.toGrammar_rule hr', ?_⟩
  · rw [Lemon.toRule_output_getElem?, hsym, Option.map_some,
      Lemon.toSymbol_nonterminal (lemp.lhs_nonterminal r' (Lemon.rule_mem hr')).1]
    rfl
  · exact List.map_drop.symm

theorem expands_of_rule {r r' : ContextFreeRule Nat Nat} (hr : lemp.toGrammar.rules[i]? = some r)
    (hsym : r.output[k]? = some (.nonterminal r'.input)) (hr' : lemp.toGrammar.rules[j]? = some r') :
    ∃ rest, Expands lemp (i, k) j rest ∧ r.output.drop (k + 1) = rest.map lemp.toSymbol := by
  obtain ⟨r0, hr0, rfl⟩ := Lemon.of_toGrammar_rule hr
  obtain ⟨r1, hr1, rfl⟩ := Lemon.of_toGrammar_rule hr'
  rw [Lemon.toRule_output_getElem?, Option.map_eq_some_iff] at hsym
  obtain ⟨x, hx, heq⟩ := hsym
  obtain ⟨_, rfl⟩ := Lemon.toSymbol_eq_nonterminal.1 heq
  exact ⟨_, ⟨r0, r1, hr0, hx, hr1, rfl⟩, List.map_drop.symm⟩

/-- What is handed on along the links is an LALR(1) lookahead. -/
theorem Complete.lalr_of_follows (h : Complete lemp b) (hf : Follows (findLinks b).heap b.configs c a) :
    c ∈ b.configs ∧ ∀ q, b.At q c → (automaton lemp b h).Lalr 0 q (itemAt b.heap c).1 (itemAt b.heap c).2 a := by
  induction hf with
  | @own c a hmem ha =>
    refine ⟨hmem, fun q hc => ?_⟩
    obtain ⟨st, hst, hcst⟩ := hc
    have hok := h.inv.ok st (List.mem_of_getElem? hst)
    rw [(h.inv.findLinks_spec.2 c).2.1] at ha
    rcases hok.fws c hcst a ha with ⟨hbp, hz, rfl⟩ | ⟨d, hd, rest, hexp, hz, hb⟩
    · have hz' : (itemAt b.heap c).2 = 0 := hz
      cases q with
      | zero =>
        have hmem := ((h.inv.start st hst).1 (itemAt b.heap c)).1 (List.mem_map_of_mem hbp)
        obtain ⟨r, hr, hlhs⟩ := Lemon.mem_rulesOf.1 hmem.2
        rw [hz']
        exact .initial (Lemon.toGrammar_rule hr) hlhs
      | succ q => exact absurd (h.inv.later q st hst c hbp) (by rw [hz']; exact Nat.lt_irrefl 0)
    · have hz' : (itemAt b.heap c).2 = 0 := hz
      obtain ⟨r, r', hr, hsym, hr', hdrop⟩ := expands_rule hexp
      obtain ⟨γ, hγ⟩ := hb
      have hitem : (automaton lemp b h).item q (itemAt b.heap d).1 (itemAt b.heap d).2 := ⟨d, ⟨st, hst, hd⟩, rfl⟩
      rw [hz']
      exact .first hitem hr hsym hr' (hdrop ▸ hγ)
  | @link c d a _ hd ih =>
    obtain ⟨hmem, ih⟩ := ih
    obtain ⟨p, hp⟩ := mem_configs.1 hmem
    have hl := ih p hp
    rcases h.inv.link_cases hp hd with ⟨hd', hz, rest, hexp, hn⟩ | ⟨p', X, hd', hX, hadv, hg⟩
    · refine ⟨mem_configs.2 ⟨p, hd'⟩, fun q hq => ?_⟩
      obtain rfl := h.inv.apart p q d hd' hq
      obtain ⟨r, r', hr, hsym, hr', hdrop⟩ := expands_rule hexp
      rw [hz]
      exact .inherit hl hr hsym hr' (hdrop ▸ nullable_iff_derives.1 hn)
    · refine ⟨mem_configs.2 ⟨p', hd'⟩, fun q hq => ?_⟩
      obtain rfl := h.inv.apart p' q d hd' hq
      obtain ⟨r, hr, hsym⟩ := Option.bind_eq_some_iff.1 hX
      have hout : (lemp.toRule r).output[(itemAt b.heap c).2]? = some (lemp.toSymbol X) := by
        rw [Lemon.toRule_output_getElem?, hsym]
        rfl
      rw [hadv]
      exact .advance hl (Lemon.toGrammar_rule hr) hout ⟨X, rfl, h.shiftsTo_iff.2 hg⟩

/-- And every lookahead is handed on to the configuration. -/
theorem Complete.follows_of_lalr (h : Complete lemp b) (hl : (automaton lemp b h).Lalr 0 q i k a)
    (hpos : 0 < b.states.length) :
    ∃ c, b.At q c ∧ itemAt b.heap c = (i, k) ∧ Follows (findLinks b).heap b.configs c a := by
  have hfws : ∀ c a, setFind (configAt b.heap c).fws a = true → c ∈ b.configs →
      Follows (findLinks b).heap b.configs c a := by
    intro c a ha hc
    refine .own hc ?_
    rw [(h.inv.findLinks_spec.2 c).2.1]
    exact ha
  induction hl with
  | @initial i r hr hinit =>
    obtain ⟨r0, hr0, rfl⟩ := Lemon.of_toGrammar_rule hr
    have hst := List.getElem?_eq_getElem hpos
    obtain ⟨hstart, heof⟩ := h.inv.start _ hst
    have hmem := (hstart (i, 0)).2 ⟨rfl, Lemon.mem_rulesOf.2 ⟨r0, hr0, hinit⟩⟩
    obtain ⟨c, hc, hitem⟩ := List.mem_map.1 hmem
    have hat : b.At 0 c := ⟨_, hst, (h.inv.ok _ (List.mem_of_getElem? hst)).basis c hc⟩
    exact ⟨c, hat, hitem, hfws c 0 (heof c hc) (mem_configs.2 ⟨0, hat⟩)⟩
  | @first q i k j r r' a γ hi hr hsym hr' hγ =>
    obtain ⟨c, ⟨st, hst, hc⟩, hitem⟩ := hi
    obtain ⟨rest, hexp, hdrop⟩ := expands_of_rule hr hsym hr'
    have hexp' : Expands lemp (itemAt b.heap c) j rest := hitem ▸ hexp
    obtain ⟨d, hd, hdi, hb, _⟩ := (h.inv.ok st (List.mem_of_getElem? hst)).expanded c hc j rest hexp'
    have hat : b.At q d := ⟨st, hst, hd⟩
    exact ⟨d, hat, hdi, hfws d a (hb a ⟨γ, hdrop ▸ hγ⟩) (mem_configs.2 ⟨q, hat⟩)⟩
  | @inherit q i k j r r' a _ hr hsym hr' hnil ih =>
    obtain ⟨c, ⟨st, hst, hc⟩, hitem, hf⟩ := ih
    obtain ⟨rest, hexp, hdrop⟩ := expands_of_rule hr hsym hr'
    have hexp' : Expands lemp (itemAt b.heap c) j rest := hitem ▸ hexp
    obtain ⟨d, hd, hdi, _, hlink⟩ := (h.inv.ok st (List.mem_of_getElem? hst)).expanded c hc j rest hexp'
    refine ⟨d, ⟨st, hst, hd⟩, hdi, hf.link (((h.inv.findLinks_spec.2 c).2.2 d).2 (.inl (hlink ?_)))⟩
    exact nullable_iff_derives.2 (hdrop ▸ hnil)
  | @advance q q' i k r X a _ hr hX hg ih =>
    obtain ⟨c, hc, hitem, hf⟩ := ih
    obtain ⟨x, rfl, hs⟩ := hg
    obtain ⟨r0, hr0, rfl⟩ := Lemon.of_toGrammar_rule hr
    rw [Lemon.toRule_output_getElem?, Option.map_eq_some_iff] at hX
    obtain ⟨y, hy, heq⟩ := hX
    obtain rfl := Lemon.toSymbol_inj.1 heq
    obtain ⟨st, st', ap, d, hst, hap, hsp, hst', hd, hdi, hlink⟩ := h.done q hc.lt c hc y
      (by rw [hitem, nextSymbol_eq hr0, hy])
    have hq : ap.x = q' := by
      obtain ⟨_, st1, hst1, hb1⟩ := (h.inv.acts q st hst ap hap).2
      obtain ⟨_, st2, hst2, hb2⟩ := shiftsTo_goto h.inv hs
      refine h.inv.state_unique hst1 hst2 fun z => ?_
      rw [hb1, hb2, hsp]
    have hat : b.At q' d := ⟨st', hq ▸ hst', (h.inv.ok st' (List.mem_of_getElem? hst')).basis d hd⟩
    refine ⟨d, hat, by rw [hdi, hitem]; rfl, hf.link (((h.inv.findLinks_spec.2 c).2.2 d).2 (.inr ⟨?_, hlink⟩))⟩
    exact mem_configs.2 ⟨q', hat⟩

/-- **The follow sets are the LALR(1) lookaheads**, no more and no less. -/
theorem followSets_lalr (lemp : Lemon) (q i k a : Nat) :
    (∃ c, (findStates lemp).At q c ∧ itemAt (findStates lemp).heap c = (i, k) ∧
      setFind (configAt (findFollowSets lemp (findLinks (findStates lemp))).heap c).fws a = true) ↔
      (automaton lemp (findStates lemp) (findStates_complete lemp)).Lalr 0 q i k a := by
  have h := findStates_complete lemp
  constructor
  · intro hc
    obtain ⟨c, hat, hitem, ha⟩ := hc
    have hl := (h.lalr_of_follows ((findFollow_iff h.inv hat).1 ha)).2 q hat
    rwa [hitem] at hl
  · intro hl
    obtain ⟨c, hat, hitem, hf⟩ := h.follows_of_lalr hl (findStates_spec lemp).2.1
    exact ⟨c, hat, hitem, (findFollow_iff h.inv hat).2 hf⟩

end Dbsql.L7
