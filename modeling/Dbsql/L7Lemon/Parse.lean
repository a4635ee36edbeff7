import Dbsql.L7Lemon.FindActions
/-!
# Parsing with the tables (lempar.c, Parse)

The engine runs on the tables of a grammar without a clash. As long as there is no syntax error
its stack is a stack of the automaton of the grammar: a shift is a move of the automaton on the
token or on one of its fallbacks, a reduction is a move too.

`Proper` says what the tables need of the grammar: the start symbol is a nonterminal on no
right-hand side, `$` has no fallback, and no rule is so long that `nrhs` overflows.

Results:
* `iterate_spec`: what one round of the loop does.
* `standing_run`: in a run without a syntax error the engine stands where the automaton is.
* `parse_accept`: where the engine accepts, the tokens before the lookahead are a sentence, some of
  them read as their fallbacks.
-/
namespace Dbsql.L7
open Dbsql.Core ShiftReduce Engine

/-- The automaton of the grammar. -/
abbrev lr (lemp : Lemon) : Automaton lemp.toGrammar Nat :=
  automaton lemp (findStates lemp) (findStates_complete lemp)

/-- What the token `a` can be taken for. -/
def Falls (lemp : Lemon) (a b : Nat) : Prop := Relation.ReflTransGen (fun x y => lemp.fallback x = some y) a b

/-- What the tables need of a grammar. -/
structure Proper (lemp : Lemon) : Prop where
  free : StartFree lemp
  start : lemp.nterminal ≤ lemp.startSymbol
  short : ∀ r ∈ lemp.rules, r.rhs.length < 256
  eof : lemp.fallback 0 = none

variable {M : Type} {lemp : Lemon} {compress : Bool} {o : Order lemp (parseActions lemp compress)} {depth : Nat}
  {c : Code M} {p p' : Parser M} {call call' : Call M} {s : List (Symbol Nat Nat × Nat)} {es : List (Entry M)}
  {a b i q q' act : Nat} {w v : List Nat} {ap : Action}

theorem Falls.token (h : Falls lemp a b) (ha : a < lemp.nterminal) : b < lemp.nterminal := by
  induction h with
  | refl => exact ha
  | tail _ hfb _ => exact Order.fallback_lt hfb

theorem Falls.eof (h : Falls lemp 0 b) (hP : Proper lemp) : b = 0 := by
  rcases Relation.ReflTransGen.cases_head h with heq | ⟨x, hx, _⟩
  · exact heq.symm
  · rw [hP.eof] at hx
    cases hx

theorem goto_lt (compress : Bool) {X : Symbol Nat Nat} (h : (lr lemp).goto q X q') :
    q' < (parseActions lemp compress).length := by
  obtain ⟨x, _, hs⟩ := h
  obtain ⟨_, st', hst', _⟩ := shiftsTo_goto (findStates_complete lemp).inv hs
  rw [length_parseActions]
  exact (List.getElem?_eq_some_iff.1 hst').1

/-- `$` is not shifted. -/
theorem goto_pos {x : Nat} (h : (lr lemp).goto q (lemp.toSymbol x) q') : 0 < x := by
  obtain ⟨y, hy, hs⟩ := h
  obtain rfl := Lemon.toSymbol_inj.1 hy
  obtain ⟨⟨d, _, hX⟩, _⟩ := shiftsTo_goto (findStates_complete lemp).inv hs
  exact (nextSymbol_lt hX).1

theorem item_of_lalr {k : Nat} (h : (lr lemp).Lalr 0 q i k a) : (lr lemp).item q i k := by
  obtain ⟨d, hd, hitem, _⟩ := (findStates_complete lemp).follows_of_lalr h (findStates_spec lemp).2.1
  exact ⟨d, hd, hitem⟩

/-! ## Stacks -/

/-- The stack of the engine has the states of a stack of the automaton, and the start state below. -/
def Stands (es : List (Entry M)) (s : List (Symbol Nat Nat × Nat)) : Prop :=
  es.map Entry.stateno = s.map Prod.snd ++ [0]

theorem Stands.top (lemp : Lemon) (h : Stands es s) : ∃ e es', es = e :: es' ∧ e.stateno = (lr lemp).top s := by
  unfold Stands at h
  cases es with
  | nil => simp at h
  | cons e es' =>
    refine ⟨e, es', rfl, ?_⟩
    cases s with
    | nil =>
      rw [List.map_cons] at h
      exact (List.cons.inj h).1
    | cons x s =>
      rw [List.map_cons, List.map_cons, List.cons_append] at h
      exact (List.cons.inj h).1

theorem Stands.length (h : Stands es s) : es.length = s.length + 1 := by
  have hlen := congrArg List.length h
  simpa using hlen

theorem Stands.drop (h : Stands es s) {n : Nat} (hn : n ≤ s.length) : Stands (es.drop n) (s.drop n) := by
  unfold Stands at *
  rw [List.map_drop, h, List.map_drop, List.drop_append_of_le_length (by simpa using hn)]

theorem Stands.push (h : Stands es s) (e : Entry M) (X : Symbol Nat Nat) : Stands (e :: es) ((X, e.stateno) :: s) := by
  unfold Stands at *
  rw [List.map_cons, h]
  rfl

/-- `yy_shift` puts the state on the stack or, where there is no room, ends the parse. -/
theorem yyShift_spec (t : Tables) (p : Parser M) (n x : Nat) (m : M) :
    ((yyShift t p n x m).yystack = ⟨n, x, m⟩ :: p.yystack ∧ (yyShift t p n x m).log = p.log) ∨
      ((yyShift t p n x m).yystack = [] ∧ (yyShift t p n x m).log.getLast? = some .overflow) := by
  unfold yyShift
  split
  next => exact .inr ⟨rfl, by simp⟩
  next => exact .inl ⟨rfl, rfl⟩

/-! ## Reductions -/

/-- The start state accepts after the start symbol. -/
theorem engine_accept (hP : Proper lemp) (hclash : o.ClashFree) :
    yyFindReduceAction (o.tables depth) 0 lemp.startSymbol =
      some ((parseActions lemp compress).length + lemp.nrule + 1) := by
  have hl : LalrAction lemp 0 ⟨lemp.startSymbol, .ACCEPT, 0⟩ := .accept rfl rfl
  have hal : Alone lemp 0 ⟨lemp.startSymbol, .ACCEPT, 0⟩ := by
    refine ⟨hl, fun ap' hl' hsp => ?_⟩
    cases from_iff_lalr.2 hl' with
    | shift _ _ hg => exact absurd hsp (hP.free.goto hg)
    | reduce _ _ _ _ hlt _ =>
      have hge := hP.start
      have hsp' : ap'.sp = lemp.startSymbol := hsp
      omega
    | accept _ heq => exact heq
  have hq := hl.lt_parse compress
  have hmem : ⟨lemp.startSymbol, .ACCEPT, 0⟩ ∈ actionsOf (parseActions lemp compress) 0 := by
    rcases parseActions_kept hP.free (actionsOf_getElem? hq) hal with hap | ⟨hred, _⟩
    · exact hap
    · cases hred
  have hset : (lemp.startSymbol, (parseActions lemp compress).length + lemp.nrule + 1) ∈
      setOf lemp (parseActions lemp compress) 0 false :=
    mem_ntActs.2 ⟨hP.start, (startSymbol_lt lemp).ne, _, hmem, rfl, rfl⟩
  rw [Order.findReduce_eq (parseActions_one hP.free) hclash hq hP.start (startSymbol_lt lemp),
    (Order.actOf_eq_some (setOf_nodup (parseActions_one hP.free) 0 false)).2 hset, Option.getD_some]

/-- **A reduction is a move of the automaton**, or it accepts, or the stack overflows. -/
theorem yyReduce_spec (hP : Proper lemp) (hclash : o.ClashFree) (hs : Stands p.yystack s) (hp : (lr lemp).Path s)
    {r : Rule} (hr : lemp.rules[i]? = some r) (hi : (lr lemp).item ((lr lemp).top s) i r.rhs.length)
    (h : yyReduce (o.tables depth) c p i = some p') :
    (∃ s', (∀ w, Move (lr lemp) s w [i] s' w) ∧ Stands p'.yystack s' ∧ p'.log.getLast? = some (.reduce i)) ∨
      (p'.yystack = [] ∧ p'.log.getLast? = some .overflow) ∨
      (p'.yystack = [] ∧ (lr lemp).top (s.drop r.rhs.length) = 0 ∧ r.lhs = lemp.startSymbol) := by
  have hrule := Lemon.toGrammar_rule hr
  have hout : (lemp.toRule r).output.length = r.rhs.length := by
    unfold Lemon.toRule
    exact List.length_map _
  have hi' : (lr lemp).item ((lr lemp).top s) i (lemp.toRule r).output.length := hout.symm ▸ hi
  obtain ⟨hlen, _, hgoto⟩ := (lr lemp).reduce_stack hp hi' hrule
  rw [hout] at hlen hgoto
  have hinfo : (o.tables depth).yyRuleInfo[i]? = some (r.lhs, r.rhs.length) := by
    have hmod := Nat.mod_eq_of_lt (hP.short r (Lemon.rule_mem hr))
    unfold Order.tables
    simp [hr, hmod]
  have hdrop := hs.drop hlen
  obtain ⟨e, es, hes, htop⟩ := hdrop.top lemp
  have hroom : ¬ p.yystack.length < r.rhs.length := by
    rw [hs.length]
    omega
  unfold yyReduce at h
  rw [hinfo, Option.bind_some, if_neg hroom] at h
  simp only [hes, List.head?_cons, Option.bind_some, htop] at h
  rcases hgoto with ⟨hnil, hinit⟩ | ⟨q', hq'⟩
  · -- the start symbol over the empty stack
    have hlhs : r.lhs = lemp.startSymbol := hinit
    have htop0 : (lr lemp).top (s.drop r.rhs.length) = 0 := by
      rw [hnil]
      rfl
    rw [htop0, hlhs, engine_accept hP hclash, Option.bind_some] at h
    have hnot : ¬ (parseActions lemp compress).length + lemp.nrule + 1 < (o.tables depth).YYNSTATE := by
      have heq : (o.tables depth).YYNSTATE = (parseActions lemp compress).length := rfl
      omega
    have hacc : (parseActions lemp compress).length + lemp.nrule + 1 =
        (o.tables depth).YYNSTATE + (o.tables depth).YYNRULE + 1 := rfl
    rw [if_neg hnot, if_pos hacc] at h
    cases h
    exact .inr (.inr ⟨rfl, htop0, hlhs⟩)
  · have hX : lemp.nterminal ≤ r.lhs := (lemp.lhs_nonterminal r (Lemon.rule_mem hr)).1
    have hedge : (lr lemp).goto ((lr lemp).top (s.drop r.rhs.length)) (lemp.toSymbol r.lhs) q' := by
      rw [Lemon.toSymbol_nonterminal hX]
      exact hq'
    have hlt : q' < (o.tables depth).YYNSTATE := goto_lt compress hedge
    rw [engine_goto hP.free hclash hX hedge, Option.bind_some, if_pos hlt] at h
    cases h
    rcases yyShift_spec (o.tables depth) { p with yystack := e :: es, log := p.log ++ [Event.reduce i] } q' r.lhs
      (c.act p.log i (p.yystack.map Entry.minor)) with ⟨hst, hlog⟩ | hover
    · refine .inl ⟨_, fun w => .reduce hrule hi' (hout.symm ▸ hq'), ?_, ?_⟩
      · rw [hst, hout, ← hes]
        exact hdrop.push _ _
      · rw [hlog]
        simp
    · exact .inr (.inl hover)

/-! ## Rounds -/

/-- The branch for an error says that there was one. -/
theorem onError_hit {t : Tables} {e : Entry M} (h : onError t c p e call = some (p', call')) :
    call'.yyerrorhit = true := by
  unfold onError at h
  simp only at h
  by_cases hd : e.major = t.YYERRORSYMBOL ∨ call.yyerrorhit = true
  · rw [if_pos hd] at h
    cases h
    rfl
  · rw [if_neg hd] at h
    obtain ⟨r, _, hr⟩ := Option.map_eq_some_iff.1 h
    by_cases hend : r.1 = [] ∨ call.yymajor = 0
    · rw [if_pos hend] at hr
      cases hr
      rfl
    · rw [if_neg hend] at hr
      cases hr
      rfl

theorem top_lt (hp : (lr lemp).Path s) : (lr lemp).top s < (findStates lemp).states.length := by
  cases s with
  | nil => exact (findStates_spec lemp).2.1
  | cons x s =>
    have hlt := goto_lt true hp.1
    rw [length_parseActions] at hlt
    exact hlt

/-- What a round without a syntax error does, the automaton standing at `s`. -/
inductive Round (lemp : Lemon) (t : Tables) (s : List (Symbol Nat Nat × Nat)) (call : Call M) (p' : Parser M)
    (call' : Call M) : Prop
  | shift {b : Nat} {s' : List (Symbol Nat Nat × Nat)} : Falls lemp call.yymajor b → 0 < b →
      (∀ w, Move (lr lemp) s (b :: w) [] s' w) → Stands p'.yystack s' →
      (call.yyendofinput = false → call'.yymajor = t.YYNOCODE) →
      p'.log.getLast? = some (.shift call.yymajor call.yyminor) → Round lemp t s call p' call'
  | reduce {i : Nat} {s' : List (Symbol Nat Nat × Nat)} : (∀ w, Move (lr lemp) s w [i] s' w) →
      Stands p'.yystack s' → call' = call → p'.log.getLast? = some (.reduce i) → Round lemp t s call p' call'
  | overflow : p'.yystack = [] → p'.log.getLast? = some .overflow → Round lemp t s call p' call'
  | accept {i : Nat} {r : Rule} : p'.yystack = [] → lemp.rules[i]? = some r →
      (lr lemp).item ((lr lemp).top s) i r.rhs.length → (lr lemp).top (s.drop r.rhs.length) = 0 →
      r.lhs = lemp.startSymbol → Round lemp t s call p' call'

/-- **A round without a syntax error** shifts the token, or reduces, or ends the parse. -/
theorem iterate_spec (hP : Proper lemp) (hclash : o.ClashFree) (hs : Stands p.yystack s) (hp : (lr lemp).Path s)
    (ha : call.yymajor < lemp.nterminal) (h : iterate (o.tables depth) c p call = some (p', call'))
    (hno : call'.yyerrorhit = false) : Round lemp (o.tables depth) s call p' call' := by
  obtain ⟨e, es, hes, htop⟩ := hs.top lemp
  have hnstate : (o.tables depth).YYNSTATE = (parseActions lemp compress).length := rfl
  have hnrule : (o.tables depth).YYNRULE = lemp.nrule := rfl
  unfold iterate at h
  rw [hes, List.head?_cons, Option.bind_some, htop] at h
  obtain ⟨act, hact, h⟩ := Option.bind_eq_some_iff.1 h
  rcases engine_sound hP.free hclash (top_lt hp) ha hact with herr | ⟨ap, hl, hcode, hwhere⟩
  · -- a syntax error
    have h1 : ¬ act < (o.tables depth).YYNSTATE := by omega
    have h2 : ¬ act < (o.tables depth).YYNSTATE + (o.tables depth).YYNRULE := by omega
    have herr' : act = (o.tables depth).YY_ERROR_ACTION := herr
    rw [if_neg h1, if_neg h2, if_pos herr'] at h
    rw [onError_hit h] at hno
    cases hno
  · unfold actCode computeAction at hcode
    cases hl with
    | shift htype hg =>
      rw [htype] at hcode
      cases hcode
      have hfalls : Falls lemp call.yymajor ap.sp :=
        hwhere.resolve_left (by rw [htype]; exact ActionType.noConfusion)
      have hgt : (lr lemp).goto ((lr lemp).top s) (.terminal ap.sp) ap.x := by
        rw [← Lemon.toSymbol_terminal (hfalls.token ha)]
        exact hg
      have hlt : ap.x < (o.tables depth).YYNSTATE := goto_lt compress hg
      rw [if_pos hlt] at h
      cases h
      rcases yyShift_spec (o.tables depth) p ap.x call.yymajor call.yyminor with ⟨hst, hlog⟩ | ⟨hst, hlog⟩
      · refine .shift hfalls (goto_pos hg) (fun w => .shift hgt) ?_ (fun hend => ?_) ?_
        · simp only [hst]
          exact hs.push _ _
        · simp [hend]
        · simp [hst]
      · refine .overflow hst ?_
        simpa [hst] using hlog
    | @reduce r htype hr _ hlalr =>
      rw [htype] at hcode
      cases hcode
      have hx : ap.x < lemp.nrule := Lemon.rule_lt hr
      have h1 : ¬ ap.x + (parseActions lemp compress).length < (o.tables depth).YYNSTATE := by omega
      have h2 : ap.x + (parseActions lemp compress).length < (o.tables depth).YYNSTATE + (o.tables depth).YYNRULE := by
        omega
      have hsub : ap.x + (parseActions lemp compress).length - (o.tables depth).YYNSTATE = ap.x := by omega
      rw [if_neg h1, if_pos h2, hsub] at h
      obtain ⟨p2, hred, heq⟩ := Option.map_eq_some_iff.1 h
      cases heq
      have hi := item_of_lalr hlalr
      rcases yyReduce_spec hP hclash hs hp hr hi hred with ⟨s', hm, hst, hlog⟩ | hover | ⟨hst, htop0, hlhs⟩
      · exact .reduce hm hst rfl hlog
      · exact .overflow hover.1 hover.2
      · exact .accept hst hr hi htop0 hlhs
    | accept _ hap =>
      have hfalls : Falls lemp call.yymajor lemp.startSymbol := by
        rw [hap] at hwhere
        exact hwhere.resolve_left ActionType.noConfusion
      exact absurd (hfalls.token ha) (Nat.not_lt.2 hP.start)

/-! ## Runs -/

/-- A parser that has been given the tokens `w` since it was last empty, without a syntax error. A
call of `Parse` with the last of them may be going on. -/
inductive Feeds (t : Tables) (c : Code M) (nterminal : Nat) : Parser M → Option (Call M) → List Nat → Prop
  | start {p p' : Parser M} {call : Call M} {a : Nat} {m : M} : p.yystack = [] → a < nterminal →
      enter c p a m = some (p', call) → Feeds t c nterminal p' (some call) [a]
  | next {p p' : Parser M} {call : Call M} {a : Nat} {m : M} {w : List Nat} : Feeds t c nterminal p none w →
      p.yystack ≠ [] → a < nterminal → enter c p a m = some (p', call) →
      Feeds t c nterminal p' (some call) (w ++ [a])
  | round {p p' : Parser M} {call call' : Call M} {w : List Nat} : Feeds t c nterminal p (some call) w →
      iterate t c p call = some (p', call') → call'.yyerrorhit = false →
      Feeds t c nterminal p' (if goesOn t p' call' then some call' else none) w

/-- Where the engine stands: the automaton has gone over the tokens shifted, read as `v`. -/
def Reached (lemp : Lemon) (es : List (Entry M)) (w : List Nat) : Prop :=
  ∃ s v ρ, Stands es s ∧ (∀ u, Run (lr lemp) [] (v ++ u) ρ s u) ∧ List.Forall₂ (Falls lemp) w v

/-- The invariant of the loop. -/
def Standing (lemp : Lemon) (p : Parser M) (w : List Nat) : Option (Call M) → Prop
  | none => p.yystack = [] ∨ Reached lemp p.yystack w
  | some call => ∃ w', w = w' ++ [call.yymajor] ∧ call.yymajor < lemp.nterminal ∧
      call.yyendofinput = decide (call.yymajor = 0) ∧ Reached lemp p.yystack w'

theorem Reached.ne_nil (h : Reached lemp es w) : es ≠ [] := by
  obtain ⟨s, _, _, hs, _⟩ := h
  obtain ⟨e, es', rfl, _⟩ := hs.top lemp
  exact List.cons_ne_nil e es'

/-- The first token, with only the start state on the stack. -/
theorem reached_bottom (e : Entry M) (he : e.stateno = 0) : Reached lemp [e] [] :=
  ⟨[], [], [], congrArg (fun x => [x]) he, fun u => .refl [] u, .nil⟩

theorem standing_nil {t : Tables} (h : p'.yystack = []) :
    Standing lemp p' w (if goesOn t p' call' then some call' else none) := by
  have hoff : goesOn t p' call' = false := by simp [goesOn, h]
  rw [hoff]
  exact .inl h

/-- One round keeps the invariant. -/
theorem standing_round (hP : Proper lemp) (hclash : o.ClashFree) (hstand : Standing lemp p w (some call))
    (h : iterate (o.tables depth) c p call = some (p', call')) (hno : call'.yyerrorhit = false) :
    Standing lemp p' w (if goesOn (o.tables depth) p' call' then some call' else none) := by
  obtain ⟨w', hw, ha, hend, s, v, ρ, hs, hrun, hread⟩ := hstand
  have hp : (lr lemp).Path s := (hrun []).path trivial
  cases iterate_spec hP hclash hs hp ha h hno with
  | @shift b s' hfalls hb hm hst hdone _ =>
    have hne : call.yymajor ≠ 0 := by
      intro h0
      rw [h0] at hfalls
      exact hb.ne' (hfalls.eof hP)
    have hcall : call'.yymajor = (o.tables depth).YYNOCODE := hdone (by simp [hend, hne])
    have hoff : goesOn (o.tables depth) p' call' = false := by simp [goesOn, hcall]
    rw [hoff]
    refine .inr ⟨s', v ++ [b], ρ ++ [], hst, fun u => ?_, ?_⟩
    · rw [List.append_assoc]
      exact (hrun (b :: u)).tail (hm u)
    · rw [hw]
      exact List.rel_append hread (.cons hfalls .nil)
  | @reduce i s' hm hst hcall _ =>
    subst hcall
    have hreach : Reached lemp p'.yystack w' :=
      ⟨s', v, ρ ++ [i], hst, fun u => (hrun u).tail (hm u), hread⟩
    have hcode : call'.yymajor ≠ (o.tables depth).YYNOCODE := by
      have hle := lemp.nterminal_le
      have heq : (o.tables depth).YYNOCODE = lemp.nsymbol + 1 := rfl
      unfold Lemon.nsymbol at heq
      omega
    have hon : goesOn (o.tables depth) p' call' = true := by simp [goesOn, hcode, hreach.ne_nil]
    rw [hon]
    exact ⟨w', hw, ha, hend, hreach⟩
  | overflow hnil _ => exact standing_nil hnil
  | accept hnil _ _ _ _ => exact standing_nil hnil

/-- In every run without a syntax error the engine stands where the automaton is. -/
theorem standing_run {oc : Option (Call M)} (hP : Proper lemp) (hclash : o.ClashFree)
    (h : Feeds (o.tables depth) c lemp.nterminal p oc w) : Standing lemp p w oc := by
  induction h with
  | start hnil ha henter =>
    unfold enter at henter
    simp only [if_pos hnil] at henter
    split at henter
    next => cases henter
    next =>
      cases henter
      exact ⟨[], rfl, ha, rfl, reached_bottom _ rfl⟩
  | next _ hne ha henter ih =>
    unfold enter at henter
    simp only [if_neg hne] at henter
    cases henter
    exact ⟨_, rfl, ha, rfl, ih.resolve_left hne⟩
  | round _ hit hno ih => exact standing_round hP hclash ih hit hno

/-- **The engine accepts only sentences**: where a round accepts, the tokens before the lookahead,
some of them read as their fallbacks, are a sentence of the grammar. -/
theorem parse_accept (hP : Proper lemp) (hclash : o.ClashFree)
    (h : Feeds (o.tables depth) c lemp.nterminal p (some call) w)
    (hit : iterate (o.tables depth) c p call = some (p', call')) (hno : call'.yyerrorhit = false)
    (hacc : p'.log.getLast? = some .accept) :
    ∃ w' v, w = w' ++ [call.yymajor] ∧ List.Forall₂ (Falls lemp) w' v ∧ v ∈ lemp.toGrammar.cfg.language := by
  obtain ⟨w', hw, ha, _, s, v, ρ, hs, hrun, hread⟩ := standing_run hP hclash h
  have hp : (lr lemp).Path s := (hrun []).path trivial
  cases iterate_spec hP hclash hs hp ha hit hno with
  | shift _ _ _ _ _ hlast =>
    rw [hacc] at hlast
    cases hlast
  | reduce _ _ _ hlast =>
    rw [hacc] at hlast
    cases hlast
  | overflow _ hlast =>
    rw [hacc] at hlast
    cases hlast
  | @accept i r _ hr hi htop hlhs =>
    have hout : (lemp.toRule r).output.length = r.rhs.length := by
      unfold Lemon.toRule
      exact List.length_map _
    rw [← hout] at hi htop
    obtain ⟨v', hv, hforest⟩ := (hrun []).accept (Lemon.toGrammar_rule hr) hi htop hlhs
    rw [List.append_nil, List.append_nil] at hv
    subst hv
    exact ⟨w', v, hw, hread, mem_language_iff_forest.2 ⟨_, hforest⟩⟩

end Dbsql.L7
