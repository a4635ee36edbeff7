import Dbsql.Core.Brake
import Dbsql.L5Codegen.Triggers
/-!
# Trigger programs in trigger programs (cg_trigger.c:746-980)

`__code_row_trigger` codes the program of a trigger, whose statements are coded by `__update`,
`__insert` and `__delete_from`, which call `__code_row_trigger` again. What stops this is that a
trigger on the stack is left out.

Of a statement's own work nothing but its order is needed: it is in `Env`, any functions of the
parser that leave the stack alone (`trigStack` is written at cg_trigger.c:806 and 945-971 only).
`Parser.seen` is not in the source: it keeps every stack that there has been.

Results:
* `codeRowTrigger_none`: `__code_row_trigger` does nothing where no trigger is to be coded.
* `compile_ends`: every statement is compiled, the stack is then what it was, and no trigger was
  on it twice.
-/
namespace Dbsql.L5.Trig
open Dbsql.L1 Dbsql.Core.Brake

/-! ## The parser -/

/-- `parser_t`: the trigger stack, the rest, and the stacks there have been, by address. -/
structure Parser (B σ : Type) where
  trigStack : List (StackItem B)
  rest : σ
  seen : List (List Nat)

/-- The arguments of `__update`, `__insert` and `__delete_from`: `src` is the name of the table, behind
that of its database or nothing, and `changes` are the names that UPDATE sets. -/
structure Stmt (B : Type) where
  op : Event
  src : Option Bytes × Bytes
  changes : List Bytes
  onError : OnError
  body : B

/-- The cursors of NEW and OLD, and where `RAISE(IGNORE)` jumps. -/
structure Cursors where
  newIdx : Int
  oldIdx : Int
  ignoreJump : Int

/-- The parts of a statement around its triggers: up to `__src_list_lookup`, on to the BEFORE triggers
(or to the cleanup), on to the AFTER triggers, and the rest. They are told which table was found and
whether it has BEFORE and AFTER triggers. -/
structure Parts (B σ : Type) (n : Nat) where
  lookup : Parser B σ → Stmt B → σ × Option (Fin n)
  front : Parser B σ → Stmt B → Fin n → Bool × Bool → σ × Option Cursors
  middle : Parser B σ → Stmt B → Fin n → Bool × Bool → Cursors → σ
  rear : Parser B σ → Stmt B → Fin n → Bool × Bool → Cursors → σ

inductive ListOp
  | push | pop
  deriving DecidableEq, Repr

/-- The schema, by the list `pTrigger` of each table and view, and what is done besides. -/
structure Env (B σ : Type) where
  tables : List (List (Trigger B))
  always : Bool
  aDb : Nat → Bytes
  nTab : σ → Int
  setNTab : Int → σ → σ
  addOp : ListOp → σ → σ
  /-- `__dbsql_calloc`, and whether there was memory. -/
  calloc : σ → σ × Bool
  /-- `__auth_context_push` to `__expr_if_false`, and whether WHEN does not resolve. -/
  codeWhen : Parser B σ → Option B → σ × Bool
  /-- `__auth_context_pop` to `__vdbe_resolve_label`. -/
  endTrigger : Parser B σ → σ
  select : Parser B σ → B → σ
  update : Parts B σ tables.length
  insert : Parts B σ tables.length
  deleteFrom : Parts B σ tables.length

variable {B σ : Type}

namespace Parser

def withRest (p : Parser B σ) (s : σ) : Parser B σ := { p with rest := s }

def addrs (p : Parser B σ) : List Nat := p.trigStack.map (·.pTrigger.addr)

/-- `trig_stack->pNext = parser->trigStack; parser->trigStack = trig_stack`. -/
def push (p : Parser B σ) (item : StackItem B) : Parser B σ :=
  { p with trigStack := item :: p.trigStack, seen := (item.pTrigger.addr :: p.addrs) :: p.seen }

/-- `parser->trigStack = parser->trigStack->pNext`. -/
def pop (p : Parser B σ) : Parser B σ := { p with trigStack := p.trigStack.tail }

/-- `parser->trigStack->orconf = orconf`. -/
def setOrconf (p : Parser B σ) (orconf : OnError) : Parser B σ :=
  match p.trigStack with
  | [] => p
  | item :: items => { p with trigStack := { item with orconf := orconf } :: items }

end Parser

/-! ## The code of triggers -/

/-- `targetSrcList` (cg_trigger.c:767-782). -/
def targetSrcList (E : Env B σ) (step : Step B) : Option Bytes × Bytes :=
  if step.iDb = 0 ∨ step.iDb ≥ 2 then (some (E.aDb step.iDb), step.target) else (none, step.target)

/-- A step of a trigger program (cg_trigger.c:807-847), where `run` codes a statement. -/
def codeStep (E : Env B σ) (run : Stmt B → Parser B σ → Option (Parser B σ)) (ts : Step B)
    (orconf : OnError) (p : Parser B σ) : Option (Parser B σ) :=
  let stmt (op : Event) (changes : List Bytes) : Stmt B :=
    ⟨op, targetSrcList E ts, changes, orconf, ts.body⟩
  let listed (p : Parser B σ) (op : ListOp) : Parser B σ := p.withRest (E.addOp op p.rest)
  match ts.op with
  | .select => some (p.withRest (E.select p ts.body))
  | .update => (run (stmt .update ts.pExprList) (listed p .push)).map (listed · .pop)
  | .insert => run (stmt .insert []) p
  | .delete => (run (stmt .delete []) (listed p .push)).map (listed · .pop)

/-- `__code_trigger_program` (cg_trigger.c:794-851). -/
def codeTriggerProgram (E : Env B σ) (run : Stmt B → Parser B σ → Option (Parser B σ))
    (orconfin : OnError) : List (Step B) → Parser B σ → Option (Parser B σ)
  | [], p => some p
  | ts :: steps, p =>
    let orconf := if orconfin = .default then ts.orconf else orconfin
    (codeStep E run ts orconf (p.setOrconf orconf)).bind fun q =>
      codeTriggerProgram E run orconfin steps (q.withRest (E.setNTab (E.nTab p.rest) q.rest))

/-- The body of the loop of `__code_row_trigger` for a trigger that fires and has its stack item
(cg_trigger.c:939-976). True is the return because of WHEN. -/
def codeTrigger (E : Env B σ) (run : Stmt B → Parser B σ → Option (Parser B σ)) (c : Cursors)
    (orconf : OnError) (t : Trigger B) (p : Parser B σ) : Option (Bool × Parser B σ) :=
  let p := p.push ⟨t, c.newIdx, c.oldIdx, .none, c.ignoreJump⟩
  let (s, failed) := E.codeWhen p t.pWhen
  let p := p.withRest s
  if failed then some (true, p.pop)
  else (codeTriggerProgram E run orconf t.stepList p).map fun p => (false, p.pop.withRest (E.endTrigger p.pop))

/-- `__code_row_trigger` (cg_trigger.c:884-980) on the list of the table. -/
def codeRowTrigger (E : Env B σ) (run : Stmt B → Parser B σ → Option (Parser B σ)) (op : Event)
    (changes : Option (List Bytes)) (trTm : Time) (c : Cursors) (orconf : OnError) :
    List (Trigger B) → Parser B σ → Option (Bool × Parser B σ)
  | [], p => some (false, p)
  | t :: ts, p =>
    if fireThis p.trigStack op changes trTm t then
      let (s, found) := E.calloc p.rest
      if found then
        (codeTrigger E run c orconf t (p.withRest s)).bind fun (ret, q) =>
          if ret then some (true, q) else codeRowTrigger E run op changes trTm c orconf ts q
      else codeRowTrigger E run op changes trTm c orconf ts (p.withRest s)
    else codeRowTrigger E run op changes trTm c orconf ts p

/-! ## Statements -/

/-- Where the three statements differ: whether the BEFORE triggers are coded if there are BEFORE and if
there are AFTER triggers, whether a nonzero return ends the statement, and the conflict policy. -/
structure Manner (B : Type) where
  changes : Option (List Bytes)
  beforeIf : Bool × Bool → Bool
  stops : Bool
  orconf : List (StackItem B) → OnError

/-- A statement around its triggers. -/
def rowStmt (E : Env B σ) (parts : Parts B σ E.tables.length) (w : Manner B)
    (run : Stmt B → Parser B σ → Option (Parser B σ)) (st : Stmt B) (p : Parser B σ) :
    Option (Parser B σ) :=
  match parts.lookup p st with
  | (s, none) => some (p.withRest s)
  | (s, some k) =>
    let p := p.withRest s
    let has := (triggersExist E.always p.trigStack E.tables[k] st.op .before .row w.changes,
      triggersExist E.always p.trigStack E.tables[k] st.op .after .row w.changes)
    match parts.front p st k has with
    | (s, none) => some (p.withRest s)
    | (s, some c) =>
      let code (trTm : Time) (yes : Bool) (p : Parser B σ) : Option (Bool × Parser B σ) :=
        if yes then codeRowTrigger E run st.op w.changes trTm c (w.orconf p.trigStack) E.tables[k] p
        else some (false, p)
      (code .before (w.beforeIf has) (p.withRest s)).bind fun (ret, p) =>
        if ret && w.stops then some p
        else (code .after (has.1 || has.2) (p.withRest (parts.middle p st k has c))).bind fun (ret, p) =>
          if ret && w.stops then some p else some (p.withRest (parts.rear p st k has c))

/-- `__update` (cg_update.c:55-560). -/
def update (E : Env B σ) (run : Stmt B → Parser B σ → Option (Parser B σ)) (st : Stmt B) :
    Parser B σ → Option (Parser B σ) :=
  rowStmt E E.update ⟨some st.changes, fun has => has.1 || has.2, true, fun _ => st.onError⟩ run st

/-- `__insert` (cg_insert.c:109-646). -/
def insert (E : Env B σ) (run : Stmt B → Parser B σ → Option (Parser B σ)) (st : Stmt B) :
    Parser B σ → Option (Parser B σ) :=
  rowStmt E E.insert ⟨none, fun has => has.1, true, fun _ => st.onError⟩ run st

/-- `__delete_from` (cg_delete.c:92-397): what `__code_row_trigger` returns is not looked at. -/
def deleteFrom (E : Env B σ) (run : Stmt B → Parser B σ → Option (Parser B σ)) (st : Stmt B) :
    Parser B σ → Option (Parser B σ) :=
  rowStmt E E.deleteFrom ⟨none, fun has => has.1 || has.2, false,
    fun stack => (stack.head?.map (·.orconf)).getD .default⟩ run st

/-- A statement that changes a table or a view, where calls go down `fuel` statements. -/
def compile (E : Env B σ) : Nat → Stmt B → Parser B σ → Option (Parser B σ)
  | 0, _, _ => none
  | fuel + 1, st, p =>
    match st.op with
    | .update => update E (compile E fuel) st p
    | .insert => insert E (compile E fuel) st p
    | .delete => deleteFrom E (compile E fuel) st p

/-! ## The stack -/

namespace Parser

/-- No trigger is on the stack twice, and none ever was. -/
structure Placed (p : Parser B σ) : Prop where
  once : p.addrs.Nodup
  ever : ∀ stack ∈ p.seen, stack.Nodup

/-- `q` comes after `p`, with the stack as it was. -/
structure Back (p q : Parser B σ) : Prop where
  stack : q.trigStack = p.trigStack
  grown : p.seen <:+ q.seen
  placed : q.Placed

/-- `q` comes after `p`, with the stack as it was but for the conflict policy of its top. -/
structure Below (p q : Parser B σ) : Prop where
  addrs : q.addrs = p.addrs
  tail : q.trigStack.tail = p.trigStack.tail
  grown : p.seen <:+ q.seen
  placed : q.Placed

variable {p q r : Parser B σ}

@[simp] theorem withRest_trigStack (s : σ) : (p.withRest s).trigStack = p.trigStack := rfl

@[simp] theorem withRest_seen (s : σ) : (p.withRest s).seen = p.seen := rfl

@[simp] theorem withRest_addrs (s : σ) : (p.withRest s).addrs = p.addrs := rfl

theorem Placed.withRest (h : p.Placed) (s : σ) : (p.withRest s).Placed := ⟨h.once, h.ever⟩

theorem Placed.push (h : p.Placed) {item : StackItem B} (hnew : item.pTrigger.addr ∉ p.addrs) :
    (p.push item).Placed := by
  have honce : (item.pTrigger.addr :: p.addrs).Nodup := List.nodup_cons.2 ⟨hnew, h.once⟩
  refine ⟨honce, fun stack hstack => ?_⟩
  rcases List.mem_cons.1 hstack with rfl | hstack
  · exact honce
  · exact h.ever stack hstack

theorem setOrconf_addrs (p : Parser B σ) (orconf : OnError) : (p.setOrconf orconf).addrs = p.addrs := by
  unfold setOrconf
  split
  · rfl
  · next hs => simp [addrs, hs]

theorem setOrconf_below (h : p.Placed) (orconf : OnError) : p.Below (p.setOrconf orconf) := by
  have hseen : (p.setOrconf orconf).seen = p.seen := by
    unfold setOrconf
    split <;> rfl
  refine ⟨setOrconf_addrs p orconf, ?_, by rw [hseen], ?_, ?_⟩
  · unfold setOrconf
    split
    · rfl
    · next hs => simp only [hs, List.tail_cons]
  · rw [setOrconf_addrs]
    exact h.once
  · rw [hseen]
    exact h.ever

theorem Back.refl (h : p.Placed) : p.Back p := ⟨rfl, List.suffix_rfl, h⟩

theorem Back.trans (h : p.Back q) (h' : q.Back r) : p.Back r :=
  ⟨h'.stack.trans h.stack, h.grown.trans h'.grown, h'.placed⟩

theorem Back.addrs (h : p.Back q) : q.addrs = p.addrs := congrArg (List.map _) h.stack

theorem Back.withRest (h : p.Back q) (s : σ) : p.Back (q.withRest s) :=
  ⟨h.stack, h.grown, h.placed.withRest s⟩

theorem Below.refl (h : p.Placed) : p.Below p := ⟨rfl, rfl, List.suffix_rfl, h⟩

theorem Below.trans (h : p.Below q) (h' : q.Below r) : p.Below r :=
  ⟨h'.addrs.trans h.addrs, h'.tail.trans h.tail, h.grown.trans h'.grown, h'.placed⟩

theorem Below.withRest (h : p.Below q) (s : σ) : p.Below (q.withRest s) :=
  ⟨h.addrs, h.tail, h.grown, h.placed.withRest s⟩

theorem Back.below (h : p.Back q) : p.Below q :=
  ⟨h.addrs, congrArg List.tail h.stack, h.grown, h.placed⟩

/-- Popping the item that was pushed. -/
theorem Below.pop {item : StackItem B} (hp : p.Placed) (h : (p.push item).Below q) : p.Back q.pop := by
  have hstack : q.pop.trigStack = p.trigStack := h.tail
  refine ⟨hstack, (List.suffix_cons _ _).trans h.grown, ?_, h.placed.ever⟩
  rw [Parser.addrs, hstack]
  exact hp.once

end Parser

open Dbsql.L5.Trig.Parser

theorem onStack_eq_false (p : Parser B σ) (t : Trigger B) :
    onStack p.trigStack t = false ↔ t.addr ∉ p.addrs := by
  simp [onStack, Parser.addrs]

theorem new_of_fires {p : Parser B σ} {op : Event} {changes : Option (List Bytes)} {trTm : Time}
    {t : Trigger B} (h : fireThis p.trigStack op changes trTm t = true) : t.addr ∉ p.addrs := by
  rw [fireThis_eq, Bool.and_eq_true, Bool.not_eq_true'] at h
  exact (onStack_eq_false p t).1 h.2

/-- `__code_row_trigger` does nothing where no trigger is to be coded. -/
theorem codeRowTrigger_none (E : Env B σ) (run : Stmt B → Parser B σ → Option (Parser B σ)) {op : Event}
    {changes : Option (List Bytes)} {trTm : Time} (c : Cursors) (orconf : OnError) {ts : List (Trigger B)}
    {p : Parser B σ} (h : ¬ CodesSome p.trigStack ts op trTm changes) :
    codeRowTrigger E run op changes trTm c orconf ts p = some (false, p) := by
  induction ts with
  | nil => rfl
  | cons t ts ih =>
    have ht : ¬ fireThis p.trigStack op changes trTm t = true := fun hf => h ⟨t, List.mem_cons_self, hf⟩
    have hts : ¬ CodesSome p.trigStack ts op trTm changes := by
      intro hex
      obtain ⟨t', ht', hf⟩ := hex
      exact h ⟨t', List.mem_cons_of_mem _ ht', hf⟩
    rw [codeRowTrigger, if_neg ht]
    exact ih hts

/-! ## Every statement ends -/

/-- The triggers of the schema. -/
def Env.all (E : Env B σ) : Finset Nat := (E.tables.flatten.map (·.addr)).toFinset

/-- How many triggers are not on the stack. -/
def Env.toPush (E : Env B σ) (p : Parser B σ) : Nat := left E.all p.addrs

/-- A statement ends for every parser with fewer than `n` triggers to push, with fuel `n`. -/
def RunsBelow (E : Env B σ) (n : Nat) (run : Nat → Stmt B → Parser B σ → Option (Parser B σ)) : Prop :=
  ∀ st p, p.Placed → E.toPush p < n → Ends n (fun m => run m st p) p.Back

section
variable (E : Env B σ) {n : Nat} {run : Nat → Stmt B → Parser B σ → Option (Parser B σ)}

theorem toPush_congr {p q : Parser B σ} (h : q.addrs = p.addrs) : E.toPush q = E.toPush p :=
  congrArg (left E.all) h

theorem codeStep_ends (hrun : RunsBelow E n run) (ts : Step B) (orconf : OnError) {p : Parser B σ}
    (hp : p.Placed) (hlt : E.toPush p < n) : Ends n (fun m => codeStep E (run m) ts orconf p) p.Back := by
  have hlisted : ∀ op changes (s s' : Parser B σ → σ), Ends n
      (fun m => (run m ⟨op, targetSrcList E ts, changes, orconf, ts.body⟩ (p.withRest (s p))).map
        fun q => q.withRest (s' q)) p.Back := by
    intro op changes s s'
    have h := hrun ⟨op, targetSrcList E ts, changes, orconf, ts.body⟩ (p.withRest (s p)) (hp.withRest _) hlt
    exact h.map fun q hq => (((Back.refl hp).withRest _).trans hq).withRest _
  unfold codeStep
  cases ts.op with
  | select => exact .pure ((Back.refl hp).withRest _)
  | update => exact hlisted .update ts.pExprList (fun p => E.addOp .push p.rest) fun q => E.addOp .pop q.rest
  | insert => exact hrun _ p hp hlt
  | delete => exact hlisted .delete [] (fun p => E.addOp .push p.rest) fun q => E.addOp .pop q.rest

theorem codeTriggerProgram_ends (hrun : RunsBelow E n run) (orconfin : OnError) (steps : List (Step B)) :
    ∀ {p : Parser B σ}, p.Placed → E.toPush p < n →
      Ends n (fun m => codeTriggerProgram E (run m) orconfin steps p) p.Below := by
  induction steps with
  | nil =>
    intro p hp _
    exact .pure (Below.refl hp)
  | cons ts steps ih =>
    intro p hp hlt
    have hset := setOrconf_below hp (if orconfin = .default then ts.orconf else orconfin)
    have hstep := codeStep_ends E hrun ts (if orconfin = .default then ts.orconf else orconfin) hset.placed
      ((toPush_congr E hset.addrs).trans_lt hlt)
    refine hstep.bind fun q hq => ?_
    have hpq := (hset.trans hq.below).withRest (E.setNTab (E.nTab p.rest) q.rest)
    exact (ih hpq.placed ((toPush_congr E hpq.addrs).trans_lt hlt)).imp fun _ hr => hpq.trans hr

theorem codeTrigger_ends (hrun : RunsBelow E n run) (c : Cursors) (orconf : OnError) {t : Trigger B}
    (ht : t.addr ∈ E.all) {p : Parser B σ} (hp : p.Placed) (hnew : t.addr ∉ p.addrs)
    (hle : E.toPush p ≤ n) :
    Ends n (fun m => codeTrigger E (run m) c orconf t p) fun r => p.Back r.2 := by
  set item : StackItem B := ⟨t, c.newIdx, c.oldIdx, .none, c.ignoreJump⟩ with hitem
  have hpush : (p.push item).Placed := hp.push hnew
  have hlt : E.toPush (p.push item) < n := (left_push_lt ht hnew).trans_le hle
  unfold codeTrigger
  cases hw : E.codeWhen (p.push item) t.pWhen with
  | mk s failed =>
    have hwhen := (Below.refl hpush).withRest s
    cases failed with
    | true =>
      simp only [← hitem, hw, if_true]
      exact .pure (hwhen.pop hp)
    | false =>
      simp only [← hitem, hw, Bool.false_eq_true, if_false]
      exact (codeTriggerProgram_ends E hrun orconf t.stepList hwhen.placed hlt).map fun q hq =>
        ((hwhen.trans hq).pop hp).withRest _

theorem codeRowTrigger_ends (hrun : RunsBelow E n run) (op : Event) (changes : Option (List Bytes))
    (trTm : Time) (c : Cursors) (orconf : OnError) (ts : List (Trigger B)) (hts : ∀ t ∈ ts, t.addr ∈ E.all) :
    ∀ p : Parser B σ, p.Placed → E.toPush p ≤ n →
      Ends n (fun m => codeRowTrigger E (run m) op changes trTm c orconf ts p) fun r => p.Back r.2 := by
  induction ts with
  | nil =>
    intro p hp _
    exact .pure (Back.refl hp)
  | cons t ts ih =>
    intro p hp hle
    have hgo := ih fun t' ht' => hts t' (List.mem_cons_of_mem _ ht')
    by_cases hfire : fireThis p.trigStack op changes trTm t = true
    · simp only [codeRowTrigger, if_pos hfire]
      have hs := (Back.refl hp).withRest (E.calloc p.rest).1
      cases hfound : (E.calloc p.rest).2 with
      | false =>
        simp only [Bool.false_eq_true, if_false]
        exact (hgo _ hs.placed hle).imp fun _ hr => hs.trans hr
      | true =>
        simp only [if_true]
        have hcode := codeTrigger_ends E hrun c orconf (hts t List.mem_cons_self) hs.placed
          (new_of_fires hfire) hle
        refine hcode.bind fun r hr => ?_
        have hpr : p.Back r.2 := hs.trans hr
        cases hret : r.1 with
        | true =>
          simp only [if_true]
          exact .pure hpr
        | false =>
          simp only [Bool.false_eq_true, if_false]
          have hle' : E.toPush r.2 ≤ n := (toPush_congr E hpr.addrs).trans_le hle
          exact (hgo r.2 hpr.placed hle').imp fun _ hq => hpr.trans hq
    · simp only [codeRowTrigger, if_neg hfire]
      exact hgo p hp hle

theorem mem_all (k : Fin E.tables.length) {t : Trigger B} (ht : t ∈ E.tables[k]) : t.addr ∈ E.all := by
  simp only [Env.all, List.mem_toFinset, List.mem_map, List.mem_flatten]
  exact ⟨t, ⟨_, List.getElem_mem k.2, ht⟩, rfl⟩

theorem rowStmt_ends (hrun : RunsBelow E n run) (parts : Parts B σ E.tables.length) (w : Manner B)
    (st : Stmt B) {p : Parser B σ} (hp : p.Placed) (hle : E.toPush p ≤ n) :
    Ends n (fun m => rowStmt E parts w (run m) st p) p.Back := by
  -- the triggers of one time are coded, or not
  have hcode : ∀ trTm yes c orconf (k : Fin E.tables.length) {q : Parser B σ}, p.Back q →
      Ends n (fun m => if yes = true then
        codeRowTrigger E (run m) st.op w.changes trTm c orconf E.tables[k] q
        else some (false, q)) fun r => p.Back r.2 := by
    intro trTm yes c orconf k q hq
    cases yes with
    | false => exact .pure hq
    | true =>
      have hle' : E.toPush q ≤ n := (toPush_congr E hq.addrs).trans_le hle
      exact (codeRowTrigger_ends E hrun st.op w.changes trTm c orconf E.tables[k]
        (fun t ht => mem_all E k ht) q hq.placed hle').imp fun _ hr => hq.trans hr
  unfold rowStmt
  cases hl : parts.lookup p st with
  | mk s found =>
    have hs := (Back.refl hp).withRest s
    cases found with
    | none => exact .pure hs
    | some k =>
      simp only
      split
      · exact .pure (hs.withRest _)
      · next s' c _ =>
        refine (hcode .before _ c _ k (hs.withRest s')).bind fun ⟨ret, q⟩ hq => ?_
        by_cases hret : (ret && w.stops) = true
        · simp only [if_pos hret]
          exact .pure hq
        · simp only [if_neg hret]
          refine (hcode .after _ c _ k (hq.withRest _)).bind fun ⟨ret', q'⟩ hq' => ?_
          by_cases hret' : (ret' && w.stops) = true
          · simp only [if_pos hret']
            exact .pure hq'
          · simp only [if_neg hret']
            exact .pure (hq'.withRest _)

theorem compile_runsBelow : ∀ n, RunsBelow E n (compile E)
  | 0 => fun _ _ _ h => absurd h (Nat.not_lt_zero _)
  | n + 1 => by
    intro st p hp hlt
    have hrun := compile_runsBelow n
    have hle : E.toPush p ≤ n := Nat.lt_succ_iff.1 hlt
    apply Ends.succ
    cases hop : st.op with
    | update =>
      simp only [compile, hop]
      exact rowStmt_ends E hrun E.update _ st hp hle
    | insert =>
      simp only [compile, hop]
      exact rowStmt_ends E hrun E.insert _ st hp hle
    | delete =>
      simp only [compile, hop]
      exact rowStmt_ends E hrun E.deleteFrom _ st hp hle

end

/-- Every statement is compiled, in one way however deep calls may go beyond the number of triggers;
the stack is then what it was, and no trigger has been on it twice. So too for the triggers of a
table. -/
theorem compile_ends (E : Env B σ) (p : Parser B σ) (hp : p.Placed) :
    (∀ st, ∃ q, (∀ fuel, E.all.card < fuel → compile E fuel st p = some q) ∧
      q.trigStack = p.trigStack ∧ p.seen <:+ q.seen ∧ q.Placed) ∧
    ∀ (k : Fin E.tables.length) op changes trTm c orconf, ∃ ret q, (∀ fuel, E.all.card ≤ fuel →
      codeRowTrigger E (compile E fuel) op changes trTm c orconf E.tables[k] p = some (ret, q)) ∧
      q.trigStack = p.trigStack ∧ p.seen <:+ q.seen ∧ q.Placed := by
  have hle : E.toPush p ≤ E.all.card := left_le_card _ _
  constructor
  · intro st
    obtain ⟨q, hq, hback⟩ := compile_runsBelow E (E.all.card + 1) st p hp (Nat.lt_succ_iff.2 hle)
    exact ⟨q, fun fuel hfuel => hq fuel hfuel, hback.stack, hback.grown, hback.placed⟩
  · intro k op changes trTm c orconf
    obtain ⟨⟨ret, q⟩, hq, hback⟩ := codeRowTrigger_ends E (compile_runsBelow E E.all.card) op changes trTm c
      orconf E.tables[k] (fun t ht => mem_all E k ht) p hp hle
    exact ⟨ret, q, hq, hback.stack, hback.grown, hback.placed⟩

theorem selfInsert_ofUpdate (h : (none : Option (List Bytes)) ≠ none) : Event.insert = Event.update := absurd rfl h

/-- A trigger AFTER INSERT ON t whose program inserts into t. -/
def selfInsert : Trigger Unit :=
  ⟨7, ascii "tr", .insert, .after, .row, none, none, [⟨.insert, .default, 0, ascii "t", [], ()⟩],
    selfInsert_ofUpdate⟩

/-- One table, with that trigger; nothing fails. -/
def selfInsertEnv : Env Unit Unit :=
  let parts : Parts Unit Unit 1 :=
    ⟨fun _ _ => ((), some (Fin.last 0)), fun _ _ _ _ => ((), some ⟨0, -1, 0⟩), fun _ _ _ _ _ => (), fun _ _ _ _ _ => ()⟩
  ⟨[[selfInsert]], false, fun _ => ascii "main", fun _ => 0, fun _ _ => (), fun _ _ => (), fun _ => ((), true),
    fun _ _ => ((), false), fun _ => (), fun _ _ => (), parts, parts, parts⟩

theorem compile_ends_selfInsert :
    let st : Stmt Unit := ⟨.insert, (none, ascii "t"), [], .default, ()⟩
    ∃ q, compile selfInsertEnv 2 st ⟨[], (), []⟩ = some q ∧ q.trigStack = [] ∧ q.seen = [[7]] := by
  intro st
  have hplaced : Parser.Placed (⟨[], (), []⟩ : Parser Unit Unit) := ⟨List.nodup_nil, by simp⟩
  obtain ⟨q, hq, hstack, -, -⟩ := (compile_ends selfInsertEnv ⟨[], (), []⟩ hplaced).1 st
  have htwo : compile selfInsertEnv 2 st ⟨[], (), []⟩ = some q := hq 2 (by decide)
  refine ⟨q, htwo, hstack, ?_⟩
  have hrun : compile selfInsertEnv 2 st ⟨[], (), []⟩ = some ⟨[], (), [[7]]⟩ := rfl
  rw [hrun, Option.some.injEq] at htwo
  rw [← htwo]

end Dbsql.L5.Trig
