import Dbsql.L5Codegen.Names
/-!
# Which triggers fire (cg_trigger.c:660-744, 884-930)

`__triggers_exist` tells a statement whether to set up OLD and NEW for triggers, and
`__code_row_trigger` then goes through the same list and codes them. Both leave out a trigger that is
on the trigger stack, so that no trigger fires itself. But `__triggers_exist` looks up the head of
the list there, whichever trigger it is at.

A trigger is a pointer to the code, so it has an address here. Only UPDATE triggers have a list of
columns (sql_parser.y:820-825), which `Trigger` has as a field.

Results:
* `triggersExist_off`: what `__triggers_exist` finds.
* `triggersExist_iff`: when it finds what `__code_row_trigger` codes.
-/
namespace Dbsql.L5.Trig
open Dbsql.L1
open Dbsql.L5.Names (strcasecmp)

/-! ## Triggers -/

/-- `TK_DELETE`, `TK_INSERT`, `TK_UPDATE`. -/
inductive Event
  | delete | insert | update
  deriving DecidableEq, Repr

/-- `TK_BEFORE`, `TK_AFTER`. A trigger INSTEAD OF is stored as one BEFORE. -/
inductive Time
  | before | after
  deriving DecidableEq, Repr

/-- `TK_ROW`, `TK_STATEMENT`. -/
inductive Foreach
  | row | statement
  deriving DecidableEq, Repr

/-- `OE_None` (zero) to `OE_Replace`, and `OE_Default`. -/
inductive OnError
  | none | rollback | abort | fail | ignore | replace | default
  deriving DecidableEq, Repr

inductive StepOp
  | select | update | insert | delete
  deriving DecidableEq, Repr

/-- `trigger_step_t`; `iDb` is that of `pTrig`. The names that `pExprList` sets are apart from the
expressions, `B`. -/
structure Step (B : Type) where
  op : StepOp
  orconf : OnError
  iDb : Nat
  target : Bytes
  pExprList : List Bytes
  body : B

/-- `trigger_t`. -/
structure Trigger (B : Type) where
  addr : Nat
  name : Bytes
  op : Event
  trTm : Time
  foreach : Foreach
  pColumns : Option (List Bytes)
  pWhen : Option B
  stepList : List (Step B)
  ofUpdate : pColumns ≠ none → op = .update

/-- `trigger_stack_t`, less the table. -/
structure StackItem (B : Type) where
  pTrigger : Trigger B
  newIdx : Int
  oldIdx : Int
  orconf : OnError
  ignoreJump : Int

variable {B : Type}

/-- `__id_list_index(list, name) >= 0` (cg_build.c:2559-2573). -/
def idListHas (list : List Bytes) (name : Bytes) : Bool := list.any (strcasecmp · name)

/-- `__check_column_overlap` (cg_trigger.c:672-684). -/
def checkColumnOverlap (idList elist : Option (List Bytes)) : Bool :=
  match idList, elist with
  | some ids, some names => names.any (idListHas ids)
  | _, _ => true

/-- The trigger is on the stack. -/
def onStack (stack : List (StackItem B)) (t : Trigger B) : Bool :=
  stack.any (·.pTrigger.addr = t.addr)

/-- The filter of `__triggers_exist`, but for the stack (cg_trigger.c:729-732). -/
def isFor (op : Event) (trTm : Time) (foreach : Foreach) (changes : Option (List Bytes))
    (t : Trigger B) : Bool :=
  t.op = op && t.trTm = trTm && t.foreach = foreach && checkColumnOverlap t.pColumns changes

/-- The loop of `__triggers_exist`: `head` is its argument, and the cursor goes on. -/
def searchTriggers (stack : List (StackItem B)) (head : Trigger B) (op : Event) (trTm : Time)
    (foreach : Foreach) (changes : Option (List Bytes)) : List (Trigger B) → Bool
  | [] => false
  | t :: ts =>
    if isFor op trTm foreach changes t && !onStack stack head then true
    else searchTriggers stack head op trTm foreach changes ts

/-- `__triggers_exist` (cg_trigger.c:714-744), where `always` is the global
`always_code_trigger_setup`. -/
def triggersExist (always : Bool) (stack : List (StackItem B)) (trigger : List (Trigger B)) (op : Event)
    (trTm : Time) (foreach : Foreach) (changes : Option (List Bytes)) : Bool :=
  if always then true
  else match trigger with
    | [] => false
    | head :: _ => searchTriggers stack head op trTm foreach changes trigger

/-- `fire_this` (cg_trigger.c:906-929). -/
def fireThis (stack : List (StackItem B)) (op : Event) (changes : Option (List Bytes)) (trTm : Time)
    (t : Trigger B) : Bool :=
  if t.op = op ∧ t.trTm = trTm ∧ t.foreach = .row then
    if op = .update ∧ t.pColumns.isSome ∧ ¬ checkColumnOverlap t.pColumns changes then false
    else !onStack stack t
  else false

/-! ## The two filters -/

variable {stack : List (StackItem B)} {op : Event} {trTm : Time} {changes : Option (List Bytes)}

/-- The column list is asked for in UPDATE triggers only, and others have none. -/
theorem fireThis_eq (t : Trigger B) :
    fireThis stack op changes trTm t = (isFor op trTm .row changes t && !onStack stack t) := by
  unfold fireThis isFor
  by_cases h : t.op = op ∧ t.trTm = trTm ∧ t.foreach = .row
  · obtain ⟨rfl, rfl, hrow⟩ := h
    cases hc : t.pColumns with
    | none => simp [hrow, checkColumnOverlap]
    | some ids =>
      have hu : t.op = .update := t.ofUpdate (by simp [hc])
      by_cases ho : checkColumnOverlap (some ids) changes = true <;> simp [hrow, hu, ho]
  · rw [if_neg h, eq_comm, Bool.and_eq_false_iff]
    left
    simp only [Bool.and_eq_false_iff, decide_eq_false_iff_not]
    tauto

theorem searchTriggers_eq (foreach : Foreach) (head : Trigger B) (ts : List (Trigger B)) :
    searchTriggers stack head op trTm foreach changes ts =
      (ts.any (isFor op trTm foreach changes) && !onStack stack head) := by
  induction ts with
  | nil => rfl
  | cons t ts ih =>
    rw [searchTriggers, ih, List.any_cons]
    cases isFor op trTm foreach changes t <;> cases onStack stack head <;> simp

/-- `__triggers_exist` with the global off: the head of the list is not on the stack, and some
trigger is for the statement. -/
theorem triggersExist_off (foreach : Foreach) (ts : List (Trigger B)) :
    triggersExist false stack ts op trTm foreach changes = true ↔
      (∃ t ∈ ts, isFor op trTm foreach changes t) ∧ ∀ head ∈ ts.head?, onStack stack head = false := by
  cases ts with
  | nil => simp [triggersExist]
  | cons head ts =>
    rw [triggersExist, if_neg Bool.false_ne_true]
    simp only [searchTriggers_eq, Bool.and_eq_true, List.any_eq_true, Bool.not_eq_true']
    simp

/-- `__code_row_trigger` would code a trigger. -/
def CodesSome (stack : List (StackItem B)) (ts : List (Trigger B)) (op : Event) (trTm : Time)
    (changes : Option (List Bytes)) : Prop :=
  ∃ t ∈ ts, fireThis stack op changes trTm t = true

instance (ts : List (Trigger B)) : Decidable (CodesSome stack ts op trTm changes) :=
  inferInstanceAs (Decidable (∃ t ∈ ts, fireThis stack op changes trTm t = true))

/-- The head of the list is on the stack just where all triggers that are for the statement are. -/
def HeadSpeaksForAll (stack : List (StackItem B)) (ts : List (Trigger B)) (op : Event) (trTm : Time)
    (changes : Option (List Bytes)) : Prop :=
  ∀ head ∈ ts.head?, onStack stack head = true ↔
    ∀ t ∈ ts, isFor op trTm .row changes t = true → onStack stack t = true

instance (ts : List (Trigger B)) : Decidable (HeadSpeaksForAll stack ts op trTm changes) :=
  inferInstanceAs (Decidable (∀ head ∈ ts.head?, _ ↔ _))

theorem codesSome_iff (ts : List (Trigger B)) : CodesSome stack ts op trTm changes ↔
    ∃ t ∈ ts, isFor op trTm .row changes t = true ∧ onStack stack t = false := by
  simp only [CodesSome, fireThis_eq, Bool.and_eq_true, Bool.not_eq_true']

/-- `__triggers_exist` and `__code_row_trigger` agree: with the global on where a trigger is coded,
and else where none is for the statement or the head of the list speaks for all that are. -/
theorem triggersExist_iff (always : Bool) (stack : List (StackItem B)) (ts : List (Trigger B))
    (op : Event) (trTm : Time) (changes : Option (List Bytes)) :
    (triggersExist always stack ts op trTm .row changes = true ↔ CodesSome stack ts op trTm changes) ↔
      if always then ∃ t ∈ ts, isFor op trTm .row changes t = true ∧ onStack stack t = false
      else (∃ t ∈ ts, isFor op trTm .row changes t = true) → HeadSpeaksForAll stack ts op trTm changes := by
  cases always with
  | true => simp [triggersExist, codesSome_iff]
  | false =>
    rw [triggersExist_off, codesSome_iff, if_neg Bool.false_ne_true]
    cases ts with
    | nil => simp
    | cons head ts =>
      have hoff : ∀ t : Trigger B, onStack stack t = false ↔ ¬ onStack stack t = true := fun t => by simp
      simp only [HeadSpeaksForAll, List.head?_cons, Option.mem_some_iff, forall_eq', hoff]
      constructor
      · intro h hex
        constructor
        · intro hon t ht hfor
          by_contra hoff'
          exact (h.2 ⟨t, ht, hfor, hoff'⟩).2 hon
        · intro hall
          by_contra hon
          obtain ⟨t, ht, hfor, hoff'⟩ := h.1 ⟨hex, hon⟩
          exact hoff' (hall t ht hfor)
      · intro h
        constructor
        · intro hex
          by_contra hnone
          refine hex.2 ((h hex.1).2 fun t ht hfor => ?_)
          by_contra hoff'
          exact hnone ⟨t, ht, hfor, hoff'⟩
        · intro hsome
          obtain ⟨t, ht, hfor, hoff'⟩ := hsome
          exact ⟨⟨t, ht, hfor⟩, fun hon => hoff' ((h ⟨t, ht, hfor⟩).1 hon t ht hfor)⟩

/-- `CREATE TRIGGER ... AFTER INSERT ON t`. -/
def afterInsert (addr : Nat) (name : Bytes) : Trigger Unit :=
  ⟨addr, name, .insert, .after, .row, none, none, [], nofun⟩

/-- In the program of `a`, made last, an INSERT into the same table: `b` would be coded, and
`__triggers_exist` says that there is no trigger. -/
theorem triggersExist_head_on_stack :
    let a := afterInsert 2 (ascii "a")
    let b := afterInsert 1 (ascii "b")
    ¬ (triggersExist false [⟨a, 0, -1, .default, 0⟩] [a, b] .insert .after .row none = true ↔
      CodesSome [⟨a, 0, -1, .default, 0⟩] [a, b] .insert .after none) := by
  decide

end Dbsql.L5.Trig
