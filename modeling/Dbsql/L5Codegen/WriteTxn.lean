import Dbsql.L1Encoding.Codes
import Mathlib.Data.List.Induction
import Mathlib.Tactic.Common
/-!
# Begin, checkpoint and commit in the emitted programs (cg_build.c)

`__vdbe_prepare_write` emits the opcodes that make a database writable,
`__vdbe_conclude_write` the commit; BEGIN, COMMIT and ROLLBACK are statements of
their own. What the other code generators emit between the two is an arbitrary
sequence of events: opcodes that open or change a database, further calls of
`__vdbe_prepare_write` (the statements of a trigger program), entries into and returns
from trigger programs.

`__vdbe_prepare_write` takes the index of a database and emits `OP_Transaction 0 0`
whatever the index is.

Results:
* `mem_transaction_emitAll`: an `OP_Transaction` has been emitted exactly when some call of
  `__vdbe_prepare_write` named a database that was not in a transaction; its P1 is 0.
* `begun_iff`: the databases a statement writes are begun by its own program exactly when
  it writes to the main database only, and only after such a call.
* `session_begins_and_ends_iff`: the same over every sequence of statements.
-/
namespace Dbsql.L5.WriteTxn
open Dbsql.L1

/-! ## Positions in a program -/

/-- `R` holds of every entry and what stands before it. -/
def AtEach {α : Type} (R : List α → α → Prop) (l : List α) : Prop :=
  ∀ pre a post, l = pre ++ a :: post → R pre a

section
variable {α : Type} {R : List α → α → Prop}

theorem atEach_nil : AtEach R [] := by
  intro pre a post h
  simp at h

theorem atEach_concat (l : List α) (a : α) : AtEach R (l ++ [a]) ↔ AtEach R l ∧ R l a := by
  constructor
  · intro h
    exact ⟨fun pre b post hl => h pre b (post ++ [a]) (by simp [hl]), h l a [] rfl⟩
  · rintro ⟨hl, ha⟩ pre b post h
    rcases List.eq_nil_or_concat post with rfl | ⟨post', c, rfl⟩
    · obtain ⟨rfl, hab⟩ := List.append_inj' h rfl
      cases hab
      exact ha
    · rw [List.concat_eq_append, ← List.cons_append, ← List.append_assoc] at h
      exact hl pre b post' (List.append_inj' h rfl).1

/-- Entries of which `R` holds anywhere. -/
theorem atEach_append {l l' : List α} (h : ∀ pre, ∀ a ∈ l', R pre a) :
    AtEach R (l ++ l') ↔ AtEach R l := by
  induction l' using List.reverseRecOn with
  | nil => rw [List.append_nil]
  | append_singleton l' a ih =>
    rw [← List.append_assoc, atEach_concat, ih fun pre b hb => h pre b (by simp [hb])]
    exact and_iff_left (h _ a (by simp))

end

/-! ## The code generator -/

/-- The opcodes of the other code generators, as far as they change a database.
`openWrite i` is `OP_OpenWrite` after the `OP_Integer i` that selects the database. -/
inductive BodyOp
  | openWrite (i cur root : Nat)
  | clear (root i : Nat)
  | destroy (root i : Nat)
  | createTable (i : Nat)
  | createIndex (i : Nat)
  | setFormatVersion (i : Nat)
  | setSchemaSignature (i : Nat)
  | other
  deriving DecidableEq, Repr

/-- The database the opcode changes, or opens for changes. -/
def BodyOp.writes : BodyOp → Option Nat
  | .openWrite i _ _ | .clear _ i | .destroy _ i | .createTable i | .createIndex i
  | .setFormatVersion i | .setSchemaSignature i => some i
  | .other => none

inductive Op
  | transaction (p1 : Nat)
  | checkpoint (p1 : Nat)
  | commit (p1 : Nat)
  | rollback (p1 : Nat)
  | verifySchemaSignature (p1 : Nat) (p2 : Int)
  | body (o : BodyOp)
  deriving DecidableEq, Repr

def Op.writes : Op → Option Nat
  | .body o => o.writes
  | _ => none

/-- The database whose transaction the opcode ends. -/
def Op.ends : Op → Option Nat
  | .commit p1 | .rollback p1 => some p1
  | _ => none

/-- `dbsql_db_t`, the fields that decide which of these opcodes are emitted. -/
structure GenDb where
  schemaSig : Int
  inTrans : Bool
  /-- `DBSQL_SCHEMA_LOCKED` -/
  schemaLocked : Bool
  /-- `DBSQL_COOKIE` -/
  cookie : Bool

/-- `parser_t` and the fields of its `DBSQL`; `trigStack` is the depth of the stack. -/
structure Parser where
  aDb : Nat → GenDb
  flagInTrans : Bool
  onError : Oe
  nErr : Nat
  trigStack : Nat
  prog : List Op

/-- `__vdbe_add_op`. -/
def Parser.addOp (p : Parser) (o : Op) : Parser := { p with prog := p.prog ++ [o] }

def Parser.setDb (p : Parser) (i : Nat) (d : GenDb) : Parser :=
  { p with aDb := fun j => if j = i then d else p.aDb j }

/-- `DB_PROPERTY_SET(dbp, i, DBSQL_SCHEMA_LOCKED)`. -/
def Parser.lock (p : Parser) (i : Nat) : Parser := p.setDb i { p.aDb i with schemaLocked := true }

/-- `__parse_begin` (cg_build.c:55-77), for a new parser and program; `inTrans` is what
the programs run before have left in the connection. -/
def parseBegin (p : Parser) (inTrans : Nat → Bool) : Parser where
  aDb i :=
    { schemaSig := (p.aDb i).schemaSig
      inTrans := inTrans i
      schemaLocked := false
      cookie := if inTrans i then (p.aDb i).cookie else false }
  flagInTrans := p.flagInTrans
  onError := p.onError
  nErr := 0
  trigStack := 0
  prog := []

/-- `__code_verify_schema` (cg_build.c:2705-2718). -/
def codeVerifySchema (p : Parser) (idb : Nat) : Parser :=
  if idb ≠ 1 ∧ (p.aDb idb).cookie = false then
    let p := p.addOp (.verifySchemaSignature idb (p.aDb idb).schemaSig)
    p.setDb idb { p.aDb idb with cookie := true }
  else p

/-- `__vdbe_prepare_write` (cg_build.c:2742-2766). -/
def vdbePrepareWrite (p : Parser) (checkpoint : Bool) (idb : Nat) : Parser :=
  if (p.aDb idb).schemaLocked then p
  else if !(p.aDb idb).inTrans then
    let p := p.addOp (.transaction 0)
    let p := p.lock idb
    let p := codeVerifySchema p idb
    if idb ≠ 1 then vdbePrepareWrite p checkpoint 1 else p
  else if checkpoint then (p.addOp (.checkpoint idb)).lock idb
  else p
termination_by if idb = 1 then 0 else 1
decreasing_by simp [‹idb ≠ 1›]

/-- `__vdbe_conclude_write` (cg_build.c:2780-2799). -/
def vdbeConcludeWrite (p : Parser) : Parser :=
  if p.trigStack ≠ 0 then p
  else if p.flagInTrans then p
  else p.addOp (.commit 0)

/-- `__dbsql_txn_begin` (cg_build.c:2606-2630); `denied` is what `__auth_check` returns. -/
def dbsqlTxnBegin (p : Parser) (onError : Oe) (denied : Bool) : Parser :=
  if p.nErr ≠ 0 then p
  else if denied then p
  else if p.flagInTrans then { p with nErr := p.nErr + 1 }
  else { vdbePrepareWrite p false 0 with flagInTrans := true, onError := onError }

/-- `__dbsql_txn_commit` (cg_build.c:2638-2661). -/
def dbsqlTxnCommit (p : Parser) (denied : Bool) : Parser :=
  if p.nErr ≠ 0 then p
  else if denied then p
  else if !p.flagInTrans then { p with nErr := p.nErr + 1 }
  else { vdbeConcludeWrite { p with flagInTrans := false } with onError := .default }

/-- `__dbsql_txn_abort` (cg_build.c:2669-2696). -/
def dbsqlTxnAbort (p : Parser) (denied : Bool) : Parser :=
  if p.nErr ≠ 0 then p
  else if denied then p
  else if !p.flagInTrans then { p with nErr := p.nErr + 1 }
  else { p.addOp (.rollback 0) with flagInTrans := false, onError := .default }

/-- One event while a statement that writes is coded. -/
inductive Event
  | addOp (o : BodyOp)
  | prepareWrite (checkpoint : Bool) (idb : Nat)
  | concludeWrite
  | pushTrigger
  | popTrigger
  deriving DecidableEq, Repr

def emit (p : Parser) : Event → Parser
  | .addOp o => p.addOp (.body o)
  | .prepareWrite checkpoint idb => vdbePrepareWrite p checkpoint idb
  | .concludeWrite => vdbeConcludeWrite p
  | .pushTrigger => { p with trigStack := p.trigStack + 1 }
  | .popTrigger => { p with trigStack := p.trigStack - 1 }

def emitAll (p : Parser) (es : List Event) : Parser := es.foldl emit p

inductive Stmt
  /-- the generators that call `__vdbe_prepare_write (checkpoint, idb)`, emit the events of
  `body` and call `__vdbe_conclude_write` -/
  | write (checkpoint : Bool) (idb : Nat) (body : List Event)
  | begin (onError : Oe) (denied : Bool)
  | commit (denied : Bool)
  | rollback (denied : Bool)
  deriving DecidableEq, Repr

def code (p : Parser) : Stmt → Parser
  | .write checkpoint idb body =>
    vdbeConcludeWrite (emitAll p (.prepareWrite checkpoint idb :: body))
  | .begin onError denied => dbsqlTxnBegin p onError denied
  | .commit denied => dbsqlTxnCommit p denied
  | .rollback denied => dbsqlTxnAbort p denied

/-- The statements of a connection in order, each with the `inTrans` flags it finds, and
the programs coded for them. -/
def programs (p : Parser) : List ((Nat → Bool) × Stmt) → List (Stmt × List Op)
  | [] => []
  | (inTrans, s) :: ss =>
    let p := code (parseBegin p inTrans) s
    (s, p.prog) :: programs p ss

/-! ## What is promised -/

/-- Every write to database `i` comes after an `OP_Transaction` whose P1 is `i`. -/
def Begun (i : Nat) (prog : List Op) : Prop :=
  AtEach (fun pre o => o.writes = some i → Op.transaction i ∈ pre) prog

/-- The program of a statement on database `idb` begins that database and temp. -/
def BeginsWhatItWrites : Stmt × List Op → Prop
  | (.write _ idb _, prog) => ∀ i, i = idb ∨ i = 1 → Begun i prog
  | _ => True

/-- Every commit and every rollback ends the transaction of every database begun. -/
def EndsWhatWasBegun (ps : List (Stmt × List Op)) : Prop :=
  ∀ e ∈ ps, ∀ e' ∈ ps, ∀ i, Op.transaction i ∈ e.2 → ∀ o ∈ e'.2, o.ends.isSome → o.ends = some i

/-- A call of `__vdbe_prepare_write` names a database that is not in a transaction. -/
def Starts (inTrans : Nat → Bool) (es : List Event) : Prop :=
  ∃ checkpoint k, Event.prepareWrite checkpoint k ∈ es ∧ inTrans k = false

/-- What the statement writes of its database and of temp is the main database, and only
after a call that names a database not in a transaction. -/
def WritesMainOnly (inTrans : Nat → Bool) : Stmt → Prop
  | .write checkpoint idb body =>
    AtEach (fun pre e => ∀ o i, e = .addOp o → o.writes = some i → i = idb ∨ i = 1 →
      i = 0 ∧ Starts inTrans pre) (.prepareWrite checkpoint idb :: body)
  | _ => True

/-! ## One call -/

/-- The opcodes that begin and end transactions name the main database. -/
def Op.Main : Op → Prop
  | .transaction p1 | .commit p1 | .rollback p1 => p1 = 0
  | _ => True

/-- What `__vdbe_prepare_write` appends and which databases it marks. -/
structure Prepared (p : Parser) (k : Nat) (p' : Parser) (ops : List Op) : Prop where
  prog : p'.prog = p.prog ++ ops
  quiet : ∀ o ∈ ops, o.writes = none
  main : ∀ o ∈ ops, o.Main
  begins : ∀ i, Op.transaction i ∈ ops ↔
    i = 0 ∧ (p.aDb k).schemaLocked = false ∧ (p.aDb k).inTrans = false
  inTrans : ∀ j, (p'.aDb j).inTrans = (p.aDb j).inTrans
  locked : ∀ j, (p'.aDb j).schemaLocked = true →
    (p.aDb j).schemaLocked = true ∨ j = k ∨ (p.aDb k).inTrans = false
  trigStack : p'.trigStack = p.trigStack

@[simp] theorem addOp_aDb (p : Parser) (o : Op) : (p.addOp o).aDb = p.aDb := rfl
@[simp] theorem addOp_prog (p : Parser) (o : Op) : (p.addOp o).prog = p.prog ++ [o] := rfl
@[simp] theorem addOp_trigStack (p : Parser) (o : Op) : (p.addOp o).trigStack = p.trigStack := rfl
@[simp] theorem setDb_prog (p : Parser) (k : Nat) (d : GenDb) : (p.setDb k d).prog = p.prog := rfl
@[simp] theorem setDb_trigStack (p : Parser) (k : Nat) (d : GenDb) :
    (p.setDb k d).trigStack = p.trigStack := rfl

theorem setDb_inTrans {p : Parser} {k : Nat} {d : GenDb} (h : d.inTrans = (p.aDb k).inTrans)
    (j : Nat) : ((p.setDb k d).aDb j).inTrans = (p.aDb j).inTrans := by
  unfold Parser.setDb
  dsimp only
  split
  · subst j
    exact h
  · rfl

theorem setDb_locked {p : Parser} {k : Nat} {d : GenDb} {j : Nat} (hj : j ≠ k) :
    ((p.setDb k d).aDb j).schemaLocked = (p.aDb j).schemaLocked := by
  simp only [Parser.setDb, if_neg hj]

@[simp] theorem lock_prog (p : Parser) (k : Nat) : (p.lock k).prog = p.prog := rfl

@[simp] theorem lock_inTrans (p : Parser) (k j : Nat) :
    ((p.lock k).aDb j).inTrans = (p.aDb j).inTrans := by
  apply setDb_inTrans
  rfl

theorem lock_locked {p : Parser} {k j : Nat} (hj : j ≠ k) :
    ((p.lock k).aDb j).schemaLocked = (p.aDb j).schemaLocked := setDb_locked hj

/-- What `__code_verify_schema` can do. -/
theorem codeVerifySchema_spec (p : Parser) (k : Nat) :
    (∃ ops, (codeVerifySchema p k).prog = p.prog ++ ops ∧
      ∀ o ∈ ops, ∃ sig, o = .verifySchemaSignature k sig) ∧
    (∀ j, ((codeVerifySchema p k).aDb j).inTrans = (p.aDb j).inTrans) ∧
    (∀ j, ((codeVerifySchema p k).aDb j).schemaLocked = (p.aDb j).schemaLocked) ∧
    (codeVerifySchema p k).trigStack = p.trigStack := by
  unfold codeVerifySchema
  split
  · refine ⟨⟨_, rfl, by simp⟩, setDb_inTrans rfl, fun j => ?_, rfl⟩
    by_cases hj : j = k
    · simp [Parser.setDb, hj]
    · rw [setDb_locked hj, addOp_aDb]
  · exact ⟨⟨[], by simp⟩, fun _ => rfl, fun _ => rfl, rfl⟩

/-- The part of the call that comes before the call for temp. -/
theorem prepared_begin (p : Parser) {k : Nat} (hl : (p.aDb k).schemaLocked = false)
    (hi : (p.aDb k).inTrans = false) :
    ∃ ops, Prepared p k (codeVerifySchema ((p.addOp (.transaction 0)).lock k) k) ops := by
  obtain ⟨⟨ops, hprog, hops⟩, htrans, hlock, hstack⟩ :=
    codeVerifySchema_spec ((p.addOp (.transaction 0)).lock k) k
  refine ⟨.transaction 0 :: ops, ?_, ?_, ?_, ?_, ?_, ?_, hstack⟩
  · simp [hprog]
  · intro o ho
    rcases List.mem_cons.1 ho with rfl | ho
    · rfl
    · obtain ⟨sig, rfl⟩ := hops o ho
      rfl
  · intro o ho
    rcases List.mem_cons.1 ho with rfl | ho
    · rfl
    · obtain ⟨sig, rfl⟩ := hops o ho
      trivial
  · intro i
    simp only [hl, hi, and_self, and_true, List.mem_cons, Op.transaction.injEq]
    refine or_iff_left fun h => ?_
    obtain ⟨sig, h⟩ := hops _ h
    cases h
  · intro j
    rw [htrans, lock_inTrans, addOp_aDb]
  · intro j hj
    by_cases hjk : j = k
    · exact .inr (.inl hjk)
    · rw [hlock, lock_locked hjk] at hj
      exact .inl hj

/-- The call followed by the call for temp. -/
theorem Prepared.temp {p p' p'' : Parser} {k : Nat} {ops ops' : List Op} (h : Prepared p k p' ops)
    (hl : (p.aDb k).schemaLocked = false) (hi : (p.aDb k).inTrans = false)
    (h' : Prepared p' 1 p'' ops') : Prepared p k p'' (ops ++ ops') where
  prog := by rw [h'.prog, h.prog, List.append_assoc]
  quiet o ho := (List.mem_append.1 ho).elim (h.quiet o) (h'.quiet o)
  main o ho := (List.mem_append.1 ho).elim (h.main o) (h'.main o)
  begins i := by
    rw [List.mem_append, h.begins, h'.begins]
    simp only [hl, hi, and_self, and_true]
    exact or_iff_left_of_imp fun h => h.1
  inTrans j := (h'.inTrans j).trans (h.inTrans j)
  locked _ _ := .inr (.inr hi)
  trigStack := h'.trigStack.trans h.trigStack

/-- **What `__vdbe_prepare_write` emits**, for any database and any flags. -/
theorem vdbePrepareWrite_spec (p : Parser) (checkpoint : Bool) (k : Nat) :
    ∃ ops, Prepared p k (vdbePrepareWrite p checkpoint k) ops := by
  fun_induction vdbePrepareWrite p checkpoint k with
  | case1 p k hl =>
    exact ⟨[], by simp, by simp, by simp, by simp [hl], fun _ => rfl, fun _ h => .inl h, rfl⟩
  | case2 p k hl hi p₁ p₂ p₃ hk ih =>
    obtain ⟨ops, h⟩ := prepared_begin p (by simpa using hl) (by simpa using hi)
    obtain ⟨ops', h'⟩ := ih
    exact ⟨ops ++ ops', h.temp (by simpa using hl) (by simpa using hi) h'⟩
  | case3 p k hl hi p₁ p₂ p₃ hk =>
    exact prepared_begin p (by simpa using hl) (by simpa using hi)
  | case4 p k hl hi hc =>
    refine ⟨[.checkpoint k], by simp, by simp [Op.writes], by simp [Op.Main], ?_, ?_, ?_, rfl⟩
    · simp at hi
      simp [hi]
    · simp
    · intro j hj
      by_cases hjk : j = k
      · exact .inr (.inl hjk)
      · rw [lock_locked hjk] at hj
        exact .inl hj
  | case5 p k hl hi hc =>
    simp at hi
    exact ⟨[], by simp, by simp, by simp, by simp [hi], fun _ => rfl, fun _ h => .inl h, rfl⟩

/-! ## A statement -/

/-- Of the parser while a statement is coded: the flags it found, and a marked database
that was not in a transaction has made the program begin one. -/
structure Coding (inTrans : Nat → Bool) (es : List Event) (p : Parser) : Prop where
  flags : ∀ k, (p.aDb k).inTrans = inTrans k
  begun : ∀ i, Op.transaction i ∈ p.prog ↔ i = 0 ∧ Starts inTrans es
  locked : ∀ k, (p.aDb k).schemaLocked = true → inTrans k = false → Starts inTrans es
  main : ∀ o ∈ p.prog, o.Main

theorem starts_concat (inTrans : Nat → Bool) (es : List Event) (e : Event) :
    Starts inTrans (es ++ [e]) ↔
      Starts inTrans es ∨ ∃ checkpoint k, e = .prepareWrite checkpoint k ∧ inTrans k = false := by
  unfold Starts
  constructor
  · rintro ⟨c, k, hm, hk⟩
    rcases List.mem_append.1 hm with hm | hm
    · exact .inl ⟨c, k, hm, hk⟩
    · exact .inr ⟨c, k, (List.mem_singleton.1 hm).symm, hk⟩
  · rintro (⟨c, k, hm, hk⟩ | ⟨c, k, rfl, hk⟩)
    · exact ⟨c, k, List.mem_append_left _ hm, hk⟩
    · exact ⟨c, k, by simp, hk⟩

theorem vdbeConcludeWrite_cases (p : Parser) :
    vdbeConcludeWrite p = p ∨ vdbeConcludeWrite p = p.addOp (.commit 0) := by
  unfold vdbeConcludeWrite
  split
  · exact .inl rfl
  · split
    · exact .inl rfl
    · exact .inr rfl

/-- What one event appends. -/
theorem emit_prog (p : Parser) (e : Event) : ∃ ops, (emit p e).prog = p.prog ++ ops ∧
    ((∃ o, e = .addOp o ∧ ops = [.body o]) ∨
      (∀ o, e ≠ .addOp o) ∧ ∀ o ∈ ops, o.writes = none) := by
  cases e with
  | addOp o => exact ⟨[.body o], rfl, .inl ⟨o, rfl, rfl⟩⟩
  | prepareWrite checkpoint k =>
    obtain ⟨ops, h⟩ := vdbePrepareWrite_spec p checkpoint k
    exact ⟨ops, h.prog, .inr ⟨by simp, h.quiet⟩⟩
  | concludeWrite =>
    rcases vdbeConcludeWrite_cases p with h | h
    · exact ⟨[], by simp [emit, h], .inr (by simp)⟩
    · exact ⟨[.commit 0], by simp [emit, h], .inr (by simp [Op.writes])⟩
  | pushTrigger | popTrigger => exact ⟨[], by simp [emit], .inr (by simp)⟩

theorem Coding.emit {inTrans : Nat → Bool} {es : List Event} {p : Parser} (h : Coding inTrans es p)
    (e : Event) : Coding inTrans (es ++ [e]) (emit p e) := by
  -- events other than a call for a database outside a transaction
  have same : (∀ c k, e = .prepareWrite c k → inTrans k = true) →
      (Starts inTrans (es ++ [e]) ↔ Starts inTrans es) := by
    intro hne
    rw [starts_concat]
    refine or_iff_left ?_
    rintro ⟨c, k, rfl, hk⟩
    rw [hne c k rfl] at hk
    cases hk
  cases e with
  | addOp o =>
    have hs := same (by simp)
    refine ⟨h.flags, fun i => ?_, fun k hk ht => hs.2 (h.locked k hk ht), fun o' ho => ?_⟩
    · rw [hs, ← h.begun i]
      simp [WriteTxn.emit]
    · simp only [WriteTxn.emit, addOp_prog, List.mem_append, List.mem_singleton] at ho
      rcases ho with ho | rfl
      · exact h.main o' ho
      · trivial
  | prepareWrite checkpoint k =>
    obtain ⟨ops, hp⟩ := vdbePrepareWrite_spec p checkpoint k
    refine ⟨fun j => (hp.inTrans j).trans (h.flags j), fun i => ?_, fun j hj ht => ?_, fun o ho => ?_⟩
    · rw [WriteTxn.emit, hp.prog, List.mem_append, h.begun, hp.begins, starts_concat, h.flags]
      constructor
      · rintro (⟨hi, hs⟩ | ⟨hi, -, ht⟩)
        · exact ⟨hi, .inl hs⟩
        · exact ⟨hi, .inr ⟨_, _, rfl, ht⟩⟩
      · rintro ⟨hi, hs | ⟨c, j, he, ht⟩⟩
        · exact .inl ⟨hi, hs⟩
        · cases he
          by_cases hl : (p.aDb k).schemaLocked = true
          · exact .inl ⟨hi, h.locked k hl ht⟩
          · exact .inr ⟨hi, by simpa using hl, ht⟩
    · rw [starts_concat]
      rcases hp.locked j hj with hl | rfl | hi
      · exact .inl (h.locked j hl ht)
      · exact .inr ⟨_, _, rfl, ht⟩
      · rw [h.flags] at hi
        exact .inr ⟨_, _, rfl, hi⟩
    · rw [WriteTxn.emit, hp.prog, List.mem_append] at ho
      exact ho.elim (h.main o) (hp.main o)
  | concludeWrite =>
    have hs := same (by simp)
    rcases vdbeConcludeWrite_cases p with hc | hc
    · rw [WriteTxn.emit, hc]
      exact ⟨h.flags, fun i => (h.begun i).trans (and_congr_right fun _ => hs.symm),
        fun k hk ht => hs.2 (h.locked k hk ht), h.main⟩
    · rw [WriteTxn.emit, hc]
      refine ⟨h.flags, fun i => ?_, fun k hk ht => hs.2 (h.locked k hk ht), fun o' ho => ?_⟩
      · rw [hs, ← h.begun i]
        simp
      · simp only [addOp_prog, List.mem_append, List.mem_singleton] at ho
        rcases ho with ho | rfl
        · exact h.main o' ho
        · rfl
  | pushTrigger | popTrigger =>
    have hs := same (by simp)
    exact ⟨h.flags, fun i => (h.begun i).trans (and_congr_right fun _ => hs.symm),
      fun k hk ht => hs.2 (h.locked k hk ht), h.main⟩

theorem emitAll_concat (p : Parser) (es : List Event) (e : Event) :
    emitAll p (es ++ [e]) = emit (emitAll p es) e := by
  rw [emitAll, List.foldl_append]
  rfl

theorem coding_parseBegin (p : Parser) (inTrans : Nat → Bool) :
    Coding inTrans [] (parseBegin p inTrans) where
  flags _ := rfl
  begun i := by simp [parseBegin, Starts]
  locked k h := by simp [parseBegin] at h
  main o h := by simp [parseBegin] at h

theorem coding_emitAll (p : Parser) (inTrans : Nat → Bool) (es : List Event) :
    Coding inTrans es (emitAll (parseBegin p inTrans) es) := by
  induction es using List.reverseRecOn with
  | nil => exact coding_parseBegin p inTrans
  | append_singleton es e ih =>
    rw [emitAll_concat]
    exact ih.emit e

/-- An `OP_Transaction` has been emitted exactly when a call of `__vdbe_prepare_write`
named a database outside a transaction; it is one for the main database. -/
theorem mem_transaction_emitAll (p : Parser) (inTrans : Nat → Bool) (es : List Event) (i : Nat) :
    Op.transaction i ∈ (emitAll (parseBegin p inTrans) es).prog ↔ i = 0 ∧ Starts inTrans es :=
  (coding_emitAll p inTrans es).begun i

/-- Opcodes that write nothing begin nothing. -/
theorem begun_append {i : Nat} {prog ops : List Op} (h : ∀ o ∈ ops, o.writes = none) :
    Begun i (prog ++ ops) ↔ Begun i prog := by
  apply atEach_append
  intro pre o ho hw
  rw [h o ho] at hw
  cases hw

/-- Whether the program begins the databases in `D`, by the events it is coded from. -/
theorem begun_emitAll (p : Parser) (inTrans : Nat → Bool) (D : Nat → Prop) (es : List Event) :
    (∀ i, D i → Begun i (emitAll (parseBegin p inTrans) es).prog) ↔
      AtEach (fun pre e => ∀ o i, e = Event.addOp o → o.writes = some i → D i →
        i = 0 ∧ Starts inTrans pre) es := by
  induction es using List.reverseRecOn with
  | nil => simp [emitAll, parseBegin, Begun, atEach_nil]
  | append_singleton es e ih =>
    obtain ⟨ops, hops, ⟨o, rfl, rfl⟩ | ⟨hne, hq⟩⟩ := emit_prog (emitAll (parseBegin p inTrans) es) e
    · rw [emitAll_concat, hops, atEach_concat, ← ih]
      simp only [Begun, atEach_concat, mem_transaction_emitAll]
      constructor
      · intro h
        refine ⟨fun i hi => (h i hi).1, fun o' i ho hw hi => ?_⟩
        cases ho
        exact (h i hi).2 hw
      · rintro ⟨h, h'⟩ i hi
        exact ⟨h i hi, fun hw => h' o i rfl hw hi⟩
    · rw [emitAll_concat, hops, atEach_concat, ← ih]
      simp only [begun_append hq]
      exact (and_iff_left fun o i ho => absurd ho (hne o)).symm

theorem vdbeConcludeWrite_begun (p : Parser) (i : Nat) :
    Begun i (vdbeConcludeWrite p).prog ↔ Begun i p.prog := by
  rcases vdbeConcludeWrite_cases p with h | h
  · rw [h]
  · rw [h, addOp_prog]
    exact begun_append (by simp [Op.writes])

/-- **When a program begins what it writes.** -/
theorem begun_iff (p : Parser) (inTrans : Nat → Bool) (s : Stmt) :
    BeginsWhatItWrites (s, (code (parseBegin p inTrans) s).prog) ↔ WritesMainOnly inTrans s := by
  cases s with
  | write checkpoint idb body =>
    simp only [BeginsWhatItWrites, WritesMainOnly, code, vdbeConcludeWrite_begun]
    exact begun_emitAll p inTrans (fun i => i = idb ∨ i = 1) _
  | begin | commit | rollback => exact Iff.rfl

/-! ## Every sequence of statements -/

theorem vdbeConcludeWrite_main {p : Parser} (h : ∀ o ∈ p.prog, o.Main) :
    ∀ o ∈ (vdbeConcludeWrite p).prog, o.Main := by
  rcases vdbeConcludeWrite_cases p with hc | hc
  · rwa [hc]
  · intro o ho
    simp only [hc, addOp_prog, List.mem_append, List.mem_singleton] at ho
    rcases ho with ho | rfl
    · exact h o ho
    · rfl

/-- No statement begins or ends a transaction of another database than the main one. -/
theorem code_main (p : Parser) (inTrans : Nat → Bool) (s : Stmt) :
    ∀ o ∈ (code (parseBegin p inTrans) s).prog, o.Main := by
  have hnil : ∀ o ∈ (parseBegin p inTrans).prog, o.Main := by simp [parseBegin]
  cases s with
  | write checkpoint idb body => exact vdbeConcludeWrite_main (coding_emitAll p inTrans _).main
  | begin onError denied =>
    rw [code, dbsqlTxnBegin]
    split
    · exact hnil
    · split
      · exact hnil
      · split
        · exact hnil
        · exact ((coding_parseBegin p inTrans).emit (.prepareWrite false 0)).main
  | commit denied =>
    rw [code, dbsqlTxnCommit]
    split
    · exact hnil
    · split
      · exact hnil
      · split
        · exact hnil
        · exact vdbeConcludeWrite_main hnil
  | rollback denied =>
    rw [code, dbsqlTxnAbort]
    split
    · exact hnil
    · split
      · exact hnil
      · split
        · exact hnil
        · simp [parseBegin, Op.Main]

theorem programs_main (ss : List ((Nat → Bool) × Stmt)) (p : Parser) :
    ∀ e ∈ programs p ss, ∀ o ∈ e.2, o.Main := by
  induction ss generalizing p with
  | nil => simp [programs]
  | cons s ss ih =>
    intro e he
    simp only [programs, List.mem_cons] at he
    rcases he with rfl | he
    · exact code_main p s.1 s.2
    · exact ih _ e he

/-- The commit and the rollback end what was begun: both are about the main database. -/
theorem programs_ends (p : Parser) (ss : List ((Nat → Bool) × Stmt)) :
    EndsWhatWasBegun (programs p ss) := by
  intro e he e' he' i hi o ho hends
  have hi0 : i = 0 := programs_main ss p e he _ hi
  have ho0 := programs_main ss p e' he' o ho
  subst hi0
  cases o with
  | commit p1 | rollback p1 => exact congrArg some ho0
  | _ => cases hends

theorem programs_begun (ss : List ((Nat → Bool) × Stmt)) (p : Parser) :
    (∀ e ∈ programs p ss, BeginsWhatItWrites e) ↔ ∀ s ∈ ss, WritesMainOnly s.1 s.2 := by
  induction ss generalizing p with
  | nil => simp [programs]
  | cons s ss ih => simp only [programs, List.forall_mem_cons, ih, begun_iff]

/-- **When the programs of a connection begin what they write and end what they began**,
for every sequence of statements and whatever `inTrans` flags each of them finds. -/
theorem session_begins_and_ends_iff (p : Parser) (ss : List ((Nat → Bool) × Stmt)) :
    (∀ e ∈ programs p ss, BeginsWhatItWrites e) ∧ EndsWhatWasBegun (programs p ss) ↔
      ∀ s ∈ ss, WritesMainOnly s.1 s.2 := by
  rw [programs_begun]
  exact and_iff_left (programs_ends p ss)

/-- A connection that has begun nothing. -/
def fresh : Parser where
  aDb _ := ⟨0, false, false, false⟩
  flagInTrans := false
  onError := .default
  nErr := 0
  trigStack := 0
  prog := []

/-- An insertion into a table of the attached database 2: `OP_Transaction 0 0` comes before
the write, and no opcode begins database 2. -/
theorem session_begins_and_ends_fails :
    ¬ ((∀ e ∈ programs fresh [(fun _ => false, .write false 2 [.addOp (.openWrite 2 0 3)])],
        BeginsWhatItWrites e) ∧
      EndsWhatWasBegun
        (programs fresh [(fun _ => false, .write false 2 [.addOp (.openWrite 2 0 3)])])) := by
  rintro ⟨hb, -⟩
  have h : WritesMainOnly (fun _ => false) (.write false 2 [.addOp (.openWrite 2 0 3)]) :=
    (programs_begun _ _).1 hb _ (.head _)
  obtain ⟨h0, -⟩ := h [.prepareWrite false 2] _ [] rfl _ _ rfl rfl (.inl rfl)
  cases h0

end Dbsql.L5.WriteTxn
