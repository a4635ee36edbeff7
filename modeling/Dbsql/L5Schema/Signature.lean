import Dbsql.Core.Lts
import Dbsql.L5Codegen.WriteTxn
import Mathlib.Algebra.Order.Ring.Int
/-!
# The schema signature (cg_build.c, cg_trigger.c, cg_attach.c, api.c, vdbe.c, vdbe_method.c)

The main database stores a signature beside its schema table. A handle has two copies:
`schema_sig`, the value it has read, and `next_sig`, the value its open transaction is to
store. A statement that changes the schema draws a new `next_sig` while it is compiled, and
only when the two copies are equal; its program stores it.

**The machine.** One handle, its SQL statements and its prepared programs. A statement is
compiled as a sequence of calls into the code generator (`Event`), of which an error leaves
a prefix; its program runs opcode by opcode, and every opcode may fail. The temporary and
the attached databases are present only as flags: `OP_Transaction`, `OP_Commit` and
`OP_Rollback` name the main database.

**Storage.** `disk` is what is committed and `txn` what the open transaction sees. Without
an open transaction a write is committed at once.
-/
namespace Dbsql.L5.Signature
open Dbsql.Core Dbsql.L1
open Dbsql.L5.WriteTxn (Parser GenDb vdbePrepareWrite codeVerifySchema vdbeConcludeWrite dbsqlTxnBegin
  dbsqlTxnCommit dbsqlTxnAbort parseBegin)

/-- A number in C's `int`. -/
def int32 (x : Int) : Int := (x + 2 ^ 31) % 2 ^ 32 - 2 ^ 31

/-- What the programs write to the schema table: one row, or the deletion of the rows that a
DROP statement looks for. -/
inductive MasterWrite
  | put (type name tblName : String)
  | deleteTable (tblName : String)
  | deleteIndex (name : String)
  | deleteTrigger (name : String)
  deriving DecidableEq, Repr

/-- The schema table of the main database, as the writes that led to it, and its signature. -/
structure Stored where
  rows : List MasterWrite
  sig : Int
  deriving DecidableEq, Repr

/-- The opcodes, as far as they concern the schema table of the main database. `other` is any
stretch of opcodes that touch neither the table, nor the signature, nor a transaction. -/
inductive Op
  | transaction
  | checkpoint
  | commit
  | rollback
  | verifySchemaSignature (p1 : Nat) (p2 : Int)
  | master (w : MasterWrite)
  | setSchemaSignature (sig : Int)
  | other
  deriving DecidableEq, Repr

/-- The opcodes of `__vdbe_prepare_write`, `__code_verify_schema` and `__vdbe_conclude_write`. -/
def ofGen : WriteTxn.Op → Op
  | .transaction _ => .transaction
  | .checkpoint _ => .checkpoint
  | .commit _ => .commit
  | .rollback _ => .rollback
  | .verifySchemaSignature p1 p2 => .verifySchemaSignature p1 p2
  | .body _ => .other

/-- `DBSQL` and the main database's storage manager. `schemaLoaded` is `DBSQL_SCHEMA_LOADED` of the
main database. The last two fields are not in the source: `readSig` is the signature that was
stored when the handle last read or changed the schema, `draws` counts the drawn signatures. -/
structure Handle where
  disk : Stored
  txn : Option Stored
  aDb : Nat → GenDb
  flagInTrans : Bool
  onError : Oe
  initialized : Bool
  internChanges : Bool
  schemaLoaded : Bool
  nextSig : Int
  readSig : Int
  draws : Nat

namespace Handle

/-- `aDb[0].schema_sig`. -/
def schemaSig (h : Handle) : Int := (h.aDb 0).schemaSig

/-- `aDb[0].inTrans`. -/
def inTrans (h : Handle) : Bool := (h.aDb 0).inTrans

/-- What the handle sees of the main database. -/
def view (h : Handle) : Stored := h.txn.getD h.disk

def setSchemaSig (h : Handle) (sig : Int) : Handle :=
  { h with aDb := fun j => if j = 0 then { h.aDb 0 with schemaSig := sig } else h.aDb j }

def setInTrans (h : Handle) (b : Bool) : Handle :=
  { h with aDb := fun j => if j = 0 then { h.aDb 0 with inTrans := b } else h.aDb j }

/-- The contents `d` of the main database are committed. -/
def settle (h : Handle) (d : Stored) : Handle :=
  { h with disk := d, readSig := if d.rows = h.disk.rows then h.readSig else d.sig }

/-- A write of the main database. -/
def write (h : Handle) (f : Stored → Stored) : Handle :=
  match h.txn with
  | some w => { h with txn := some (f w) }
  | none => h.settle (f h.disk)

/-- `__sm_begin_txn`, with `inTrans`. -/
def beginTxn (h : Handle) : Handle := { h.setInTrans true with txn := some h.disk }

/-- `__sm_commit_txn`, with `inTrans`. -/
def commitTxn (h : Handle) : Handle := { (h.settle h.view).setInTrans false with txn := none }

/-- `__sm_abort_txn`. -/
def abortTxn (h : Handle) : Handle := { h with txn := none }

/-! ## The hash tables and the signature -/

/-- `__reset_internal_schema` (cg_build.c:338-396). -/
def resetInternalSchema (h : Handle) (idb : Nat) : Handle :=
  if 0 < idb then { h with initialized := false }
  else { h with initialized := false, internChanges := false, schemaLoaded := false }

/-- `__rollback_internal_changes` (cg_build.c:406-413). -/
def rollbackInternalChanges (h : Handle) : Handle :=
  if h.internChanges then h.resetInternalSchema 0 else h

/-- `__commit_internal_changes` (cg_build.c:421-427). -/
def commitInternalChanges (h : Handle) : Handle :=
  { h.setSchemaSig h.nextSig with internChanges := false }

/-- Which parts of `__init_databases` succeed: the read of the signature, of the schema of the main
database, and of the schemas of the attached ones. -/
structure InitEnv where
  sig : Bool
  main : Bool
  attached : Bool
  deriving DecidableEq, Repr

/-- The read of the signature in `__init_db_file`, which drops the code of `__sm_get_schema_sig`;
the entry of the schema table itself sets `DBSQL_InternChanges`. -/
def readSignature (h : Handle) (ok : Bool) : Handle :=
  let sig := if ok then h.view.sig else h.schemaSig
  { h.setSchemaSig sig with nextSig := sig, readSig := h.view.sig, internChanges := true }

/-- `__init_db_file` (api.c:130-293) of the main database, and whether it succeeds. -/
def initDbFile (h : Handle) (env : InitEnv) : Handle × Bool :=
  let h := h.readSignature env.sig
  if env.main then ({ h with schemaLoaded := true }, true) else (h.resetInternalSchema 0, false)

/-- `__init_databases` after the main database. -/
def initAttached (h : Handle) (env : InitEnv) : Handle × Bool :=
  if env.attached then ({ h with initialized := true }.commitInternalChanges, true)
  else ({ h with internChanges := true, initialized := false }, false)

/-- `__init_databases` (api.c:311-334), and whether it succeeds. -/
def initDatabases (h : Handle) (env : InitEnv) : Handle × Bool :=
  if h.schemaLoaded then h.initAttached env
  else
    let r := h.initDbFile env
    if r.2 then r.1.initAttached env else ({ r.1 with initialized := false }, false)

/-- `__attach` (cg_attach.c:45-127): whether the file opens, and what `__init_databases` does. -/
def attach (h : Handle) (opens : Bool) (env : InitEnv) : Handle :=
  let h := { h with initialized := false }
  if !opens then h
  else
    let r := h.initDatabases env
    if r.2 then r.1 else r.1.resetInternalSchema 0

/-- `__detach` (cg_attach.c:138-183) of an attached database. -/
def detach (h : Handle) : Handle := h.resetInternalSchema 2

end Handle

/-! ## The code generator -/

/-- `parser_t` while one statement is compiled. -/
structure Code where
  h : Handle
  explain : Bool
  nErr : Nat
  trigStack : Nat
  ops : List Op

/-- A call of a generator of `WriteTxn`. -/
def Code.gen (c : Code) (f : Parser → Parser) : Code :=
  let p := f ⟨c.h.aDb, c.h.flagInTrans, c.h.onError, c.nErr, c.trigStack, []⟩
  { c with
    h := { c.h with aDb := p.aDb, flagInTrans := p.flagInTrans, onError := p.onError }
    nErr := p.nErr
    trigStack := p.trigStack
    ops := c.ops ++ p.prog.map ofGen }

/-- `__change_schema_signature` (cg_build.c:1048-1066); `n` is what `rand8_r` draws. -/
def Code.changeSchemaSignature (c : Code) (n : Fin 256) : Code :=
  if c.h.nextSig = c.h.schemaSig then
    let sig := int32 (c.h.schemaSig + n + 1)
    { c with
      h := { c.h with nextSig := sig, internChanges := true, draws := c.h.draws + 1 }
      ops := c.ops ++ [.other, .setSchemaSignature sig] }
  else c

/-- One call while a statement is compiled. -/
inductive Event
  | prepareWrite (checkpoint : Bool) (idb : Nat)
  | verifySchema (idb : Nat)
  | concludeWrite
  | pushTrigger
  | popTrigger
  | begin (onError : Oe) (denied : Bool)
  | commit (denied : Bool)
  | rollback (denied : Bool)
  | other
  | master (w : MasterWrite)
  | changeSchemaSignature
  /-- `dbp->flags |= DBSQL_InternChanges`, unless the statement is an EXPLAIN -/
  | internChanges
  deriving DecidableEq, Repr

def emit (n : Fin 256) (c : Code) : Event → Code
  | .prepareWrite checkpoint idb => c.gen (vdbePrepareWrite · checkpoint idb)
  | .verifySchema idb => c.gen (codeVerifySchema · idb)
  | .concludeWrite => c.gen vdbeConcludeWrite
  | .pushTrigger => { c with trigStack := c.trigStack + 1 }
  | .popTrigger => { c with trigStack := c.trigStack - 1 }
  | .begin onError denied => c.gen (dbsqlTxnBegin · onError denied)
  | .commit denied => c.gen (dbsqlTxnCommit · denied)
  | .rollback denied => c.gen (dbsqlTxnAbort · denied)
  | .other => { c with ops := c.ops ++ [.other] }
  | .master w => { c with ops := c.ops ++ [.master w] }
  | .changeSchemaSignature => c.changeSchemaSignature n
  | .internChanges => if c.explain then c else { c with h := { c.h with internChanges := true } }

def emitAll (n : Fin 256) (c : Code) (es : List Event) : Code := es.foldl (emit n) c

/-- A write to the schema table of database `iDb`. -/
def masterWrite (iDb : Nat) (w : MasterWrite) : List Event := if iDb = 0 then [.master w] else [.other]

/-- The call of `__change_schema_signature` in the statements that change the schema of `iDb`. -/
def changeSignature (iDb : Nat) : List Event := if iDb = 0 then [.changeSchemaSignature] else []

/-- `__start_table` (cg_build.c:590-732), the automatic indices that `__create_index` adds
(cg_build.c:2206-2234) and `__ending_create_table_paren` (cg_build.c:1203-1327). -/
def createTable (name : String) (view : Bool) (autoIndices : List String) (iDb : Nat) : List Event :=
  [.prepareWrite false iDb, .other] ++ masterWrite iDb (.put "" "" "") ++
  autoIndices.flatMap (fun idx => .internChanges :: masterWrite iDb (.put "index" idx name)) ++
  masterWrite iDb (.put (if view then "view" else "table") name name) ++ changeSignature iDb ++
  [.other, .concludeWrite, .internChanges]

/-- `__drop_table` (cg_build.c:1588-1727). -/
def dropTable (name : String) (iDb : Nat) : List Event :=
  [.prepareWrite false iDb] ++ masterWrite iDb (.deleteTable name) ++ [.other] ++ changeSignature iDb ++
  [.other, .concludeWrite, .internChanges]

/-- `__create_index` (cg_build.c:1943-2276) for a CREATE INDEX statement. -/
def createIndex (name tblName : String) (iDb : Nat) : List Event :=
  [.internChanges, .prepareWrite false iDb, .other] ++ masterWrite iDb (.put "index" name tblName) ++
  [.other] ++ changeSignature iDb ++ [.other, .concludeWrite]

/-- `__drop_index` (cg_build.c:2285-2373). -/
def dropIndex (name : String) (iDb : Nat) : List Event :=
  [.prepareWrite false iDb, .other] ++ masterWrite iDb (.deleteIndex name) ++ changeSignature iDb ++
  [.other, .concludeWrite, .internChanges]

/-- `__finish_trigger` (cg_trigger.c:223-303). -/
def createTrigger (name tblName : String) (iDb : Nat) : List Event :=
  [.prepareWrite false 0, .other] ++ masterWrite iDb (.put "trigger" name tblName) ++
  changeSignature iDb ++ [.other, .concludeWrite]

/-- `__drop_trigger_ptr` (cg_trigger.c:569-657). -/
def dropTrigger (name : String) (iDb : Nat) : List Event :=
  [.prepareWrite false 0, .other] ++ masterWrite iDb (.deleteTrigger name) ++ changeSignature iDb ++
  [.other, .concludeWrite]

/-- The calls that a statement makes which changes no schema of the main database. -/
def Event.Plain : Event → Prop
  | .master _ | .changeSchemaSignature => False
  | _ => True

inductive Stmt
  | createTable (name : String) (view : Bool) (autoIndices : List String) (iDb : Nat)
  | dropTable (name : String) (iDb : Nat)
  | createIndex (name tblName : String) (iDb : Nat)
  | dropIndex (name : String) (iDb : Nat)
  | createTrigger (name tblName : String) (iDb : Nat)
  | dropTrigger (name : String) (iDb : Nat)
  | begin (onError : Oe) (denied : Bool)
  | commit (denied : Bool)
  | rollback (denied : Bool)
  /-- any other statement -/
  | other (es : List Event) (plain : ∀ e ∈ es, e.Plain)

def Stmt.events : Stmt → List Event
  | .createTable name view autoIndices iDb => Signature.createTable name view autoIndices iDb
  | .dropTable name iDb => Signature.dropTable name iDb
  | .createIndex name tblName iDb => Signature.createIndex name tblName iDb
  | .dropIndex name iDb => Signature.dropIndex name iDb
  | .createTrigger name tblName iDb => Signature.createTrigger name tblName iDb
  | .dropTrigger name iDb => Signature.dropTrigger name iDb
  | .begin onError denied => [.begin onError denied]
  | .commit denied => [.commit denied]
  | .rollback denied => [.rollback denied]
  | .other es _ => es

/-- `__parse_begin` (cg_build.c:55-77) after `__init_databases`, and the events. -/
def compile (h : Handle) (explain : Bool) (n : Fin 256) (es : List Event) : Code :=
  let p := parseBegin ⟨h.aDb, h.flagInTrans, h.onError, 0, 0, []⟩ (fun i => (h.aDb i).inTrans)
  emitAll n ⟨{ h with aDb := p.aDb }, explain, 0, 0, []⟩ es

/-! ## Programs -/

def Op.isMaster : Op → Bool
  | .master _ => true
  | _ => false

def Op.isSet : Op → Bool
  | .setSchemaSignature _ => true
  | _ => false

/-- The opcodes that end a transaction. -/
def Op.ends : Op → Bool
  | .commit | .rollback => true
  | _ => false

/-- `OP_VerifySchemaSignature` (vdbe.c:2446-2459) for the stored signature `sig`. -/
def verifySchemaSignature (sig p2 : Int) : Rc := if sig ≠ p2 then .schema else .success

/-- One opcode that succeeds: `OP_Transaction` (vdbe.c:2338-2347), `OP_Commit` (vdbe.c:2355-2378),
`OP_Rollback` (vdbe.c:2390-2399), `OP_SetSchemaSignature` (vdbe.c:2423-2430). -/
def execOp (h : Handle) : Op → Handle
  | .transaction => if h.inTrans then h else h.beginTxn
  | .commit => (if h.inTrans then h.commitTxn else h).commitInternalChanges
  | .rollback => if h.inTrans then h.abortTxn.rollbackInternalChanges else h
  | .master w => h.write fun d => { d with rows := d.rows ++ [w] }
  | .setSchemaSignature sig => h.write fun d => { d with sig := sig }
  | .checkpoint | .verifySchemaSignature .. | .other => h

/-- How an opcode fails: a deletion may have deleted some rows, a commit may be refused by the
commit hook (else it is misused), the code may be `DBSQL_SCHEMA`; `onError` is `errorAction`. -/
structure Failure where
  wrote : Bool
  veto : Bool
  schema : Bool
  onError : Oe
  deriving DecidableEq, Repr

/-- One opcode that fails, where it can. A storage commit overwrites the code of the hook. -/
def failOp (h : Handle) (f : Failure) : Op → Option Handle
  | .transaction => if h.inTrans then none else some (h.setInTrans true)
  | .commit =>
    if !f.veto then some h
    else if h.inTrans then none
    else some h.abortTxn.rollbackInternalChanges
  | .rollback => none
  | .master w => some (if f.wrote then execOp h (.master w) else h)
  | .checkpoint | .verifySchemaSignature .. | .setSchemaSignature _ | .other => some h

/-- `__vdbe_reset` (vdbe_method.c:1144-1209) of a program that has failed. -/
def Handle.vdbeReset (h : Handle) (undoTransOnError : Bool) (errorAction : Oe) : Handle :=
  let h := if errorAction = .abort ∨ errorAction = .rollback ∨ undoTransOnError then
    { h with flagInTrans := false, onError := .default } else h
  h.rollbackInternalChanges

/-- A program that runs: what has been executed and what is to come. `exec` tells a program of
`__api_exec` from one that is stepped. -/
structure Vm where
  done : List Op
  rest : List Op
  undoTransOnError : Bool
  exec : Bool

structure State where
  h : Handle
  vm : Option Vm
  /-- the programs of the prepared statements -/
  prepared : List (List Op)

/-- What becomes of a statement that is compiled. -/
inductive Ending
  /-- its program runs at once, by `__api_exec` or by the steps after `__api_prepare` -/
  | run (exec : Bool)
  /-- an EXPLAIN that `__parse_exec` lists; its callback may stop it -/
  | list (aborted : Bool)
  /-- it is only prepared -/
  | keep (explain : Bool)
  /-- an error or the lack of memory after `k` calls -/
  | failed (explain : Bool) (k : Nat) (noMem : Bool)

/-- `__parse_exec` (cg_build.c:113-162) and the end of `__process_sql` (api.c:615-640), after
`es` has been compiled. -/
def State.compiled (s : State) (n : Fin 256) (es : List Event) : Ending → State
  | .run exec =>
    let c := compile s.h false n es
    { s with h := c.h, vm := if c.nErr = 0 then some ⟨[], c.ops, false, exec⟩ else none }
  | .list aborted =>
    let c := compile s.h true n es
    let h := { c.h with nextSig := c.h.schemaSig }
    { s with h := if c.nErr ≠ 0 then c.h else if aborted then h.vdbeReset false .abort else h }
  | .keep explain =>
    let c := compile s.h explain n es
    { s with h := c.h, prepared := if c.nErr = 0 ∧ !explain then c.ops :: s.prepared else s.prepared }
  | .failed explain k noMem =>
    let c := compile s.h explain n (es.take k)
    { s with h := if noMem then { c.h.resetInternalSchema 0 with flagInTrans := false } else c.h }

/-- Whether `OP_VerifySchemaSignature` refuses the program. -/
def Handle.refuses (h : Handle) : Op → Bool
  | .verifySchemaSignature 0 p2 => decide (verifySchemaSignature h.view.sig p2 ≠ .success)
  | _ => false

/-- Whether the opcode sets `undoTransOnError`. -/
def Handle.begins (h : Handle) (o : Op) : Bool := decide (o = .transaction) && !h.inTrans

def State.execOp (s : State) : Option State :=
  match s.vm with
  | some ⟨done, o :: rest, undo, exec⟩ =>
    if s.h.refuses o then none
    else some { s with
      h := Signature.execOp s.h o
      vm := some ⟨done ++ [o], rest, undo || s.h.begins o, exec⟩ }
  | _ => none

def State.failOp (s : State) (f : Failure) : Option State :=
  match s.vm with
  | some ⟨_, o :: _, undo, exec⟩ =>
    (Signature.failOp s.h f o).map fun h =>
      let h := h.vdbeReset (undo || s.h.begins o) f.onError
      { s with h := if exec && f.schema then h.resetInternalSchema 0 else h, vm := none }
  | _ => none

inductive Label
  /-- `__init_databases` before a statement -/
  | init (env : Handle.InitEnv)
  | compile (stmt : Stmt) (n : Fin 256) (ending : Ending)
  /-- a prepared program starts -/
  | start (prog : List Op)
  | op
  | fail (f : Failure)
  | finish
  /-- a program that returns rows is left before its end -/
  | leave
  | attach (opens : Bool) (env : Handle.InitEnv)
  | detach

def next (s : State) : Label → Option State
  | .init env => if s.vm.isNone ∧ !s.h.initialized then some { s with h := (s.h.initDatabases env).1 } else none
  | .compile stmt n ending =>
    if s.vm.isNone ∧ s.h.initialized then some (s.compiled n stmt.events ending) else none
  | .start prog =>
    if s.vm.isNone ∧ prog ∈ s.prepared then some { s with vm := some ⟨[], prog, false, false⟩ } else none
  | .op => s.execOp
  | .fail f => s.failOp f
  | .finish =>
    match s.vm with
    | some ⟨_, [], _, _⟩ => some { s with vm := none }
    | _ => none
  | .leave =>
    match s.vm with
    | some vm => if (vm.done ++ vm.rest).all (fun o => !o.isMaster && !o.isSet) then some { s with vm := none } else none
    | none => none
  | .attach opens env =>
    if s.vm.isNone ∧ s.h.initialized then some { s with h := s.h.attach opens env } else none
  | .detach => if s.vm.isNone ∧ s.h.initialized then some { s with h := s.h.detach } else none

/-- A handle whose `__init_databases` has read the schema. -/
structure Start (s : State) : Prop where
  txn : s.h.txn = none
  inTrans : s.h.inTrans = false
  schemaSig : s.h.schemaSig = s.h.disk.sig
  nextSig : s.h.nextSig = s.h.disk.sig
  readSig : s.h.readSig = s.h.disk.sig
  int : int32 s.h.disk.sig = s.h.disk.sig
  loaded : s.h.initialized = true → s.h.schemaLoaded = true
  draws : s.h.draws = 0
  vm : s.vm = none
  prepared : s.prepared = []

/-- Every sequence of statements on one handle. -/
def machine : LTS State Label where
  init := Start
  step s l s' := next s l = some s'

/-! ## What is promised -/

/-- The transaction that commits a change of the schema table commits another signature. -/
def CommitsSignature (s s' : State) : Prop :=
  s'.h.disk.rows ≠ s.h.disk.rows → s'.h.disk.sig ≠ s.h.disk.sig

/-- Outside a transaction the handle has the signature that was stored when it last read or
changed the schema. -/
def KnowsSignature (s : State) : Prop := s.h.txn = none → s.h.schemaSig = s.h.readSig

/-- Another handle that has read the schema in `s` is refused in `s'` exactly when the schema has
changed in between. -/
def RefusesOthers (s s' : State) : Prop :=
  verifySchemaSignature s'.h.disk.sig s.h.disk.sig = .schema ↔ s'.h.disk.rows ≠ s.h.disk.rows

/-- The statement is the first of its transaction to draw a signature. -/
def Advances (h : Handle) (es : List Event) : Prop :=
  h.nextSig = h.schemaSig ∧ Event.changeSchemaSignature ∈ es

/-- `__init_databases` reads the signature, or finds none announced. -/
def InitProper (h : Handle) (env : Handle.InitEnv) : Prop :=
  if h.schemaLoaded then h.nextSig = h.schemaSig else env.sig = true ∨ h.schemaSig = h.view.sig

/-- An opcode that is about to run. A schema statement runs in a transaction (ROLLBACK leaves
`inTrans` set), and a commit finds no announced signature that has been rolled back. -/
def OpProper (h : Handle) (o : Op) : Prop :=
  ((o.isMaster || o.isSet) = true → h.txn.isSome = true) ∧
  (o = .commit → h.schemaLoaded = true ∨ h.nextSig = h.schemaSig ∨ h.nextSig = h.view.sig)

/-- An opcode that is about to fail: either the schema table has not been written or the signature
has been stored. -/
def FailProper (h : Handle) (f : Failure) (done : List Op) (o : Op) (rest : List Op) : Prop :=
  ((o.isMaster && f.wrote) = true → h.txn.isSome = true) ∧
  ((done.any Op.isMaster || (o.isMaster && f.wrote)) = true → (o :: rest).any Op.isSet = false)

/-- A statement that draws a signature stores it: it is not an EXPLAIN after another draw, and it
neither fails while it is compiled nor is it only prepared. -/
def CompileProper (h : Handle) (es : List Event) (ending : Ending) : Prop :=
  (Advances h es → h.draws + 1 < 2 ^ 24) ∧
  match ending with
  | .run _ => True
  | .list _ => h.nextSig = h.schemaSig
  | .keep _ => ¬ Advances h es
  | .failed _ k noMem => Advances h (es.take k) → noMem = true

/-- The opcode that comes next succeeds. -/
def NextProper (h : Handle) : Option Vm → Prop
  | some ⟨_, o :: _, _, _⟩ => OpProper h o
  | _ => True

/-- The opcode that comes next fails. -/
def NextFailProper (h : Handle) (f : Failure) : Option Vm → Prop
  | some ⟨done, o :: rest, _, _⟩ => FailProper h f done o rest
  | _ => True

/-- The steps that do not run into a defect. -/
def Proper (s : State) : Label → Prop
  | .init env => InitProper s.h env
  | .attach opens env => opens = true → InitProper s.h env
  | .compile stmt _ ending => CompileProper s.h stmt.events ending
  -- a prepared schema statement that stores no signature
  | .start prog => prog.any Op.isMaster = true → s.h.view.sig ≠ s.h.disk.sig
  | .op => NextProper s.h s.vm
  | .fail f => NextFailProper s.h f s.vm
  | .finish | .leave | .detach => True

section
variable (h : Handle)

instance (es : List Event) : Decidable (Advances h es) := inferInstanceAs (Decidable (_ ∧ _))
instance (env : Handle.InitEnv) : Decidable (InitProper h env) := inferInstanceAs (Decidable (ite _ _ _))
instance (o : Op) : Decidable (OpProper h o) := inferInstanceAs (Decidable (_ ∧ _))
instance (f : Failure) (done : List Op) (o : Op) (rest : List Op) : Decidable (FailProper h f done o rest) :=
  inferInstanceAs (Decidable (_ ∧ _))

instance (es : List Event) : ∀ ending, Decidable (CompileProper h es ending)
  | .run _ => inferInstanceAs (Decidable (_ ∧ True))
  | .list _ => inferInstanceAs (Decidable (_ ∧ h.nextSig = h.schemaSig))
  | .keep _ => inferInstanceAs (Decidable (_ ∧ ¬ Advances h es))
  | .failed _ k noMem => inferInstanceAs (Decidable (_ ∧ (Advances h (es.take k) → noMem = true)))

instance : ∀ vm, Decidable (NextProper h vm)
  | some ⟨_, o :: _, _, _⟩ => inferInstanceAs (Decidable (OpProper h o))
  | some ⟨_, [], _, _⟩ => isTrue trivial
  | none => isTrue trivial

instance (f : Failure) : ∀ vm, Decidable (NextFailProper h f vm)
  | some ⟨done, o :: rest, _, _⟩ => inferInstanceAs (Decidable (FailProper h f done o rest))
  | some ⟨_, [], _, _⟩ => isTrue trivial
  | none => isTrue trivial

end

instance (s : State) : ∀ l, Decidable (Proper s l)
  | .init env => inferInstanceAs (Decidable (InitProper s.h env))
  | .attach opens env => inferInstanceAs (Decidable (opens = true → InitProper s.h env))
  | .compile stmt _ ending => inferInstanceAs (Decidable (CompileProper s.h stmt.events ending))
  | .start prog => inferInstanceAs (Decidable (prog.any Op.isMaster = true → s.h.view.sig ≠ s.h.disk.sig))
  | .op => inferInstanceAs (Decidable (NextProper s.h s.vm))
  | .fail f => inferInstanceAs (Decidable (NextFailProper s.h f s.vm))
  | .finish | .leave | .detach => isTrue trivial

end Dbsql.L5.Signature
