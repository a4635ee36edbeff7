import Dbsql.Core.Lts
import Dbsql.Core.WriteLog
import Dbsql.L1Encoding.Codes
import Dbsql.L1Encoding.Memcmp
/-!
# Transactions of the virtual machine (vdbe.c, vdbe_method.c, sm.c, cg_build.c)

The opcodes that begin, end and fail a transaction, the opcodes that write, and
`__vdbe_reset`, over the storage managers of a connection.

**Storage managers.** `aDb[i].pBt` is a pointer: `DBSQL.sm` maps it to the storage
manager. The contents of its btrees are a write log (`Core.WriteLog`) whose entries
carry the transaction that may still take them back: none, `sm->txn`, or the child
transaction of one cursor. Committing a transaction passes its writes to its
parent; aborting it drops them. Berkeley DB's locks keep two open transactions from
writing one page, so dropping a child's writes does not touch those of others.

**What the environment decides** is an argument: the code `txn_begin` returns, whether
a cursor could be opened, and whether `c_close` reports `DB_LOCK_DEADLOCK`.

**Null storage managers.** An opcode that dereferences a null `pBt`, or an index
outside `aDb`, has no successor state.
-/
namespace Dbsql.L4
open Dbsql.Core Dbsql.L1

/-- A location in the storage: the btree's id and the key. -/
abbrev Loc := Nat × Dbt

inductive Owner
  | perm
  | txn
  | child (n : Nat) (nested : Bool)
  deriving DecidableEq, Repr

/-- Whether a write belongs to the open transaction, itself or through a child. -/
def Owner.inTxn : Owner → Bool
  | .txn => true
  | .child _ nested => nested
  | .perm => false

/-- Who owns a write once the open transaction has committed. -/
def Owner.commit (o : Owner) : Owner := if o.inTxn then .perm else o

/-- `sm_t`. `txn` says whether `sm->txn` is set; `nextTxn` numbers child transactions. -/
structure Sm where
  base : Loc → Option Bytes
  log : WriteLog Owner Loc (Option Bytes)
  txn : Bool
  nextTxn : Nat

/-- The contents of every btree, as the next statement reads them. -/
def Sm.contents (sm : Sm) : Loc → Option Bytes := WriteLog.contents sm.base sm.log

/-- The contents that no transaction can take back any more. -/
def Sm.durable (sm : Sm) : Loc → Option Bytes :=
  WriteLog.contents sm.base (sm.log.keep (fun o => decide (o = .perm)))

/-- `__sm_checkpoint` (sm.c:420-428). -/
def smCheckpoint (sm : Sm) : Sm × Rc := (sm, .success)

/-- `__sm_begin_txn` (sm.c:449-455); `ret` is what `txn_begin` returns. -/
def smBeginTxn (sm : Sm) (ret : Int) : Sm × Rc :=
  ({ sm with txn := if ret = 0 then true else sm.txn }, if ret = 0 then .success else .bdb ret)

/-- `__sm_commit_txn` (sm.c:466-475). The commit resolves open children. -/
def smCommitTxn (sm : Sm) : Sm × Rc :=
  let log := if sm.txn then sm.log.reown Owner.commit else sm.log
  ({ sm with log := log, txn := false }, .success)

/-- `__sm_abort_txn` (sm.c:486-495). -/
def smAbortTxn (sm : Sm) : Sm × Rc :=
  let log := if sm.txn then sm.log.keep (fun o => !o.inTxn) else sm.log
  ({ sm with log := log, txn := false }, .success)

/-- `sm_cursor_t`: its storage manager, its btree, and its child transaction. -/
structure Csr where
  sm : Nat
  id : Nat
  txn : Nat
  nested : Bool
  deriving DecidableEq, Repr

def Csr.owner (smc : Csr) : Owner := .child smc.txn smc.nested

/-- Who owns a write once the child transaction of the cursor has committed. -/
def Csr.commit (smc : Csr) (o : Owner) : Owner :=
  if o = smc.owner then (if smc.nested then .txn else .perm) else o

/-- `__sm_cursor` (sm.c:507-548) where every call succeeds. -/
def smCursor (sm : Sm) (p id : Nat) : Sm × Csr :=
  ({ sm with nextTxn := sm.nextTxn + 1 }, ⟨p, id, sm.nextTxn, sm.txn⟩)

/-- `__sm_close_cursor` (sm.c:559-577): the child transaction is aborted only when
`c_close` reports a deadlock. -/
def smCloseCursor (sm : Sm) (smc : Csr) (deadlock : Bool) : Sm × Rc :=
  if deadlock then ({ sm with log := sm.log.keep (fun o => decide (o ≠ smc.owner)) }, .internal)
  else ({ sm with log := sm.log.reown smc.commit }, .success)

/-- `DB->put` and `DBC->c_del` of one entry, in the transaction of the cursor. -/
def smWrite (sm : Sm) (smc : Csr) (key : Dbt) (value : Option Bytes) : Sm :=
  { sm with log := sm.log ++ [(smc.owner, ⟨fun l => decide (l = (smc.id, key)), value⟩)] }

/-- `__sm_clear_table` (sm.c:1172-1191): a truncate in `sm->txn` itself. -/
def smClearTable (sm : Sm) (id : Nat) : Sm × Rc :=
  let owner : Owner := if sm.txn then .txn else .perm
  ({ sm with log := sm.log ++ [(owner, ⟨fun l => decide (l.1 = id), none⟩)] }, .success)

/-! ## Connections -/

/-- `dbsql_db_t`: of the hash tables, the names they hold. -/
structure DbT where
  zName : String
  pBt : Option Nat
  schemaSig : Int
  tblHash : List String
  idxHash : List String
  trigHash : List String
  aFKey : List String
  inTrans : Bool
  schemaLoaded : Bool
  deriving DecidableEq, Repr

/-- `DBSQL_STATUS_*`. -/
inductive Status | opened | busy | error | closed
  deriving DecidableEq, Repr

/-- `DBSQL`; the `flag` fields are the bits of `flags` that are read or written here. -/
structure DBSQL where
  sm : Nat → Sm
  aDb : List DbT
  magic : Status
  wantToClose : Bool
  flagInTrans : Bool
  flagInitialized : Bool
  flagInternChanges : Bool
  flagInterrupt : Bool
  nextSig : Int
  onError : Oe
  xCommitCallback : Option (Nat → Int)
  pCommitArg : Nat

def DBSQL.setSm (db : DBSQL) (p : Nat) (sm : Sm) : DBSQL :=
  { db with sm := fun q => if q = p then sm else db.sm q }

/-- `__safety_on` (safety.c:47-60); true stands for a non-zero return. -/
def safetyOn (db : DBSQL) : DBSQL × Bool :=
  if db.magic = .opened then ({ db with magic := .busy }, false)
  else if db.magic = .busy ∨ db.magic = .error ∨ db.wantToClose then
    ({ db with magic := .error, flagInterrupt := true }, true)
  else (db, true)

/-- `__safety_off` (safety.c:70-84). -/
def safetyOff (db : DBSQL) : DBSQL × Bool :=
  if db.magic = .busy then ({ db with magic := .opened }, false)
  else if db.magic = .opened ∨ db.magic = .error ∨ db.wantToClose then
    ({ db with magic := .error, flagInterrupt := true }, true)
  else (db, true)

/-- The body of the loop in `__reset_internal_schema`. -/
def resetDb (d : DbT) : DbT :=
  { d with tblHash := [], idxHash := [], trigHash := [], aFKey := [], schemaLoaded := false }

/-- `__reset_internal_schema` (cg_build.c:338-396). For `idb = 0` it also closes the gaps
that closed auxiliary databases leave in `aDb`. -/
def resetInternalSchema (db : DBSQL) (idb : Nat) : DBSQL :=
  if 0 < idb then { db with flagInitialized := false, aDb := db.aDb.modify idb resetDb }
  else
    let aDb := db.aDb.map resetDb
    { db with
      flagInitialized := false
      flagInternChanges := false
      aDb := aDb.take 2 ++ (aDb.drop 2).filter (fun d => d.pBt.isSome) }

/-- `__rollback_internal_changes` (cg_build.c:406-413). -/
def rollbackInternalChanges (db : DBSQL) : DBSQL :=
  if db.flagInternChanges then resetInternalSchema db 0 else db

/-- `__commit_internal_changes` (cg_build.c:421-427). -/
def commitInternalChanges (db : DBSQL) : DBSQL :=
  { db with
    aDb := db.aDb.modify 0 (fun d => { d with schemaSig := db.nextSig })
    flagInternChanges := false }

/-! ## Programs -/

/-- `VDBE_MAGIC_*`. -/
inductive Magic | init | run | halt | dead
  deriving DecidableEq, Repr

/-- `vdbe_t`, with the storage cursor of each `cursor_t`. -/
structure Vm where
  db : DBSQL
  aCsr : List (Option Csr)
  rc : Rc
  magic : Magic
  errorAction : Oe
  undoTransOnError : Bool

def Vm.setSm (vm : Vm) (p : Nat) (sm : Sm) : Vm := { vm with db := vm.db.setSm p sm }

/-- `OP_Transaction` (vdbe.c:2338-2347). -/
def opTransaction (vm : Vm) (i : Nat) (ret : Int) : Option Vm := do
  let d ← vm.db.aDb[i]?
  if d.inTrans then return vm
  let p ← d.pBt
  let (sm, rc) := smBeginTxn (vm.db.sm p) ret
  let db := vm.db.setSm p sm
  return { vm with
    db := { db with aDb := db.aDb.modify i (fun d => { d with inTrans := true }) }
    rc := rc
    undoTransOnError := true }

/-- The call of the commit hook in `OP_Commit`: `rc`, or `misuse`. -/
def commitHook (db : DBSQL) : DBSQL × Rc :=
  match db.xCommitCallback with
  | none => (db, .success)
  | some xCommitCallback =>
    let (db, bad) := safetyOff db
    if bad then (db, .misuse)
    else
      let rc : Rc := if xCommitCallback db.pCommitArg ≠ 0 then .constraint else .success
      let (db, bad) := safetyOn db
      if bad then (db, .misuse) else (db, rc)

/-- The storage commit in `OP_Commit`, which assigns `rc` again. -/
def commitStorage (db : DBSQL) (i : Nat) (rc : Rc) : Option (DBSQL × Rc) := do
  let d ← db.aDb[i]?
  if d.inTrans then
    let p ← d.pBt
    let (sm, rc) := smCommitTxn (db.sm p)
    let db := db.setSm p sm
    return ({ db with aDb := db.aDb.modify i (fun d => { d with inTrans := false }) }, rc)
  else return (db, rc)

/-- `__sm_abort_txn(db->aDb[i].pBt)`. -/
def abortDb (db : DBSQL) (i : Nat) : Option DBSQL := do
  let d ← db.aDb[i]?
  let p ← d.pBt
  return db.setSm p (smAbortTxn (db.sm p)).1

/-- `OP_Commit` (vdbe.c:2355-2378). -/
def opCommit (vm : Vm) (i : Nat) : Option Vm := do
  let (db, rc) := commitHook vm.db
  if rc = .misuse then return { vm with db := db, rc := rc }
  let (db, rc) ← commitStorage db i rc
  if rc = .success then return { vm with db := commitInternalChanges db, rc := rc }
  let db ← abortDb db i
  return { vm with db := rollbackInternalChanges db, rc := rc }

/-- `OP_Rollback` (vdbe.c:2390-2399). -/
def opRollback (vm : Vm) (i : Nat) : Option Vm := do
  let d ← vm.db.aDb[i]?
  if d.inTrans then
    let db ← abortDb vm.db i
    return { vm with db := rollbackInternalChanges db }
  else return vm

/-- `OP_Checkpoint` (vdbe.c:2321-2327). -/
def opCheckpoint (vm : Vm) (i : Nat) : Vm :=
  match (vm.db.aDb[i]?).bind DbT.pBt with
  | some p =>
    let (sm, rc) := smCheckpoint (vm.db.sm p)
    { vm.setSm p sm with rc := rc }
  | none => vm

/-- The storage effect of `__vdbe_cleanup_cursor` (vdbe_method.c:1024-1036) on the cursor
`cx`; the result of the close is dropped. -/
def vdbeCleanupCursor (db : DBSQL) (cx : Option Csr) (deadlock : Csr → Bool) : DBSQL :=
  match cx with
  | some smc => db.setSm smc.sm (smCloseCursor (db.sm smc.sm) smc (deadlock smc)).1
  | none => db

/-- `OP_Close` (vdbe.c:2651-2657). -/
def opClose (vm : Vm) (c : Nat) (deadlock : Csr → Bool) : Vm :=
  { vm with
    db := vdbeCleanupCursor vm.db (vm.aCsr[c]?).join deadlock
    aCsr := vm.aCsr.set c none }

/-- `OP_OpenRead`, `OP_OpenWrite` (vdbe.c:2506-2575) of cursor `c` on btree `id` of database
`i`; `ok` is false where `__sm_cursor` fails. -/
def opOpen (vm : Vm) (c i id : Nat) (ok : Bool) (deadlock : Csr → Bool) : Option Vm := do
  let d ← vm.db.aDb[i]?
  let vm := opClose vm c deadlock
  let aCsr := vm.aCsr ++ List.replicate (c + 1 - vm.aCsr.length) none
  match d.pBt with
  | none => return { vm with aCsr := aCsr }
  | some p =>
    if ok then
      let (sm, smc) := smCursor (vm.db.sm p) p id
      return { vm.setSm p sm with aCsr := aCsr.set c (some smc) }
    else return { vm with aCsr := aCsr, rc := .internal }

/-- The write of `OP_PutIntKey`, `OP_PutStrKey` and `OP_IdxPut` (a value) and of `OP_Delete` and
`OP_IdxDelete` (none) through cursor `c`. -/
def opWrite (vm : Vm) (c : Nat) (key : Dbt) (value : Option Bytes) : Vm :=
  match (vm.aCsr[c]?).join with
  | some smc => vm.setSm smc.sm (smWrite (vm.db.sm smc.sm) smc key value)
  | none => vm

/-- `OP_Clear` (vdbe.c:3802-3805). -/
def opClear (vm : Vm) (id i : Nat) : Option Vm := do
  let d ← vm.db.aDb[i]?
  let p ← d.pBt
  let (sm, rc) := smClearTable (vm.db.sm p) id
  return { vm.setSm p sm with rc := rc }

/-- `OP_Halt` (vdbe.c:745-759). -/
def opHalt (vm : Vm) (p1 : Rc) (p2 : Oe) : Vm :=
  if p1 ≠ .success then { vm with magic := .halt, rc := p1, errorAction := p2 }
  else { vm with magic := .halt, rc := .success }

inductive Op
  | transaction (i : Nat) (ret : Int)
  | commit (i : Nat)
  | rollback (i : Nat)
  | checkpoint (i : Nat)
  | openCursor (c i id : Nat) (ok : Bool) (deadlock : Csr → Bool)
  | write (c : Nat) (key : Dbt) (value : Option Bytes)
  | clear (id i : Nat)
  | close (c : Nat) (deadlock : Csr → Bool)
  | halt (p1 : Rc) (p2 : Oe)
  /-- any other opcode, which leaves the storage alone and ends with `rc` -/
  | other (rc : Rc)

/-- One opcode, before the test of `rc` in the loop. -/
def execOp (vm : Vm) : Op → Option Vm
  | .transaction i ret => opTransaction vm i ret
  | .commit i => opCommit vm i
  | .rollback i => opRollback vm i
  | .checkpoint i => some (opCheckpoint vm i)
  | .openCursor c i id ok deadlock => opOpen vm c i id ok deadlock
  | .write c key value => some (opWrite vm c key value)
  | .clear id i => opClear vm id i
  | .close c deadlock => some (opClose vm c deadlock)
  | .halt p1 p2 => some (opHalt vm p1 p2)
  | .other rc => some { vm with rc := rc }

/-- `vdbe_halt` (vdbe.c:4955-4965): an opcode that leaves `rc` set ends the program. -/
def vdbeHalt (vm : Vm) : Vm := if vm.rc = .success then vm else { vm with magic := .halt }

/-- One turn of the loop of `__vdbe_exec`. -/
def exec (vm : Vm) (o : Op) : Option Vm :=
  if vm.magic = .run then (execOp vm o).map vdbeHalt else none

/-- `__close_all_cursors` (vdbe_method.c:1043-1055). -/
def closeAllCursors (vm : Vm) (deadlock : Csr → Bool) : Vm :=
  { vm with
    db := vm.aCsr.foldl (fun db cx => vdbeCleanupCursor db cx deadlock) vm.db
    aCsr := [] }

/-- The switch over `errorAction` in `__vdbe_reset`; the aborts in it are commented out. -/
def endTransOnError (vm : Vm) : DBSQL :=
  match vm.errorAction with
  | .abort | .rollback => { vm.db with flagInTrans := false, onError := .default }
  | _ =>
    if vm.undoTransOnError then { vm.db with flagInTrans := false, onError := .default } else vm.db

/-- `__vdbe_reset` (vdbe_method.c:1144-1209) with its return code; `__cleanup` touches the
storage only through the cursors it closes. -/
def vdbeReset (vm : Vm) (deadlock : Csr → Bool) : Vm × Rc :=
  if vm.magic ≠ .run ∧ vm.magic ≠ .halt then (vm, .misuse)
  else
    let vm := closeAllCursors vm deadlock
    let vm :=
      if vm.rc ≠ .success then { vm with db := rollbackInternalChanges (endTransOnError vm) } else vm
    ({ vm with magic := .init }, vm.rc)

/-- `__vdbe_make_ready` (vdbe_method.c:860-925), for the next program. -/
def vdbeMakeReady (vm : Vm) : Vm :=
  { vm with rc := .success, errorAction := .abort, undoTransOnError := false, magic := .run }

inductive Label
  | op (o : Op)
  /-- the program ends and another one is readied -/
  | reset (deadlock : Csr → Bool)

def next (vm : Vm) : Label → Option Vm
  | .op o => exec vm o
  | .reset deadlock => some (vdbeMakeReady (vdbeReset vm deadlock).1)

/-- A connection that has just been opened, with a first program readied. -/
structure Start (vm : Vm) : Prop where
  magic : vm.magic = .run
  rc : vm.rc = .success
  aCsr : vm.aCsr = []
  txn : ∀ p, (vm.db.sm p).txn = false
  log : ∀ p, (vm.db.sm p).log = []
  inTrans : ∀ d ∈ vm.db.aDb, d.inTrans = false
  distinct : (vm.db.aDb.filterMap DbT.pBt).Nodup

/-- Every sequence of opcodes and resets on a connection. -/
def machine : LTS Vm Label where
  init := Start
  step vm l vm' := next vm l = some vm'

/-- A connection with one empty database. -/
def oneDb : Vm where
  db :=
    { sm := fun _ => ⟨fun _ => none, [], false, 0⟩
      aDb := [⟨"main", some 0, 0, [], [], [], [], false, false⟩]
      magic := .busy, wantToClose := false, flagInTrans := false, flagInitialized := false
      flagInternChanges := false, flagInterrupt := false, nextSig := 0, onError := .default
      xCommitCallback := none, pCommitArg := 0 }
  aCsr := []
  rc := .success
  magic := .run
  errorAction := .abort
  undoTransOnError := false

theorem oneDb_start : Start oneDb where
  magic := rfl
  rc := rfl
  aCsr := rfl
  txn _ := rfl
  log _ := rfl
  inTrans := by decide
  distinct := by decide

end Dbsql.L4
