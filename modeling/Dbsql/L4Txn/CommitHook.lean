import Dbsql.L4Txn.Steps
/-!
# The commit hook

`OP_Commit` asks the hook first and sets `rc` to `DBSQL_CONSTRAINT` on a non-zero answer.
The storage commit that follows is not conditional on it and assigns `rc` again, so
while a transaction is open the answer of the hook is lost.

Results:
* `opCommit_storage`: with a transaction open, `OP_Commit` commits, whatever the hook
  returned.
* `opCommit_contract_iff`: the veto contract holds exactly when the hook returns zero.
-/
namespace Dbsql.L4
open Dbsql.Core Dbsql.L1

/-- The permanent contents once the open transaction has been committed. -/
def Sm.committed (sm : Sm) : Loc → Option Bytes :=
  WriteLog.contents sm.base (sm.log.keep (fun o => decide (o = .perm) || o.inTxn))

/-- The in-memory schema: everything of `aDb` but `inTrans`, and the schema flags. -/
def schemaView (db : DBSQL) : List DbT × Bool × Bool :=
  (db.aDb.map (fun d => { d with inTrans := false }), db.flagInitialized, db.flagInternChanges)

/-- Nothing of the transaction on `p` is permanent, the schema is rolled back, and the
result is `DBSQL_CONSTRAINT`. -/
structure Vetoed (vm vm' : Vm) (p : Nat) : Prop where
  durable : (vm'.db.sm p).durable = (vm.db.sm p).durable
  schema : schemaView vm'.db = schemaView (rollbackInternalChanges vm.db)
  rc : vm'.rc = .constraint

/-- The changes of the transaction on `p` and the schema are committed. -/
structure Committed (vm vm' : Vm) (p : Nat) : Prop where
  durable : (vm'.db.sm p).durable = (vm.db.sm p).committed
  txn : (vm'.db.sm p).txn = false
  schema : schemaView vm'.db = schemaView (commitInternalChanges vm.db)
  rc : vm'.rc = .success

def HookReturnsZero (db : DBSQL) : Prop :=
  ∀ xCommitCallback, db.xCommitCallback = some xCommitCallback → xCommitCallback db.pCommitArg = 0

/-- A non-zero answer vetoes the commit; otherwise the commit happens. -/
def CommitContract (vm vm' : Vm) (p : Nat) : Prop :=
  (¬ HookReturnsZero vm.db → Vetoed vm vm' p) ∧ (HookReturnsZero vm.db → Committed vm vm' p)

/-- The state `OP_Commit` runs in: a transaction open on database `i`, the connection
busy (vdbe.c:581). -/
structure InTransaction (vm : Vm) (i p : Nat) (d : DbT) : Prop where
  get : vm.db.aDb[i]? = some d
  inTrans : d.inTrans = true
  pBt : d.pBt = some p
  txn : (vm.db.sm p).txn = true
  busy : vm.db.magic = .busy

theorem safetyOff_busy {db : DBSQL} (h : db.magic = .busy) :
    safetyOff db = ({ db with magic := .opened }, false) := by
  rw [safetyOff, if_pos h]

theorem safetyOn_opened {db : DBSQL} (h : db.magic = .opened) :
    safetyOn db = ({ db with magic := .busy }, false) := by
  rw [safetyOn, if_pos h]

/-- On a busy connection the hook leaves the connection as it was. -/
theorem commitHook_busy {db : DBSQL} (h : db.magic = .busy) :
    (commitHook db).1 = db ∧ (commitHook db).2 ≠ .misuse := by
  unfold commitHook
  cases hx : db.xCommitCallback with
  | none => exact ⟨rfl, by simp⟩
  | some xCommitCallback =>
    simp only [safetyOff_busy h, safetyOn_opened, Bool.false_eq_true, if_false]
    refine ⟨?_, ?_⟩
    · cases db
      cases h
      rfl
    · split <;> decide

/-- The permanent contents after `__sm_commit_txn`. -/
theorem durable_commitTxn {sm : Sm} (h : sm.txn = true) :
    (smCommitTxn sm).1.durable = sm.committed := by
  have hp : (fun o : Owner => decide (o.commit = .perm)) = fun o => decide (o = .perm) || o.inTxn := by
    funext o
    unfold Owner.commit
    split
    · rename_i hi
      simp [hi]
    · rename_i hi
      simp [hi]
  simp only [smCommitTxn, h, if_true, Sm.durable, Sm.committed, WriteLog.keep_reown,
    WriteLog.contents_reown, hp]

/-- `inTrans` is no part of the schema. -/
theorem schemaView_inTrans (db : DBSQL) (i p : Nat) (sm : Sm) (b : Bool) :
    schemaView (commitInternalChanges { db.setSm p sm with
      aDb := db.aDb.modify i (fun d => { d with inTrans := b }) }) =
      schemaView (commitInternalChanges db) := by
  simp only [schemaView, commitInternalChanges, DBSQL.setSm, Prod.mk.injEq, and_true]
  apply List.ext_getElem?
  intro j
  simp only [List.getElem?_map, List.getElem?_modify]
  cases db.aDb[j]? with
  | none => rfl
  | some d => by_cases h0 : 0 = j <;> by_cases hi : i = j <;> simp [h0, hi]

/-- **The hook is overruled.** With a transaction open `OP_Commit` commits. -/
theorem opCommit_storage {vm : Vm} {i p : Nat} {d : DbT} (h : InTransaction vm i p d) :
    ∃ vm', opCommit vm i = some vm' ∧ Committed vm vm' p := by
  obtain ⟨hdb, hm⟩ := commitHook_busy h.busy
  have hsome : ∃ vm', opCommit vm i = some vm' := by
    simp [opCommit, hdb, hm, commitStorage, h.get, h.inTrans, h.pBt, smCommitTxn]
  obtain ⟨vm', hvm'⟩ := hsome
  refine ⟨vm', hvm', ?_⟩
  obtain ⟨db, rc, hhook, -, hcase⟩ := opCommit_cases hvm'
  rw [hhook] at hdb hm
  cases hdb
  obtain ⟨hrc, -⟩ | ⟨-, d', hd', hcase⟩ := hcase
  · exact absurd hrc hm
  · rw [h.get] at hd'
    cases hd'
    obtain ⟨-, hrc, q, hq, hdb'⟩ | ⟨hi, -⟩ | ⟨hi, -⟩ := hcase
    · rw [h.pBt] at hq
      cases hq
      refine ⟨?_, ?_, ?_, hrc⟩
      · rw [hdb', ← durable_commitTxn h.txn]
        simp [commitInternalChanges, DBSQL.setSm]
      · rw [hdb']
        simp [commitInternalChanges, DBSQL.setSm, smCommitTxn]
      · rw [hdb', schemaView_inTrans]
    · rw [h.inTrans] at hi
      cases hi
    · rw [h.inTrans] at hi
      cases hi

/-- **When `OP_Commit` honours the hook.** Exactly when there is nothing to honour. -/
theorem opCommit_contract_iff (vm : Vm) (i p : Nat) (d : DbT) (h : InTransaction vm i p d) :
    ∃ vm', opCommit vm i = some vm' ∧ (CommitContract vm vm' p ↔ HookReturnsZero vm.db) := by
  obtain ⟨vm', hvm', hc⟩ := opCommit_storage h
  refine ⟨vm', hvm', fun hcon => ?_, fun hz => ⟨fun hnz => absurd hz hnz, fun _ => hc⟩⟩
  by_contra hz
  have := (hcon.1 hz).rc
  rw [hc.rc] at this
  cases this

/-! ## A vetoed commit -/

/-- A connection with one database, a transaction that has written one entry, and a
hook that answers 1. -/
def vetoing : Vm where
  db :=
    { sm := fun _ => ⟨fun _ => none, [(.txn, ⟨fun l => decide (l = (2, ⟨[1]⟩)), some [7]⟩)], true, 0⟩
      aDb := [⟨"main", some 0, 0, [], [], [], [], true, false⟩]
      magic := .busy, wantToClose := false, flagInTrans := false, flagInitialized := false
      flagInternChanges := false, flagInterrupt := false, nextSig := 0, onError := .default
      xCommitCallback := some (fun _ => 1), pCommitArg := 0 }
  aCsr := []
  rc := .success
  magic := .run
  errorAction := .abort
  undoTransOnError := true

theorem vetoing_inTransaction :
    InTransaction vetoing 0 0 ⟨"main", some 0, 0, [], [], [], [], true, false⟩ :=
  ⟨rfl, rfl, rfl, rfl, rfl⟩

theorem opCommit_contract_iff_vetoing :
    ∃ vm', opCommit vetoing 0 = some vm' ∧
      (CommitContract vetoing vm' 0 ↔ HookReturnsZero vetoing.db) :=
  opCommit_contract_iff vetoing 0 0 _ vetoing_inTransaction

/-- The hook answers 1, and the entry is permanent all the same. -/
theorem opCommit_ignores_veto :
    ¬ ∀ (vm vm' : Vm) (i p : Nat) (d : DbT), InTransaction vm i p d → opCommit vm i = some vm' →
      CommitContract vm vm' p := by
  intro h
  have hc := h vetoing _ 0 0 _ vetoing_inTransaction rfl
  have hv := hc.1 fun hz => absurd (hz _ rfl) (by decide)
  have hd := congrFun hv.durable (2, ⟨[1]⟩)
  revert hd
  decide

end Dbsql.L4
