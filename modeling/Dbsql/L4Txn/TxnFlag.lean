import Dbsql.L4Txn.Steps
/-!
# `aDb[i].inTrans` and `sm->txn`

`inTrans` is meant to say whether the storage manager of the database has an open
transaction. Both are written separately: by `OP_Transaction`, `OP_Commit` and
`OP_Rollback`. `txnView` keeps of a connection what the two flags depend on; every
opcode acts on the view by one of three changes (none, both flags of one database,
dropping entries of closed databases).

Results:
* `inTrans_iff_txn`: the flags agree in every run in which no beginning
  `OP_Transaction` is refused by `txn_begin` and no `OP_Rollback` finds `inTrans` set,
  and from such a state any other step makes them disagree.
* `rollback_leaves_inTrans`: one `OP_Transaction` and one `OP_Rollback` leave `inTrans`
  set over a null `sm->txn`.
-/
namespace Dbsql.L4
open Dbsql.Core Dbsql.L1

/-- The two flags agree for every database. -/
def Coherent (vm : Vm) : Prop :=
  ∀ d ∈ vm.db.aDb, d.inTrans = true ↔ ∃ p, d.pBt = some p ∧ (vm.db.sm p).txn = true

/-- Of each database its storage manager and `inTrans`; of each storage manager
whether `sm->txn` is set. -/
structure TxnView where
  dbs : List (Option Nat × Bool)
  txn : Nat → Bool

def txnView (db : DBSQL) : TxnView :=
  ⟨db.aDb.map (fun d => (d.pBt, d.inTrans)), fun p => (db.sm p).txn⟩

/-- The flags agree, and no two databases share a storage manager. -/
structure Agree (v : TxnView) : Prop where
  agree : ∀ e ∈ v.dbs, e.2 = true ↔ ∃ p, e.1 = some p ∧ v.txn p = true
  distinct : (v.dbs.filterMap Prod.fst).Nodup

/-- Both flags of the database `i`, whose storage manager is `p`, become `b`. -/
def TxnView.set (v : TxnView) (i p : Nat) (b : Bool) : TxnView :=
  ⟨v.dbs.modify i (fun e => (e.1, b)), fun q => if q = p then b else v.txn q⟩

theorem Agree.coherent {vm : Vm} (h : Agree (txnView vm.db)) : Coherent vm := by
  intro d hd
  exact h.agree (d.pBt, d.inTrans) (List.mem_map.2 ⟨d, hd, rfl⟩)

theorem Coherent.agree {vm : Vm} (h : Coherent vm) {e : Option Nat × Bool}
    (he : e ∈ (txnView vm.db).dbs) : e.2 = true ↔ ∃ p, e.1 = some p ∧ (vm.db.sm p).txn = true := by
  obtain ⟨d, hd, rfl⟩ := List.mem_map.1 he
  exact h d hd

/-- Where `inTrans` is clear, so is `sm->txn`. -/
theorem Agree.txn_false {db : DBSQL} (h : Agree (txnView db)) {i p : Nat} {d : DbT}
    (hd : db.aDb[i]? = some d) (hi : d.inTrans = false) (hp : d.pBt = some p) :
    (db.sm p).txn = false := by
  have hmem : (d.pBt, d.inTrans) ∈ (txnView db).dbs :=
    List.mem_map.2 ⟨d, List.mem_iff_getElem?.2 ⟨i, hd⟩, rfl⟩
  refine Bool.eq_false_iff.2 fun ht => ?_
  have := (h.agree _ hmem).2 ⟨p, hp, ht⟩
  rw [hi] at this
  cases this

theorem filterMap_fst (as bs : List (Option Nat × Bool)) (p : Nat) (b : Bool) :
    (as ++ (some p, b) :: bs).filterMap Prod.fst =
      as.filterMap Prod.fst ++ p :: bs.filterMap Prod.fst := by
  rw [List.filterMap_append, List.filterMap_cons]

/-- The entries beside the `i`-th belong to other storage managers. -/
theorem Agree.split {v : TxnView} (h : Agree v) {i p : Nat} {b₀ : Bool}
    (hi : v.dbs[i]? = some (some p, b₀)) (b : Bool) :
    ∃ as bs, v.dbs = as ++ (some p, b₀) :: bs ∧
      (v.set i p b).dbs = as ++ (some p, b) :: bs ∧ ∀ e ∈ as ++ bs, e.1 ≠ some p := by
  obtain ⟨hlt, hget⟩ := List.getElem?_eq_some_iff.1 hi
  obtain ⟨as, a, bs, hl, hlen, hmod⟩ :=
    List.exists_of_modify (fun e : Option Nat × Bool => (e.1, b)) hlt
  have ha : a = (some p, b₀) := by
    rw [hl, List.getElem?_append_right (by omega), hlen, Nat.sub_self] at hi
    simpa using hi
  subst ha
  refine ⟨as, bs, hl, hmod, fun e he hp => ?_⟩
  have hd := h.distinct
  rw [hl, filterMap_fst, List.nodup_append] at hd
  obtain ⟨-, hbs, hne⟩ := hd
  rcases List.mem_append.1 he with he | he
  · exact hne p (List.mem_filterMap.2 ⟨e, he, hp⟩) p (by simp) rfl
  · exact (List.nodup_cons.1 hbs).1 (List.mem_filterMap.2 ⟨e, he, hp⟩)

theorem Agree.set {v : TxnView} (h : Agree v) {i p : Nat} {b₀ : Bool}
    (hi : v.dbs[i]? = some (some p, b₀)) (b : Bool) : Agree (v.set i p b) := by
  obtain ⟨as, bs, hl, hset, hne⟩ := h.split hi b
  constructor
  · intro e he
    rw [hset] at he
    have hcase : e = (some p, b) ∨ e ∈ as ++ bs := by
      simp only [List.mem_append, List.mem_cons] at he ⊢
      tauto
    rcases hcase with rfl | he
    · simp [TxnView.set]
    · have hold := h.agree e (by rw [hl]; simp only [List.mem_append, List.mem_cons] at he ⊢; tauto)
      rw [hold]
      refine exists_congr fun q => and_congr_right fun hq => ?_
      have : q ≠ p := fun hqp => hne e he (hqp ▸ hq)
      simp only [TxnView.set, if_neg this]
  · have hd := h.distinct
    rw [hl, filterMap_fst] at hd
    rwa [hset, filterMap_fst]

/-- Entries may be dropped. -/
theorem Agree.sublist {v : TxnView} (h : Agree v) {dbs : List (Option Nat × Bool)}
    (hs : dbs.Sublist v.dbs) : Agree ⟨dbs, v.txn⟩ :=
  ⟨fun e he => h.agree e (hs.mem he), h.distinct.sublist (hs.filterMap _)⟩

/-! ## What the steps do to the view -/

theorem map_modify {α β : Type} {f : α → α} {g : α → β} {f' : β → β} (h : ∀ a, g (f a) = f' (g a))
    (l : List α) (i : Nat) : (l.modify i f).map g = (l.map g).modify i f' := by
  apply List.ext_getElem?
  intro j
  rw [List.getElem?_map, List.getElem?_modify, List.getElem?_modify, List.getElem?_map]
  cases l[j]? with
  | none => rfl
  | some a => by_cases hij : i = j <;> simp [hij, h]

theorem txnView_get {db : DBSQL} {i : Nat} {d : DbT} (h : db.aDb[i]? = some d) :
    (txnView db).dbs[i]? = some (d.pBt, d.inTrans) := by
  rw [txnView, List.getElem?_map, h]
  rfl

/-- A storage manager whose `sm->txn` is unchanged leaves the view unchanged. -/
theorem txnView_setSm {db : DBSQL} {p : Nat} {sm : Sm} (h : sm.txn = (db.sm p).txn) :
    txnView (db.setSm p sm) = txnView db := by
  simp only [txnView, DBSQL.setSm, TxnView.mk.injEq, true_and]
  funext q
  split
  · rename_i hq
    rw [h, hq]
  · rfl

/-- A storage manager and the flag of its database change together. -/
theorem txnView_set {db : DBSQL} {i p : Nat} {sm : Sm} {b : Bool} (h : sm.txn = b) :
    txnView { db.setSm p sm with aDb := db.aDb.modify i (fun d => { d with inTrans := b }) } =
      (txnView db).set i p b := by
  simp only [txnView, TxnView.set, DBSQL.setSm, TxnView.mk.injEq]
  refine ⟨@map_modify DbT _ (fun d => { d with inTrans := b }) (fun d => (d.pBt, d.inTrans))
    (fun e => (e.1, b)) (fun _ => rfl) _ _, funext fun q => ?_⟩
  split
  · exact h
  · rfl

theorem map_resetDb (l : List DbT) :
    (l.map resetDb).map (fun d => (d.pBt, d.inTrans)) = l.map (fun d => (d.pBt, d.inTrans)) := by
  rw [List.map_map]
  rfl

/-- `__rollback_internal_changes` drops closed databases from the view and keeps the rest. -/
theorem txnView_rollbackInternalChanges (db : DBSQL) :
    ∃ dbs, txnView (rollbackInternalChanges db) = ⟨dbs, (txnView db).txn⟩ ∧
      dbs.Sublist (txnView db).dbs ∧ ∀ e ∈ (txnView db).dbs, e.1 ≠ none → e ∈ dbs := by
  by_cases hf : db.flagInternChanges = true
  · refine ⟨((txnView db).dbs.take 2 ++ ((txnView db).dbs.drop 2).filter (fun e => e.1.isSome)),
      ?_, ?_, ?_⟩
    · simp only [txnView, rollbackInternalChanges, hf, if_true, resetInternalSchema, Nat.lt_irrefl,
        if_false, TxnView.mk.injEq, and_true]
      rw [List.map_append, List.map_take, map_resetDb, ← List.map_drop, List.filter_map, map_resetDb,
        ← List.map_drop, List.filter_map]
      rfl
    · have h := (List.Sublist.refl ((txnView db).dbs.take 2)).append
        (@List.filter_sublist _ (fun e => e.1.isSome) ((txnView db).dbs.drop 2))
      rwa [List.take_append_drop] at h
    · intro e he hp
      rw [← List.take_append_drop 2 (txnView db).dbs, List.mem_append] at he
      rw [List.mem_append, List.mem_filter]
      exact he.imp_right fun h => ⟨h, Option.isSome_iff_ne_none.2 hp⟩
  · refine ⟨(txnView db).dbs, ?_, List.Sublist.refl _, fun e he _ => he⟩
    rw [rollbackInternalChanges, if_neg hf]

theorem Agree.rollbackInternalChanges {db : DBSQL} (h : Agree (txnView db)) :
    Agree (txnView (rollbackInternalChanges db)) := by
  obtain ⟨dbs, hv, hs, -⟩ := txnView_rollbackInternalChanges db
  rw [hv]
  exact h.sublist hs

theorem txnView_commitInternalChanges (db : DBSQL) :
    txnView (commitInternalChanges db) = txnView db := by
  simp only [txnView, commitInternalChanges, TxnView.mk.injEq, and_true]
  rw [@map_modify DbT _ (fun d => { d with schemaSig := db.nextSig }) (fun d => (d.pBt, d.inTrans)) id
    (fun _ => rfl), List.modify_id]

theorem txnView_congr {db db' : DBSQL} (h : db'.aDb = db.aDb ∧ db'.sm = db.sm) :
    txnView db' = txnView db := by
  simp only [txnView, h.1, h.2]

theorem txnView_quiet {aCsr : List (Option Csr)} {db db' : DBSQL} (ha : db'.aDb = db.aDb)
    (hq : ∀ p, Quiet aCsr p (db.sm p) (db'.sm p)) : txnView db' = txnView db := by
  simp only [txnView, ha, (hq _).txn]

/-! ## The invariant -/

theorem Agree.congr {db db' : DBSQL} (h : Agree (txnView db)) (hv : txnView db' = txnView db) :
    Agree (txnView db') := hv ▸ h

theorem Agree.vdbeReset {vm : Vm} (h : Agree (txnView vm.db)) (deadlock : Csr → Bool) :
    Agree (txnView (vdbeReset vm deadlock).1.db) := by
  obtain ⟨hdb, hq⟩ := closeAllCursors_quiet vm deadlock
  have hclose := h.congr (txnView_quiet hdb hq)
  unfold L4.vdbeReset
  split
  · exact h
  · simp only
    split
    · exact (hclose.congr (txnView_congr (endTransOnError_frame _))).rollbackInternalChanges
    · exact hclose

/-- The steps that keep the flags together: no beginning `OP_Transaction` is refused,
and no `OP_Rollback` finds `inTrans` set. -/
def KeepsFlags (vm : Vm) : Label → Prop
  | .op (.transaction i ret) => ∀ d, vm.db.aDb[i]? = some d → d.inTrans = false → ret = 0
  | .op (.rollback i) => ∀ d, vm.db.aDb[i]? = some d → d.inTrans = false
  | _ => True

theorem Agree.next {vm vm' : Vm} {l : Label} (h : Agree (txnView vm.db)) (hk : KeepsFlags vm l)
    (hs : next vm l = some vm') : Agree (txnView vm'.db) := by
  cases l with
  | reset deadlock =>
    simp only [L4.next, Option.some.injEq] at hs
    subst hs
    exact h.vdbeReset deadlock
  | op o =>
    obtain ⟨-, vm₁, h₁, rfl⟩ := exec_cases hs
    rw [vdbeHalt_db]
    cases o with
    | transaction i ret =>
      obtain ⟨d, hd, ⟨-, rfl⟩ | ⟨hi, -, p, hp, ha, hsm⟩⟩ := opTransaction_cases h₁
      · exact h
      · have hret : ret = 0 := hk d hd hi
        have hbegun : (smBeginTxn (vm.db.sm p) ret).1.txn = true := by simp [smBeginTxn, hret]
        have hv : txnView vm₁.db = (txnView vm.db).set i p true := by
          rw [← txnView_set hbegun]
          exact txnView_congr ⟨ha, hsm⟩
        have hget := txnView_get hd
        rw [hp] at hget
        exact hv ▸ h.set hget true
    | commit i =>
      obtain ⟨db, rc, hhook, -, hcase⟩ := opCommit_cases h₁
      have hframe := commitHook_frame vm.db
      rw [hhook] at hframe
      have hdb : Agree (txnView db) := h.congr (txnView_congr hframe)
      obtain ⟨-, hdb', -⟩ | ⟨-, d, hd, hcase⟩ := hcase
      · exact hdb' ▸ hdb
      · obtain ⟨hi, -, p, hp, hdb'⟩ | ⟨hi, -, -, hdb'⟩ | ⟨hi, -, -, p, hp, hdb'⟩ := hcase
        · have hget := txnView_get hd
          rw [hp] at hget
          have hended : (smCommitTxn (db.sm p)).1.txn = false := rfl
          rw [hdb', txnView_commitInternalChanges, txnView_set hended]
          exact hdb.set hget false
        · rw [hdb', txnView_commitInternalChanges]
          exact hdb
        · have htxn : (db.sm p).txn = false := hdb.txn_false hd hi hp
          have habort : (smAbortTxn (db.sm p)).1.txn = (db.sm p).txn := htxn.symm
          rw [hdb']
          exact (hdb.congr (txnView_setSm habort)).rollbackInternalChanges
    | rollback i =>
      obtain ⟨d, hd, ⟨-, rfl⟩ | ⟨hi, -⟩⟩ := opRollback_cases h₁
      · exact h
      · rw [hk d hd] at hi
        cases hi
    | checkpoint | openCursor | write | clear | close | halt | other =>
      obtain ⟨ha, hq, -⟩ := execOp_quiet rfl h₁
      exact h.congr (txnView_quiet ha hq)

/-- A step that does not keep the flags together parts them at once. -/
theorem Agree.next_breaks {vm vm' : Vm} {l : Label} (h : Agree (txnView vm.db))
    (hk : ¬ KeepsFlags vm l) (hs : L4.next vm l = some vm') : ¬ Coherent vm' := by
  intro hc
  cases l with
  | reset deadlock => exact hk trivial
  | op o =>
    obtain ⟨-, vm₁, h₁, rfl⟩ := exec_cases hs
    cases o with
    | transaction i ret =>
      simp only [KeepsFlags, not_forall] at hk
      obtain ⟨d₀, hd₀, hi₀, hret⟩ := hk
      obtain ⟨d, hd, ⟨hi, -⟩ | ⟨hi, -, p, hp, ha, hsm⟩⟩ := opTransaction_cases h₁
      · rw [hd] at hd₀
        cases hd₀
        rw [hi] at hi₀
        cases hi₀
      · have hmem : { d with inTrans := true } ∈ (vdbeHalt vm₁).db.aDb := by
          rw [vdbeHalt_db, ha]
          exact List.mem_iff_getElem?.2 ⟨i, by rw [List.getElem?_modify_eq, hd]; rfl⟩
        obtain ⟨q, hq, htxn⟩ := (hc _ hmem).1 rfl
        have hqp : q = p := by simpa [hp] using hq.symm
        rw [vdbeHalt_db, hsm, hqp, DBSQL.setSm] at htxn
        simp [smBeginTxn, hret, h.txn_false hd hi hp] at htxn
    | rollback i =>
      simp only [KeepsFlags, not_forall] at hk
      obtain ⟨d₀, hd₀, hi₀⟩ := hk
      obtain ⟨d, hd, ⟨hi, -⟩ | ⟨hi, -, p, hp, hdb⟩⟩ := opRollback_cases h₁
      · rw [hd] at hd₀
        cases hd₀
        exact hi₀ hi
      · obtain ⟨dbs, hv, -, hkeep⟩ :=
          txnView_rollbackInternalChanges (vm.db.setSm p (smAbortTxn (vm.db.sm p)).1)
        have hget := List.mem_iff_getElem?.2 ⟨i, txnView_get hd⟩
        rw [hp, hi] at hget
        have hmem : (some p, true) ∈ (txnView (vdbeHalt vm₁).db).dbs := by
          rw [vdbeHalt_db, hdb, hv]
          exact hkeep _ hget (by simp)
        obtain ⟨q, hq, htxn⟩ := (hc.agree hmem).1 rfl
        cases hq
        rw [vdbeHalt_db, hdb, rollbackInternalChanges_sm] at htxn
        simp [DBSQL.setSm, smAbortTxn] at htxn
    | _ => exact hk trivial

theorem Start.agree {vm : Vm} (h : Start vm) : Agree (txnView vm.db) := by
  constructor
  · intro e he
    obtain ⟨d, hd, rfl⟩ := List.mem_map.1 he
    simp [txnView, h.inTrans d hd, h.txn]
  · have := h.distinct
    rwa [txnView, List.filterMap_map]

theorem agree_inductive : (machine.restrict KeepsFlags).Inductive (fun vm => Agree (txnView vm.db)) where
  init _ h := Start.agree h
  step _ _ _ h hs := h.next hs.1 hs.2

/-- **When `inTrans` agrees with `sm->txn`.** In every run all of whose steps keep the
flags together, they agree in every state reached; and the next step leaves them in
agreement exactly when it keeps them together too. -/
theorem inTrans_iff_txn (vm : Vm) (hr : (machine.restrict KeepsFlags).Reachable vm) :
    Coherent vm ∧ ∀ l vm', machine.step vm l vm' → (Coherent vm' ↔ KeepsFlags vm l) := by
  have ha := agree_inductive.reachable hr
  refine ⟨ha.coherent, fun l vm' hs => ⟨fun hc => ?_, fun hk => (ha.next hk hs).coherent⟩⟩
  by_contra hk
  exact ha.next_breaks hk hs hc

/-! ## One commit and one rollback -/

/-- A transaction is begun, written in and committed, and another one begun. -/
theorem inTrans_iff_txn_twice : ∃ vm vm',
    (machine.restrict KeepsFlags).Run oneDb
      [.op (.transaction 0 0), .op (.openCursor 0 0 2 true fun _ => false),
        .op (.write 0 ⟨[1]⟩ (some [2])), .op (.close 0 fun _ => false), .op (.commit 0)] vm ∧
    machine.step vm (.op (.transaction 0 0)) vm' ∧
    vm.db.aDb.map DbT.inTrans = [false] ∧ vm'.db.aDb.map DbT.inTrans = [true] ∧
    Coherent vm ∧ Coherent vm' := by
  have hrun : ∃ vm vm',
      (machine.restrict KeepsFlags).Run oneDb
        [.op (.transaction 0 0), .op (.openCursor 0 0 2 true fun _ => false),
          .op (.write 0 ⟨[1]⟩ (some [2])), .op (.close 0 fun _ => false), .op (.commit 0)] vm ∧
      machine.step vm (.op (.transaction 0 0)) vm' ∧
      vm.db.aDb.map DbT.inTrans = [false] ∧ vm'.db.aDb.map DbT.inTrans = [true] :=
    ⟨_, _, .cons ⟨fun _ _ _ => rfl, (rfl : next oneDb _ = some _)⟩ <|
      .cons ⟨trivial, (rfl : next _ _ = some _)⟩ <| .cons ⟨trivial, (rfl : next _ _ = some _)⟩ <|
      .cons ⟨trivial, (rfl : next _ _ = some _)⟩ <| .cons ⟨trivial, (rfl : next _ _ = some _)⟩ (.nil _),
      (rfl : next _ _ = some _), rfl, rfl⟩
  obtain ⟨vm, vm', hrun, hs, hin, hin'⟩ := hrun
  obtain ⟨hc, hnext⟩ := inTrans_iff_txn vm ⟨oneDb, _, oneDb_start, hrun⟩
  exact ⟨vm, vm', hrun, hs, hin, hin', hc, (hnext _ vm' hs).2 fun _ _ _ => rfl⟩
/-- `OP_Transaction` and then `OP_Rollback`: `sm->txn` is null, `inTrans` stays 1. -/
theorem rollback_leaves_inTrans : ¬ ∀ vm, machine.Reachable vm → Coherent vm := by
  intro h
  have hc := h _ ⟨oneDb, [.op (.transaction 0 0), .op (.rollback 0)], oneDb_start,
    .cons (rfl : next oneDb _ = some _) (.cons (rfl : next _ _ = some _) (.nil _))⟩
  obtain ⟨p, hp, ht⟩ := (hc ⟨"main", some 0, 0, [], [], [], [], true, false⟩ (.head _)).1 rfl
  cases hp
  cases ht

end Dbsql.L4
