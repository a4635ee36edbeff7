import Dbsql.L4Txn.Machine
/-!
# What a step of the transaction machine can do

One inversion lemma for each opcode that moves `inTrans`, and one for all others: those
change a storage manager only by opening and closing cursors and by writing (`Quiet`).
The invariants of this layer are proved from these lemmas alone.
-/
namespace Dbsql.L4
open Dbsql.Core Dbsql.L1

/-! ## The opcodes that move `inTrans` -/

theorem opTransaction_cases {vm vm' : Vm} {i : Nat} {ret : Int} (h : opTransaction vm i ret = some vm') :
    ∃ d, vm.db.aDb[i]? = some d ∧ ((d.inTrans = true ∧ vm' = vm) ∨
      (d.inTrans = false ∧ vm'.aCsr = vm.aCsr ∧ ∃ p, d.pBt = some p ∧
        vm'.db.aDb = vm.db.aDb.modify i (fun d => { d with inTrans := true }) ∧
        vm'.db.sm = (vm.db.setSm p (smBeginTxn (vm.db.sm p) ret).1).sm)) := by
  unfold opTransaction at h
  cases hd : vm.db.aDb[i]? with
  | none => simp [hd] at h
  | some d =>
    refine ⟨d, rfl, ?_⟩
    cases hi : d.inTrans with
    | true =>
      left
      simp [hd, hi] at h
      exact ⟨rfl, h.symm⟩
    | false =>
      right
      cases hp : d.pBt with
      | none => simp [hd, hi, hp] at h
      | some p =>
        simp [hd, hi, hp] at h
        subst h
        exact ⟨rfl, rfl, p, rfl, rfl, rfl⟩

theorem commitStorage_cases {db db' : DBSQL} {i : Nat} {rc rc' : Rc}
    (h : commitStorage db i rc = some (db', rc')) :
    ∃ d, db.aDb[i]? = some d ∧
      ((d.inTrans = true ∧ rc' = .success ∧ ∃ p, d.pBt = some p ∧
          db' = { db.setSm p (smCommitTxn (db.sm p)).1 with
            aDb := db.aDb.modify i (fun d => { d with inTrans := false }) }) ∨
        (d.inTrans = false ∧ rc' = rc ∧ db' = db)) := by
  unfold commitStorage at h
  cases hd : db.aDb[i]? with
  | none => simp [hd] at h
  | some d =>
    refine ⟨d, rfl, ?_⟩
    cases hi : d.inTrans with
    | false =>
      right
      simp [hd, hi] at h
      exact ⟨rfl, h.2.symm, h.1.symm⟩
    | true =>
      left
      cases hp : d.pBt with
      | none => simp [hd, hi, hp] at h
      | some p =>
        simp [hd, hi, hp, smCommitTxn] at h
        obtain ⟨rfl, rfl⟩ := h
        exact ⟨rfl, rfl, p, rfl, rfl⟩

theorem abortDb_cases {db db' : DBSQL} {i : Nat} (h : abortDb db i = some db') :
    ∃ d, db.aDb[i]? = some d ∧ ∃ p, d.pBt = some p ∧ db' = db.setSm p (smAbortTxn (db.sm p)).1 := by
  unfold abortDb at h
  cases hd : db.aDb[i]? with
  | none => simp [hd] at h
  | some d =>
    cases hp : d.pBt with
    | none => simp [hd, hp] at h
    | some p =>
      simp [hd, hp] at h
      exact ⟨d, rfl, p, hp, h.symm⟩

/-- The three ways through `OP_Commit` after the hook has returned `rc`: the storage
commit, nothing to commit, or a veto with nothing to commit. -/
theorem opCommit_cases {vm vm' : Vm} {i : Nat} (h : opCommit vm i = some vm') :
    ∃ db rc, commitHook vm.db = (db, rc) ∧ vm'.aCsr = vm.aCsr ∧
      ((rc = .misuse ∧ vm'.db = db ∧ vm'.rc = rc) ∨
        (rc ≠ .misuse ∧ ∃ d, db.aDb[i]? = some d ∧
          ((d.inTrans = true ∧ vm'.rc = .success ∧ ∃ p, d.pBt = some p ∧
              vm'.db = commitInternalChanges { db.setSm p (smCommitTxn (db.sm p)).1 with
                aDb := db.aDb.modify i (fun d => { d with inTrans := false }) }) ∨
            (d.inTrans = false ∧ rc = .success ∧ vm'.rc = .success ∧
              vm'.db = commitInternalChanges db) ∨
            (d.inTrans = false ∧ rc ≠ .success ∧ vm'.rc = rc ∧ ∃ p, d.pBt = some p ∧
              vm'.db = rollbackInternalChanges (db.setSm p (smAbortTxn (db.sm p)).1))))) := by
  unfold opCommit at h
  rcases hc : commitHook vm.db with ⟨db, rc⟩
  refine ⟨db, rc, rfl, ?_⟩
  rw [hc] at h
  by_cases hm : rc = .misuse
  · simp only [hm, if_true] at h
    cases h
    exact ⟨rfl, .inl ⟨hm, rfl, hm.symm⟩⟩
  · simp only [hm, if_false] at h
    cases hs : commitStorage db i rc with
    | none => simp [hs] at h
    | some r =>
      obtain ⟨db', rc'⟩ := r
      simp only [hs, Option.bind_eq_bind, Option.bind_some] at h
      obtain ⟨d, hd, ⟨hi, rfl, p, hp, rfl⟩ | ⟨hi, rfl, rfl⟩⟩ := commitStorage_cases hs
      · simp only [if_true] at h
        cases h
        exact ⟨rfl, .inr ⟨hm, d, hd, .inl ⟨hi, rfl, p, hp, rfl⟩⟩⟩
      · by_cases hr : rc' = .success
        · simp only [hr, if_true] at h
          cases h
          exact ⟨rfl, .inr ⟨hm, d, hd, .inr (.inl ⟨hi, hr, rfl, rfl⟩)⟩⟩
        · simp only [hr, if_false] at h
          cases ha : abortDb db' i with
          | none => simp [ha] at h
          | some db'' =>
            simp only [ha, Option.bind_some] at h
            cases h
            obtain ⟨d', hd', p, hp, rfl⟩ := abortDb_cases ha
            rw [hd] at hd'
            cases hd'
            exact ⟨rfl, .inr ⟨hm, d, hd, .inr (.inr ⟨hi, hr, rfl, p, hp, rfl⟩)⟩⟩

theorem opRollback_cases {vm vm' : Vm} {i : Nat} (h : opRollback vm i = some vm') :
    ∃ d, vm.db.aDb[i]? = some d ∧ ((d.inTrans = false ∧ vm' = vm) ∨
      (d.inTrans = true ∧ vm'.aCsr = vm.aCsr ∧ ∃ p, d.pBt = some p ∧
        vm'.db = rollbackInternalChanges (vm.db.setSm p (smAbortTxn (vm.db.sm p)).1))) := by
  unfold opRollback at h
  cases hd : vm.db.aDb[i]? with
  | none => simp [hd] at h
  | some d =>
    refine ⟨d, rfl, ?_⟩
    cases hi : d.inTrans with
    | false =>
      left
      simp [hd, hi] at h
      exact ⟨rfl, h.symm⟩
    | true =>
      right
      cases ha : abortDb vm.db i with
      | none => simp [hd, hi, ha] at h
      | some db =>
        simp [hd, hi, ha] at h
        subst h
        obtain ⟨d', hd', p, hp, rfl⟩ := abortDb_cases ha
        rw [hd] at hd'
        cases hd'
        exact ⟨rfl, rfl, p, hp, rfl⟩

theorem vdbeHalt_db (vm : Vm) : (vdbeHalt vm).db = vm.db := by
  unfold vdbeHalt
  split <;> rfl

theorem vdbeHalt_aCsr (vm : Vm) : (vdbeHalt vm).aCsr = vm.aCsr := by
  unfold vdbeHalt
  split <;> rfl

theorem exec_cases {vm vm' : Vm} {o : Op} (h : exec vm o = some vm') :
    vm.magic = .run ∧ ∃ vm₁, execOp vm o = some vm₁ ∧ vm' = vdbeHalt vm₁ := by
  unfold exec at h
  split at h
  · rename_i hm
    obtain ⟨vm₁, h₁, h₂⟩ := Option.map_eq_some_iff.1 h
    exact ⟨hm, vm₁, h₁, h₂.symm⟩
  · cases h

theorem endTransOnError_frame (vm : Vm) :
    (endTransOnError vm).aDb = vm.db.aDb ∧ (endTransOnError vm).sm = vm.db.sm := by
  unfold endTransOnError
  split
  · exact ⟨rfl, rfl⟩
  · exact ⟨rfl, rfl⟩
  · split <;> exact ⟨rfl, rfl⟩

theorem rollbackInternalChanges_sm (db : DBSQL) : (rollbackInternalChanges db).sm = db.sm := by
  unfold rollbackInternalChanges resetInternalSchema
  split <;> rfl

theorem commitHook_frame (db : DBSQL) :
    (commitHook db).1.aDb = db.aDb ∧ (commitHook db).1.sm = db.sm := by
  have hoff : ∀ db, (safetyOff db).1.aDb = db.aDb ∧ (safetyOff db).1.sm = db.sm := fun db => by
    unfold safetyOff; split <;> [exact ⟨rfl, rfl⟩; split <;> exact ⟨rfl, rfl⟩]
  have hon : ∀ db, (safetyOn db).1.aDb = db.aDb ∧ (safetyOn db).1.sm = db.sm := fun db => by
    unfold safetyOn; split <;> [exact ⟨rfl, rfl⟩; split <;> exact ⟨rfl, rfl⟩]
  unfold commitHook
  split
  · exact ⟨rfl, rfl⟩
  · simp only
    split
    · exact hoff db
    · split
      · exact ⟨(hon _).1.trans (hoff db).1, (hon _).2.trans (hoff db).2⟩
      · exact ⟨(hon _).1.trans (hoff db).1, (hon _).2.trans (hoff db).2⟩

/-! ## The other opcodes -/

/-- The changes to the storage manager `p` that do not concern `sm->txn`; `aCsr` holds
the open cursors. -/
inductive Quiet (aCsr : List (Option Csr)) (p : Nat) : Sm → Sm → Prop
  | refl (sm : Sm) : Quiet aCsr p sm sm
  | cursor (sm : Sm) : Quiet aCsr p sm { sm with nextTxn := sm.nextTxn + 1 }
  | close (sm : Sm) (smc : Csr) (deadlock : Bool) : some smc ∈ aCsr → smc.sm = p →
      Quiet aCsr p sm (smCloseCursor sm smc deadlock).1
  | write (sm : Sm) (smc : Csr) (key : Dbt) (value : Option Bytes) : some smc ∈ aCsr → smc.sm = p →
      Quiet aCsr p sm (smWrite sm smc key value)
  | clear (sm : Sm) (id : Nat) : Quiet aCsr p sm (smClearTable sm id).1
  | trans {a b c : Sm} : Quiet aCsr p a b → Quiet aCsr p b c → Quiet aCsr p a c

theorem Quiet.txn {aCsr : List (Option Csr)} {p : Nat} {a b : Sm} (h : Quiet aCsr p a b) :
    b.txn = a.txn := by
  induction h with
  | refl | cursor | write | clear => rfl
  | close =>
    unfold smCloseCursor
    split <;> rfl
  | trans _ _ ih ih' => exact ih'.trans ih

theorem Quiet.setSm {aCsr : List (Option Csr)} {db : DBSQL} {p : Nat} {sm : Sm}
    (h : Quiet aCsr p (db.sm p) sm) (q : Nat) : Quiet aCsr q (db.sm q) ((db.setSm p sm).sm q) := by
  unfold DBSQL.setSm
  dsimp only
  split
  · rename_i hq
    exact hq ▸ h
  · exact .refl _

theorem mem_of_get_join {aCsr : List (Option Csr)} {c : Nat} {smc : Csr}
    (h : (aCsr[c]?).join = some smc) : some smc ∈ aCsr := by
  rw [Option.join_eq_some_iff] at h
  exact List.mem_iff_getElem?.2 ⟨c, h⟩

theorem cleanupCursor_quiet {aCsr : List (Option Csr)} (db : DBSQL) (cx : Option Csr)
    (deadlock : Csr → Bool) (h : ∀ smc, cx = some smc → some smc ∈ aCsr) :
    (vdbeCleanupCursor db cx deadlock).aDb = db.aDb ∧
      ∀ p, Quiet aCsr p (db.sm p) ((vdbeCleanupCursor db cx deadlock).sm p) := by
  cases cx with
  | none => exact ⟨rfl, fun _ => .refl _⟩
  | some smc => exact ⟨rfl, Quiet.setSm (.close _ _ _ (h smc rfl) rfl)⟩

theorem closeAllCursors_quiet (vm : Vm) (deadlock : Csr → Bool) :
    (closeAllCursors vm deadlock).db.aDb = vm.db.aDb ∧
      ∀ p, Quiet vm.aCsr p (vm.db.sm p) ((closeAllCursors vm deadlock).db.sm p) := by
  have key : ∀ (cs : List (Option Csr)) (db : DBSQL), (∀ cx ∈ cs, cx ∈ vm.aCsr) →
      (cs.foldl (fun db cx => vdbeCleanupCursor db cx deadlock) db).aDb = db.aDb ∧
        ∀ p, Quiet vm.aCsr p (db.sm p)
          ((cs.foldl (fun db cx => vdbeCleanupCursor db cx deadlock) db).sm p) := by
    intro cs
    induction cs with
    | nil => exact fun db _ => ⟨rfl, fun _ => .refl _⟩
    | cons cx cs ih =>
      intro db hcs
      obtain ⟨ha, hq⟩ := cleanupCursor_quiet db cx deadlock fun smc h => hcs _ (h ▸ .head _)
      obtain ⟨ha', hq'⟩ := ih (vdbeCleanupCursor db cx deadlock) fun cx hcx => hcs cx (.tail _ hcx)
      exact ⟨ha'.trans ha, fun p => (hq p).trans (hq' p)⟩
  exact key vm.aCsr vm.db fun _ h => h

/-- The cursors after a step: those before it, and one with a new child transaction. -/
def NewCursors (vm vm' : Vm) : Prop :=
  ∀ smc, some smc ∈ vm'.aCsr → some smc ∈ vm.aCsr ∨
    (smc.txn = (vm.db.sm smc.sm).nextTxn ∧ (vm'.db.sm smc.sm).nextTxn = smc.txn + 1)

theorem NewCursors.of_subset {vm vm' : Vm} (h : ∀ cx ∈ vm'.aCsr, cx ∈ vm.aCsr) :
    NewCursors vm vm' := fun _ hm => .inl (h _ hm)

/-- `o` is none of the opcodes that move `inTrans`. -/
def Op.isQuiet : Op → Bool
  | .transaction _ _ | .commit _ | .rollback _ => false
  | _ => true

theorem opClose_quiet (vm : Vm) (c : Nat) (deadlock : Csr → Bool) :
    (opClose vm c deadlock).db.aDb = vm.db.aDb ∧
      (∀ p, Quiet vm.aCsr p (vm.db.sm p) ((opClose vm c deadlock).db.sm p)) ∧
      ∀ smc, some smc ∈ (opClose vm c deadlock).aCsr → some smc ∈ vm.aCsr := by
  obtain ⟨ha, hq⟩ := cleanupCursor_quiet vm.db (vm.aCsr[c]?).join deadlock
    fun smc h => mem_of_get_join h
  refine ⟨ha, hq, fun smc h => ?_⟩
  rcases List.mem_or_eq_of_mem_set h with h | h
  · exact h
  · cases h

theorem smCloseCursor_nextTxn (sm : Sm) (smc : Csr) (deadlock : Bool) :
    (smCloseCursor sm smc deadlock).1.nextTxn = sm.nextTxn := by
  unfold smCloseCursor
  split <;> rfl

theorem opClose_nextTxn (vm : Vm) (c : Nat) (deadlock : Csr → Bool) (p : Nat) :
    ((opClose vm c deadlock).db.sm p).nextTxn = (vm.db.sm p).nextTxn := by
  unfold opClose vdbeCleanupCursor DBSQL.setSm
  dsimp only
  split
  · dsimp only
    split
    · rename_i hp
      rw [smCloseCursor_nextTxn, hp]
    · rfl
  · rfl

theorem execOp_quiet {vm vm' : Vm} {o : Op} (ho : o.isQuiet = true) (h : execOp vm o = some vm') :
    vm'.db.aDb = vm.db.aDb ∧ (∀ p, Quiet vm.aCsr p (vm.db.sm p) (vm'.db.sm p)) ∧
      NewCursors vm vm' := by
  cases o with
  | transaction | commit | rollback => cases ho
  | checkpoint i =>
    simp only [execOp, Option.some.injEq] at h
    subst h
    unfold opCheckpoint
    split
    · exact ⟨rfl, Quiet.setSm (.refl _), .of_subset fun _ h => h⟩
    · exact ⟨rfl, fun _ => .refl _, .of_subset fun _ h => h⟩
  | openCursor c i id ok deadlock =>
    obtain ⟨ha, hq, hc⟩ := opClose_quiet vm c deadlock
    have hold : ∀ {smc}, some smc ∈ (opClose vm c deadlock).aCsr ++
        List.replicate (c + 1 - (opClose vm c deadlock).aCsr.length) none → some smc ∈ vm.aCsr := by
      intro smc hm
      rcases List.mem_append.1 hm with hm | hm
      · exact hc smc hm
      · cases (List.mem_replicate.1 hm).2
    simp only [execOp, opOpen] at h
    cases hd : vm.db.aDb[i]? with
    | none => simp [hd] at h
    | some d =>
      cases hp : d.pBt with
      | none =>
        simp [hd, hp] at h
        subst h
        exact ⟨ha, hq, fun smc hm => .inl (hold hm)⟩
      | some p =>
        cases ok with
        | false =>
          simp [hd, hp] at h
          subst h
          exact ⟨ha, hq, fun smc hm => .inl (hold hm)⟩
        | true =>
          simp [hd, hp] at h
          subst h
          refine ⟨ha, fun q => (hq q).trans (Quiet.setSm (.cursor _) q), fun smc hm => ?_⟩
          rcases List.mem_or_eq_of_mem_set hm with hm | hm
          · exact .inl (hold hm)
          · cases hm
            right
            simp [smCursor, opClose_nextTxn, Vm.setSm, DBSQL.setSm]
  | write c key value =>
    simp only [execOp, Option.some.injEq] at h
    subst h
    unfold opWrite
    split
    · rename_i smc hsmc
      exact ⟨rfl, Quiet.setSm (.write _ _ _ _ (mem_of_get_join hsmc) rfl), .of_subset fun _ h => h⟩
    · exact ⟨rfl, fun _ => .refl _, .of_subset fun _ h => h⟩
  | clear id i =>
    simp only [execOp, opClear] at h
    cases hd : vm.db.aDb[i]? with
    | none => simp [hd] at h
    | some d =>
      cases hp : d.pBt with
      | none => simp [hd, hp] at h
      | some p =>
        simp [hd, hp] at h
        subst h
        exact ⟨rfl, Quiet.setSm (.clear _ _), .of_subset fun _ h => h⟩
  | close c deadlock =>
    simp only [execOp, Option.some.injEq] at h
    subst h
    obtain ⟨ha, hq, hc⟩ := opClose_quiet vm c deadlock
    exact ⟨ha, hq, fun smc hm => .inl (hc smc hm)⟩
  | halt p1 p2 =>
    simp only [execOp, Option.some.injEq] at h
    subst h
    unfold opHalt
    split <;> exact ⟨rfl, fun _ => .refl _, .of_subset fun _ h => h⟩
  | other rc =>
    simp only [execOp, Option.some.injEq] at h
    subst h
    exact ⟨rfl, fun _ => .refl _, .of_subset fun _ h => h⟩

/-- `__vdbe_reset` changes the storage only by closing the cursors. -/
theorem vdbeReset_cases (vm : Vm) (deadlock : Csr → Bool) :
    (vm.magic ≠ .run ∧ vm.magic ≠ .halt ∧ (vdbeReset vm deadlock).1 = vm) ∨
      ((vdbeReset vm deadlock).1.db.sm = (closeAllCursors vm deadlock).db.sm ∧
        (vdbeReset vm deadlock).1.aCsr = []) := by
  unfold vdbeReset
  split
  · rename_i hm
    exact .inl ⟨hm.1, hm.2, rfl⟩
  · right
    simp only
    split
    · exact ⟨(rollbackInternalChanges_sm _).trans (endTransOnError_frame _).2, rfl⟩
    · exact ⟨rfl, rfl⟩

theorem vdbeReset_quiet (vm : Vm) (deadlock : Csr → Bool) :
    (∀ p, Quiet vm.aCsr p (vm.db.sm p) ((vdbeReset vm deadlock).1.db.sm p)) ∧
      NewCursors vm (vdbeReset vm deadlock).1 := by
  obtain ⟨-, -, heq⟩ | ⟨hsm, hc⟩ := vdbeReset_cases vm deadlock
  · rw [heq]
    exact ⟨fun _ => .refl _, .of_subset fun _ h => h⟩
  · refine ⟨fun p => ?_, .of_subset fun cx hm => ?_⟩
    · rw [hsm]
      exact (closeAllCursors_quiet vm deadlock).2 p
    · rw [hc] at hm
      cases hm

end Dbsql.L4
