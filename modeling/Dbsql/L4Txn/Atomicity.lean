import Dbsql.L4Txn.Steps
/-!
# Statement atomicity

A statement that fails with a constraint error should leave the contents as they were
before it began (`OE_Abort`), or as they were when the transaction began
(`OE_Rollback`). `OP_Checkpoint` records nothing that could be undone, and `__vdbe_reset`
aborts nothing: it closes the cursors, and closing a cursor commits its child
transaction unless `c_close` reports a deadlock.

`kept s vm` are the writes made since the state `s` that survive the reset of `vm`.

Results:
* `closeAllCursors_log`: the reset drops the writes of the cursors whose close reports a
  deadlock, and no others.
* `reset_restores_iff`: the contents after the reset are those of `s` exactly when the
  last surviving write to each location put the value of `s` back.
* `reset_atomic_iff`: hence when a failed statement is atomic.
-/
namespace Dbsql.L4
open Dbsql.Core Dbsql.L1

/-- The steps inside one transaction: no `OP_Commit`, which ends a program, and no
`OP_Rollback`, which is one by itself (cg_build.c:2692, 2797). -/
def Inside (_ : Vm) : Label → Prop
  | .op (.commit _) | .op (.rollback _) => False
  | _ => True

/-- Whether a write of owner `o` to the storage manager `p` survives the closing of the
cursors `aCsr`. -/
def survives (deadlock : Csr → Bool) (p : Nat) : List (Option Csr) → Owner → Bool
  | [], _ => true
  | none :: cs, o => survives deadlock p cs o
  | some smc :: cs, o =>
    if smc.sm = p ∧ o = smc.owner then !deadlock smc else survives deadlock p cs o

/-- The writes to `p` since the state `s` that survive the reset of `vm`. -/
def kept (s vm : Vm) (deadlock : Csr → Bool) (p : Nat) : WriteLog Owner Loc (Option Bytes) :=
  WriteLog.keep (survives deadlock p vm.aCsr) ((vm.db.sm p).log.drop (s.db.sm p).log.length)

/-- The contents of every btree are those of `s`. -/
def Restores (s s' : Vm) : Prop := ∀ p, (s'.db.sm p).contents = (s.db.sm p).contents

/-- The last surviving write to each location since `s` put the value of `s` back. -/
def NetNothing (s vm : Vm) (deadlock : Csr → Bool) : Prop :=
  ∀ p l v, (kept s vm deadlock p).lastWrite l = some v → v = (s.db.sm p).contents l

/-! ## Closing the cursors -/

theorem survives_not_child {deadlock : Csr → Bool} {p : Nat} (cs : List (Option Csr)) {o : Owner}
    (h : ∀ n b, o ≠ .child n b) : survives deadlock p cs o = true := by
  induction cs with
  | nil => rfl
  | cons cx cs ih =>
    cases cx with
    | none => exact ih
    | some smc =>
      rw [survives, if_neg fun ho => h _ _ ho.2]
      exact ih

/-- Closing one cursor: what survives the others is what survives them all. -/
theorem closeCursor_log (db : DBSQL) (smc : Csr) (cs : List (Option Csr)) (deadlock : Csr → Bool)
    (p : Nat) :
    (((vdbeCleanupCursor db (some smc) deadlock).sm p).log.keep (survives deadlock p cs)).map Prod.snd =
      ((db.sm p).log.keep (survives deadlock p (some smc :: cs))).map Prod.snd := by
  by_cases hp : smc.sm = p
  · subst hp
    simp only [vdbeCleanupCursor, DBSQL.setSm, if_true, smCloseCursor]
    cases hd : deadlock smc with
    | true =>
      simp only [if_true]
      rw [WriteLog.keep, WriteLog.keep, List.filter_filter, WriteLog.keep]
      congr 2
      funext e
      by_cases ho : e.1 = smc.owner <;> simp [survives, ho, hd]
    | false =>
      simp only [Bool.false_eq_true, if_false]
      rw [WriteLog.keep_reown, WriteLog.map_snd_reown]
      congr 2
      funext o
      by_cases ho : o = smc.owner
      · have hparent : survives deadlock smc.sm cs (smc.commit o) = true :=
          survives_not_child cs fun n b => by
            rw [Csr.commit, if_pos ho]
            split <;> simp
        rw [hparent, survives, if_pos ⟨rfl, ho⟩, hd]
        rfl
      · rw [Csr.commit, if_neg ho, survives, if_neg fun h => ho h.2]
  · have hlog : ((vdbeCleanupCursor db (some smc) deadlock).sm p) = db.sm p := by
      simp only [vdbeCleanupCursor, DBSQL.setSm, if_neg (Ne.symm hp)]
    have hs : survives deadlock p (some smc :: cs) = survives deadlock p cs := by
      funext o
      rw [survives, if_neg fun h => hp h.1]
    rw [hlog, hs]

/-- What `__close_all_cursors` leaves of the log of a storage manager. -/
theorem closeAllCursors_log (vm : Vm) (deadlock : Csr → Bool) (p : Nat) :
    ((closeAllCursors vm deadlock).db.sm p).base = (vm.db.sm p).base ∧
      ((closeAllCursors vm deadlock).db.sm p).log.map Prod.snd =
        ((vm.db.sm p).log.keep (survives deadlock p vm.aCsr)).map Prod.snd := by
  have key : ∀ (cs : List (Option Csr)) (db : DBSQL),
      ((cs.foldl (fun db cx => vdbeCleanupCursor db cx deadlock) db).sm p).base = (db.sm p).base ∧
      ((cs.foldl (fun db cx => vdbeCleanupCursor db cx deadlock) db).sm p).log.map Prod.snd =
        ((db.sm p).log.keep (survives deadlock p cs)).map Prod.snd := by
    intro cs
    induction cs with
    | nil =>
      intro db
      have hall : (db.sm p).log.keep (survives deadlock p []) = (db.sm p).log :=
        List.filter_eq_self.2 fun _ _ => rfl
      exact ⟨rfl, by rw [hall]; rfl⟩
    | cons cx cs ih =>
      intro db
      obtain ⟨hb, hl⟩ := ih (vdbeCleanupCursor db cx deadlock)
      rw [List.foldl_cons]
      cases cx with
      | none => exact ⟨hb, hl⟩
      | some smc =>
        refine ⟨hb.trans ?_, hl.trans (closeCursor_log db smc cs deadlock p)⟩
        unfold vdbeCleanupCursor DBSQL.setSm smCloseCursor
        dsimp only
        split
        · rename_i hp
          rw [hp]
          split <;> rfl
        · rfl
  exact key vm.aCsr vm.db

/-! ## Child transactions are numbered -/

/-- Every child transaction that owns a write was numbered before `nextTxn`. -/
def Sm.Numbered (sm : Sm) : Prop := ∀ e ∈ sm.log, ∀ n b, e.1 = .child n b → n < sm.nextTxn

/-- The same, and for the child transactions of the open cursors. -/
structure Numbered (vm : Vm) : Prop where
  log : ∀ p, (vm.db.sm p).Numbered
  csr : ∀ smc, some smc ∈ vm.aCsr → smc.txn < (vm.db.sm smc.sm).nextTxn

theorem Quiet.nextTxn_le {aCsr : List (Option Csr)} {p : Nat} {a b : Sm} (h : Quiet aCsr p a b) :
    a.nextTxn ≤ b.nextTxn := by
  induction h with
  | refl | write | clear => exact le_refl _
  | cursor => exact Nat.le_succ _
  | close sm smc deadlock => rw [smCloseCursor_nextTxn]
  | trans _ _ ih ih' => exact ih.trans ih'

/-- Renaming owners towards parents, and dropping writes, keeps the numbering. -/
theorem Sm.Numbered.of_log {a b : Sm} (h : a.Numbered) (hn : a.nextTxn ≤ b.nextTxn)
    (hl : ∀ e ∈ b.log, ∀ n b', e.1 = .child n b' → ∃ e' ∈ a.log, e'.1 = .child n b') : b.Numbered := by
  intro e he n b' ho
  obtain ⟨e', he', ho'⟩ := hl e he n b' ho
  exact (h e' he' n b' ho').trans_le hn

theorem smCloseCursor_child {sm : Sm} {smc : Csr} {deadlock : Bool} {e : Owner × Write Loc (Option Bytes)}
    (he : e ∈ (smCloseCursor sm smc deadlock).1.log) {n : Nat} {b : Bool} (ho : e.1 = .child n b) :
    ∃ e' ∈ sm.log, e'.1 = .child n b := by
  unfold smCloseCursor at he
  split at he
  · exact ⟨e, (List.mem_filter.1 he).1, ho⟩
  · obtain ⟨e', he', rfl⟩ := List.mem_map.1 he
    refine ⟨e', he', ?_⟩
    dsimp only [Csr.commit] at ho
    split at ho
    · split at ho <;> cases ho
    · exact ho

theorem Quiet.numbered {aCsr : List (Option Csr)} {p : Nat} {a b : Sm} (h : Quiet aCsr p a b)
    (hcsr : ∀ smc, some smc ∈ aCsr → smc.sm = p → smc.txn < a.nextTxn) (ha : a.Numbered) :
    b.Numbered := by
  induction h with
  | refl => exact ha
  | cursor sm => exact ha.of_log (Nat.le_succ _) fun e he n b' ho => ⟨e, he, ho⟩
  | close sm smc deadlock =>
    exact ha.of_log (smCloseCursor_nextTxn _ _ _).ge fun e he n b' ho => smCloseCursor_child he ho
  | write sm smc key value hm hp =>
    intro e he n b' ho
    rcases List.mem_append.1 he with he | he
    · exact ha e he n b' ho
    · rw [List.mem_singleton.1 he] at ho
      cases ho
      exact hcsr smc hm hp
  | clear sm id =>
    intro e he n b' ho
    rcases List.mem_append.1 he with he | he
    · exact ha e he n b' ho
    · rw [List.mem_singleton.1 he] at ho
      dsimp only at ho
      split at ho <;> cases ho
  | trans hab _ ih ih' =>
    exact ih' (fun smc hm hp => (hcsr smc hm hp).trans_le hab.nextTxn_le) (ih hcsr ha)

theorem Numbered.quiet {vm vm' : Vm} (h : Numbered vm)
    (hq : ∀ p, Quiet vm.aCsr p (vm.db.sm p) (vm'.db.sm p)) (hn : NewCursors vm vm') :
    Numbered vm' where
  log p := (hq p).numbered (fun smc hm hp => hp ▸ h.csr smc hm) (h.log p)
  csr smc hm := by
    rcases hn smc hm with hm | ⟨-, hnext⟩
    · exact (h.csr smc hm).trans_le (hq smc.sm).nextTxn_le
    · omega

/-- A step that changes one storage manager without numbering or owning more. -/
theorem Numbered.setSm {vm vm' : Vm} (h : Numbered vm) {p : Nat} {sm : Sm}
    (hsm : vm'.db.sm = (vm.db.setSm p sm).sm) (hc : vm'.aCsr = vm.aCsr)
    (hn : sm.nextTxn = (vm.db.sm p).nextTxn)
    (hl : ∀ e ∈ sm.log, ∀ n b, e.1 = .child n b → ∃ e' ∈ (vm.db.sm p).log, e'.1 = .child n b) :
    Numbered vm' where
  log q := by
    rw [hsm, DBSQL.setSm]
    dsimp only
    split
    · exact (h.log p).of_log hn.ge hl
    · exact h.log q
  csr smc hm := by
    rw [hc] at hm
    rw [hsm, DBSQL.setSm]
    dsimp only
    split
    · rename_i hp
      rw [hn, ← hp]
      exact h.csr smc hm
    · exact h.csr smc hm

theorem Numbered.vdbeReset {vm : Vm} (h : Numbered vm) (deadlock : Csr → Bool) :
    Numbered (L4.vdbeReset vm deadlock).1 := by
  obtain ⟨hq, hn⟩ := vdbeReset_quiet vm deadlock
  exact h.quiet hq hn

theorem smCommitTxn_child {sm : Sm} : ∀ e ∈ (smCommitTxn sm).1.log, ∀ n b, e.1 = .child n b →
    ∃ e' ∈ sm.log, e'.1 = .child n b := by
  intro e he n b ho
  simp only [smCommitTxn] at he
  split at he
  · obtain ⟨e', he', rfl⟩ := List.mem_map.1 he
    refine ⟨e', he', ?_⟩
    dsimp only [Owner.commit] at ho
    split at ho
    · cases ho
    · exact ho
  · exact ⟨e, he, ho⟩

theorem smAbortTxn_child {sm : Sm} : ∀ e ∈ (smAbortTxn sm).1.log, ∀ n b, e.1 = .child n b →
    ∃ e' ∈ sm.log, e'.1 = .child n b := by
  intro e he n b ho
  simp only [smAbortTxn] at he
  split at he
  · exact ⟨e, (List.mem_filter.1 he).1, ho⟩
  · exact ⟨e, he, ho⟩

theorem Numbered.opCommit {vm vm' : Vm} {i : Nat} (h : Numbered vm) (hs : opCommit vm i = some vm') :
    Numbered vm' := by
  obtain ⟨db, rc, hhook, hc, hcase⟩ := opCommit_cases hs
  have hframe := (commitHook_frame vm.db).2
  rw [hhook] at hframe
  have hsame : vm'.db.sm = vm.db.sm → Numbered vm' := fun hsm =>
    ⟨fun p => hsm ▸ h.log p, fun smc hm => hsm ▸ h.csr smc (hc ▸ hm)⟩
  obtain ⟨-, hdb, -⟩ | ⟨-, d, hd, hcase⟩ := hcase
  · exact hsame (by rw [hdb, hframe])
  · obtain ⟨-, -, p, -, hdb⟩ | ⟨-, -, -, hdb⟩ | ⟨-, -, -, p, -, hdb⟩ := hcase
    · have hsm : vm'.db.sm = (vm.db.setSm p (smCommitTxn (vm.db.sm p)).1).sm := by
        rw [hdb, commitInternalChanges, DBSQL.setSm, DBSQL.setSm, hframe]
      exact h.setSm hsm hc rfl smCommitTxn_child
    · exact hsame (by rw [hdb, commitInternalChanges, hframe])
    · have hsm : vm'.db.sm = (vm.db.setSm p (smAbortTxn (vm.db.sm p)).1).sm := by
        rw [hdb, rollbackInternalChanges_sm, DBSQL.setSm, DBSQL.setSm, hframe]
      exact h.setSm hsm hc rfl smAbortTxn_child

theorem numbered_inductive : machine.Inductive Numbered where
  init vm h := ⟨fun p e he => by simp [h.log p] at he, fun smc hm => by simp [h.aCsr] at hm⟩
  step vm l vm' h hs := by
    cases l with
    | reset deadlock =>
      cases hs
      exact ⟨(h.vdbeReset deadlock).log, (h.vdbeReset deadlock).csr⟩
    | op o =>
      obtain ⟨-, vm₁, h₁, rfl⟩ := exec_cases hs
      have key : Numbered vm₁ := by
        cases o with
        | transaction i ret =>
          obtain ⟨d, hd, ⟨-, rfl⟩ | ⟨-, hc, p, -, -, hsm⟩⟩ := opTransaction_cases h₁
          · exact h
          · exact h.setSm hsm hc rfl fun e he n b ho => ⟨e, he, ho⟩
        | commit i => exact h.opCommit h₁
        | rollback i =>
          obtain ⟨d, hd, ⟨-, rfl⟩ | ⟨-, hc, p, -, hdb⟩⟩ := opRollback_cases h₁
          · exact h
          · have hsm : vm₁.db.sm = (vm.db.setSm p (smAbortTxn (vm.db.sm p)).1).sm := by
              rw [hdb, rollbackInternalChanges_sm]
            exact h.setSm hsm hc rfl smAbortTxn_child
        | checkpoint | openCursor | write | clear | close | halt | other =>
          obtain ⟨-, hq, hn⟩ := execOp_quiet rfl h₁
          exact h.quiet hq hn
      exact ⟨fun p => vdbeHalt_db vm₁ ▸ key.log p,
        fun smc hm => vdbeHalt_db vm₁ ▸ key.csr smc (vdbeHalt_aCsr vm₁ ▸ hm)⟩

/-! ## Since a state with no open cursors -/

/-- `b` is `a` with writes added behind those of `a`, and the child transactions that
own writes of `a` are not among those numbered since. -/
structure Grown (a b : Sm) : Prop where
  base : b.base = a.base
  writes : (b.log.take a.log.length).map Prod.snd = a.log.map Prod.snd
  old : ∀ e ∈ b.log.take a.log.length, ∀ n b', e.1 = .child n b' → n < a.nextTxn
  nextTxn : a.nextTxn ≤ b.nextTxn

theorem Grown.length_le {a b : Sm} (h : Grown a b) : a.log.length ≤ b.log.length := by
  have := congrArg List.length h.writes
  rw [List.length_map, List.length_map, List.length_take] at this
  omega

theorem Grown.append {a b c : Sm} (h : Grown a b) {e : Owner × Write Loc (Option Bytes)}
    (hb : c.base = b.base) (hl : c.log = b.log ++ [e]) (hn : c.nextTxn = b.nextTxn) : Grown a c := by
  have htake : c.log.take a.log.length = b.log.take a.log.length := by
    rw [hl, List.take_append_of_le_length h.length_le]
  exact ⟨hb.trans h.base, htake ▸ h.writes, htake ▸ h.old, hn ▸ h.nextTxn⟩

/-- Dropping writes that are all in the later part leaves the earlier part. -/
theorem keep_take {log : WriteLog Owner Loc (Option Bytes)} {n : Nat} {q : Owner → Bool}
    (hq : ∀ e ∈ log.take n, q e.1 = true) :
    log.keep q = log.take n ++ WriteLog.keep q (log.drop n) := by
  calc log.keep q
      = WriteLog.keep q (log.take n ++ log.drop n) := by rw [List.take_append_drop]
    _ = WriteLog.keep q (log.take n) ++ WriteLog.keep q (log.drop n) := List.filter_append ..
    _ = _ := by rw [WriteLog.keep, List.filter_eq_self.2 hq]

theorem Grown.take_length {a b : Sm} (h : Grown a b) :
    (b.log.take a.log.length).length = a.log.length := by
  rw [List.length_take, Nat.min_eq_left h.length_le]

theorem Grown.close {a b : Sm} (h : Grown a b) {smc : Csr} (hnew : a.nextTxn ≤ smc.txn)
    (deadlock : Bool) : Grown a (smCloseCursor b smc deadlock).1 := by
  have hne : ∀ e ∈ b.log.take a.log.length, e.1 ≠ smc.owner := fun e he ho =>
    absurd (h.old e he _ _ ho) (not_lt.2 hnew)
  have hlen := h.take_length
  unfold smCloseCursor
  split
  · have htake : (b.log.keep (fun o => decide (o ≠ smc.owner))).take a.log.length =
        b.log.take a.log.length := by
      rw [keep_take fun e he => decide_eq_true (hne e he), List.take_left' hlen]
    exact ⟨h.base, htake.symm ▸ h.writes, htake.symm ▸ h.old, h.nextTxn⟩
  · have htake : (b.log.reown smc.commit).take a.log.length = b.log.take a.log.length := by
      rw [WriteLog.reown, ← List.map_take]
      refine (List.map_congr_left fun e he => ?_).trans (List.map_id _)
      rw [Csr.commit, if_neg (hne e he)]
      rfl
    exact ⟨h.base, htake.symm ▸ h.writes, htake.symm ▸ h.old, h.nextTxn⟩

theorem Grown.quiet {aCsr : List (Option Csr)} {p : Nat} {a b c : Sm} (h : Grown a b)
    (hcsr : ∀ smc, some smc ∈ aCsr → smc.sm = p → a.nextTxn ≤ smc.txn) (hq : Quiet aCsr p b c) :
    Grown a c := by
  induction hq with
  | refl => exact h
  | cursor => exact ⟨h.base, h.writes, h.old, h.nextTxn.trans (Nat.le_succ _)⟩
  | close sm smc deadlock hm hp => exact h.close (hcsr smc hm hp) deadlock
  | write => exact h.append rfl rfl rfl
  | clear => exact h.append rfl rfl rfl
  | trans _ _ ih ih' => exact ih' (ih h)

/-- The state `vm` of a transaction, seen from its earlier state `s`. -/
structure Since (s vm : Vm) : Prop where
  grown : ∀ p, Grown (s.db.sm p) (vm.db.sm p)
  csr : ∀ smc, some smc ∈ vm.aCsr → (s.db.sm smc.sm).nextTxn ≤ smc.txn

theorem Since.refl {s : Vm} (h : Numbered s) (hc : s.aCsr = []) : Since s s where
  grown p := ⟨rfl, by rw [List.take_length], by rw [List.take_length]; exact h.log p, le_refl _⟩
  csr smc hm := by
    rw [hc] at hm
    cases hm

theorem Since.quiet {s vm vm' : Vm} (h : Since s vm)
    (hq : ∀ p, Quiet vm.aCsr p (vm.db.sm p) (vm'.db.sm p)) (hn : NewCursors vm vm') :
    Since s vm' where
  grown p := (h.grown p).quiet (fun smc hm hp => by rw [← hp]; exact h.csr smc hm) (hq p)
  csr smc hm := by
    rcases hn smc hm with hm | ⟨htxn, -⟩
    · exact h.csr smc hm
    · exact htxn ▸ (h.grown smc.sm).nextTxn

theorem Since.vdbeReset {s vm : Vm} (h : Since s vm) (deadlock : Csr → Bool) :
    Since s (L4.vdbeReset vm deadlock).1 := by
  obtain ⟨hq, hn⟩ := vdbeReset_quiet vm deadlock
  exact h.quiet hq hn

theorem Since.next {s vm vm' : Vm} {l : Label} (h : Since s vm) (hi : Inside vm l)
    (hs : L4.next vm l = some vm') : Since s vm' := by
  cases l with
  | reset deadlock =>
    cases hs
    exact ⟨(h.vdbeReset deadlock).grown, (h.vdbeReset deadlock).csr⟩
  | op o =>
    obtain ⟨-, vm₁, h₁, rfl⟩ := exec_cases hs
    have key : Since s vm₁ := by
      cases o with
      | commit | rollback => cases hi
      | transaction i ret =>
        obtain ⟨d, hd, ⟨-, rfl⟩ | ⟨-, hc, p, -, -, hsm⟩⟩ := opTransaction_cases h₁
        · exact h
        · refine ⟨fun q => ?_, fun smc hm => h.csr smc (hc ▸ hm)⟩
          rw [hsm, DBSQL.setSm]
          dsimp only
          split
          · rename_i hq
            subst hq
            exact ⟨(h.grown q).base, (h.grown q).writes, (h.grown q).old, (h.grown q).nextTxn⟩
          · exact h.grown q
      | checkpoint | openCursor | write | clear | close | halt | other =>
        obtain ⟨-, hq, hn⟩ := execOp_quiet rfl h₁
        exact h.quiet hq hn
    exact ⟨fun p => vdbeHalt_db vm₁ ▸ key.grown p,
      fun smc hm => key.csr smc (vdbeHalt_aCsr vm₁ ▸ hm)⟩

theorem Since.run {s vm : Vm} {ls : List Label} (hr : (machine.restrict Inside).Run s ls vm)
    (h : Numbered s) (hc : s.aCsr = []) : Since s vm :=
  hr.preserves (fun _ _ _ h hs => h.next hs.1 hs.2) (.refl h hc)

/-! ## The reset -/

theorem survives_old {s vm : Vm} (h : Since s vm) (deadlock : Csr → Bool) {p : Nat} {o : Owner}
    (ho : ∀ n b, o = .child n b → n < (s.db.sm p).nextTxn) :
    survives deadlock p vm.aCsr o = true := by
  have key : ∀ cs : List (Option Csr), (∀ smc, some smc ∈ cs → some smc ∈ vm.aCsr) →
      survives deadlock p cs o = true := by
    intro cs
    induction cs with
    | nil => exact fun _ => rfl
    | cons cx cs ih =>
      intro hcs
      have hrec := ih fun smc hm => hcs smc (.tail _ hm)
      cases cx with
      | none => exact hrec
      | some smc =>
        rw [survives, if_neg, hrec]
        rintro ⟨rfl, rfl⟩
        exact absurd (ho _ _ rfl) (not_lt.2 (h.csr smc (hcs smc (.head _))))
  exact key vm.aCsr fun _ h => h

/-- The contents after the reset are those of `s` with the kept writes on top. -/
theorem reset_contents {s vm : Vm} (h : Since s vm) (hm : vm.magic = .run ∨ vm.magic = .halt)
    (deadlock : Csr → Bool) (p : Nat) :
    ((vdbeReset vm deadlock).1.db.sm p).contents =
      WriteLog.contents (s.db.sm p).contents (kept s vm deadlock p) := by
  have hsm : (vdbeReset vm deadlock).1.db.sm = (closeAllCursors vm deadlock).db.sm := by
    obtain ⟨h₁, h₂, -⟩ | ⟨hsm, -⟩ := vdbeReset_cases vm deadlock
    · exact absurd hm (by tauto)
    · exact hsm
  obtain ⟨hbase, hlog⟩ := closeAllCursors_log vm deadlock p
  have hg := h.grown p
  have hold : ∀ e ∈ (vm.db.sm p).log.take (s.db.sm p).log.length,
      survives deadlock p vm.aCsr e.1 = true := fun e he => survives_old h deadlock (hg.old e he)
  calc ((vdbeReset vm deadlock).1.db.sm p).contents
      = WriteLog.contents (vm.db.sm p).base ((vm.db.sm p).log.keep (survives deadlock p vm.aCsr)) := by
        rw [Sm.contents, hsm, hbase, WriteLog.contents_congr _ hlog]
    _ = WriteLog.contents (WriteLog.contents (vm.db.sm p).base
          ((vm.db.sm p).log.take (s.db.sm p).log.length)) (kept s vm deadlock p) := by
        rw [keep_take hold, WriteLog.contents_append, kept]
    _ = _ := by rw [hg.base, WriteLog.contents_congr _ hg.writes, Sm.contents]

theorem reset_restores_iff {s vm : Vm} (h : Since s vm) (hm : vm.magic = .run ∨ vm.magic = .halt)
    (deadlock : Csr → Bool) :
    Restores s (vdbeReset vm deadlock).1 ↔ NetNothing s vm deadlock := by
  simp only [Restores, NetNothing, reset_contents h hm, WriteLog.contents_restores_iff]

/-- What a failed statement promises: with `OE_Abort` the contents `s` had when it
began, with `OE_Rollback` those `s₀` had when the transaction began. -/
structure AtomicReset (s₀ s vm : Vm) (deadlock : Csr → Bool) : Prop where
  abort : vm.errorAction = .abort → Restores s (vdbeReset vm deadlock).1
  rollback : vm.errorAction = .rollback → Restores s₀ (vdbeReset vm deadlock).1

/-- A statement that fails with a constraint error: `hist` are the steps from the start
`s₀` of the transaction to the start `s` of the statement, `stmt` its own. -/
structure FailedStatement (s₀ s vm : Vm) (hist stmt : List Label) : Prop where
  reachable : machine.Reachable s₀
  start : s₀.aCsr = []
  hist : (machine.restrict Inside).Run s₀ hist s
  begin : s.aCsr = []
  stmt : (machine.restrict Inside).Run s stmt vm
  halt : vm.magic = .halt
  rc : vm.rc = .constraint

/-- **When a failed statement is atomic.** Exactly when its surviving writes, or under
`OE_Rollback` those of the whole transaction, put back what they found. -/
theorem reset_atomic_iff (s₀ s vm : Vm) (hist stmt : List Label) (deadlock : Csr → Bool)
    (h : FailedStatement s₀ s vm hist stmt) :
    AtomicReset s₀ s vm deadlock ↔
      (vm.errorAction = .abort → NetNothing s vm deadlock) ∧
        (vm.errorAction = .rollback → NetNothing s₀ vm deadlock) := by
  have hn₀ : Numbered s₀ := numbered_inductive.reachable h.reachable
  have hn : Numbered s := numbered_inductive.reachable (h.reachable.run h.hist.of_restrict)
  have hm : vm.magic = .run ∨ vm.magic = .halt := .inr h.halt
  have hs := reset_restores_iff (Since.run h.stmt hn h.begin) hm deadlock
  have hs₀ := reset_restores_iff (Since.run (h.hist.append h.stmt) hn₀ h.start) hm deadlock
  exact ⟨fun ha => ⟨fun e => hs.1 (ha.abort e), fun e => hs₀.1 (ha.rollback e)⟩,
    fun hc => ⟨fun e => hs.2 (hc.1 e), fun e => hs₀.2 (hc.2 e)⟩⟩

/-! ## A statement that fails after its first row -/

/-- An insert in its own transaction: one row is written, then a constraint fails. -/
def insertProgram : List Op :=
  [.transaction 0 0, .openCursor 0 0 2 true (fun _ => false), .write 0 ⟨[1]⟩ (some [7]),
    .halt .constraint .abort]

def failedInsert : Vm := insertProgram.foldl (fun vm o => (exec vm o).getD vm) oneDb

theorem failedInsert_failed :
    FailedStatement oneDb oneDb failedInsert [] (insertProgram.map .op) where
  reachable := .init oneDb_start
  start := rfl
  hist := .nil _
  begin := rfl
  stmt := .cons ⟨trivial, rfl⟩ (.cons ⟨trivial, rfl⟩ (.cons ⟨trivial, rfl⟩ (.cons ⟨trivial, rfl⟩ (.nil _))))
  halt := rfl
  rc := rfl

theorem reset_atomic_iff_failedInsert :
    AtomicReset oneDb oneDb failedInsert (fun _ => false) ↔
      (failedInsert.errorAction = .abort → NetNothing oneDb failedInsert (fun _ => false)) ∧
        (failedInsert.errorAction = .rollback → NetNothing oneDb failedInsert (fun _ => false)) :=
  reset_atomic_iff oneDb oneDb failedInsert [] _ (fun _ => false) failedInsert_failed

/-- The row of the failed insert is still there after the reset. -/
theorem reset_keeps_failed_row :
    ¬ ∀ (s₀ s vm : Vm) (hist stmt : List Label) (deadlock : Csr → Bool),
      FailedStatement s₀ s vm hist stmt → AtomicReset s₀ s vm deadlock := by
  intro h
  have ha := (h oneDb oneDb failedInsert [] _ (fun _ => false) failedInsert_failed).abort rfl 0
  have hrow := congrFun ha (2, ⟨[1]⟩)
  revert hrow
  decide

end Dbsql.L4
