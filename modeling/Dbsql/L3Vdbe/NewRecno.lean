import Dbsql.L3Vdbe.TableCursor
/-!
# Rowid allocation

`OP_NewRecno` hands out one more than the largest rowid, which the cursor caches in
`nextRowid`; when the largest rowid is the largest integer it tries rowids at random.

**The cache.** `RowidInv`: while `nextRowidValid` is set, every rowid of the table is below
`nextRowid`. `OP_PutIntKey` should drop the cache when the rowid it writes reaches it, but
looks at the integer field of the record instead of the key.

**The random loop** ends at the first rowid above all rows, because `__sm_moveto` reports
a hit for every smaller one; a free rowid between two rows counts as taken.

Results:
* `probe_spec`: what the loop returns, in terms of the rowids it would try (`tries`).
* `newRecno_fresh`: in runs that meet `KeepsRowids`, `OP_NewRecno` pushes no rowid of the
  table and reports `DBSQL_FULL` only over rowids that are all taken.
-/
namespace Dbsql.L3
open Dbsql.Core Dbsql.L1 Dbsql.L2

/-- What `OP_NewRecno` promises: a new rowid, or that all it has looked up are taken. -/
structure NewRecnoSpec (s s' : St) (looked : List CInt) : Prop where
  fresh : ∀ v, s'.rc = .success → s'.out = .int v → (⟨rowidKey v⟩ : Dbt) ∉ s.t
  full : s'.rc = .full → ∀ v ∈ looked, (⟨rowidKey v⟩ : Dbt) ∈ s.t

/-- The rowids the random loop tries, were it to find all of them taken. -/
def tries : List Draw → CInt → Nat → List CInt
  | [], _, _ => []
  | d :: ds, v, cnt =>
    let v := nextTry d v cnt
    if v = 0 then tries ds v cnt
    else if cnt + 1 < 1000 then v :: tries ds v (cnt + 1)
    else [v]

/-- The loop decides rightly: one of its rowids is above all rows, or all are taken. -/
def Decides (t : Btree) (vs : List CInt) : Prop :=
  (∃ v ∈ vs, ∀ k ∈ t, k < ⟨rowidKey v⟩) ∨ ∀ v ∈ vs, (⟨rowidKey v⟩ : Dbt) ∈ t

/-- `OP_NewRecno` is going to try rowids at random. -/
def AtRandom (s : St) : Prop :=
  s.c.useRandomRowid = true ∨ (s.c.nextRowidValid = false ∧ (⟨rowidKey 0x7fffffff⟩ : Dbt) ∈ s.t)

instance (s : St) : Decidable (AtRandom s) := inferInstanceAs (Decidable (_ ∨ _ ∧ _))

/-- The steps that keep rowids unique: a rowid is not written past the cache unless the
integer field of the record reaches the cache too; the random loop decides rightly, and
its first rowid is not 0 where `rx` and `res` are not initialised. -/
def KeepsRowids (s : St) : Label → Prop
  | .putIntKey key pTosI _ =>
    s.c.nextRowidValid = true → s.c.nextRowid.toInt ≤ key.toInt → s.c.nextRowid.toInt ≤ pTosI.toInt
  | .newRecno draws rx res =>
    AtRandom s → Decides s.t (tries draws s.priorNewRowid 0) ∧
      (s.c.useRandomRowid = true → (rx = .success ∧ res = 0) ∨
        ∀ d ∈ draws.head?, nextTry d s.priorNewRowid 0 ≠ 0)
  | _ => True

theorem keepsRowids_newRecno {s : St} (h : ¬ AtRandom s) (draws : List Draw) (rx : Rc) (res : Int) :
    KeepsRowids s (.newRecno draws rx res) := fun hr => absurd hr h

/-! ## The random loop -/

theorem probe_spec (t : Btree) :
    ∀ (ds : List Draw) (v : CInt) (cnt : Nat) (rx : Rc) (res : Int) (pos : Option Dbt) (r : Probed),
      cnt < 1000 → ((rx = .success ∧ res = 0) ∨ ∀ d ∈ ds.head?, nextTry d v cnt ≠ 0) →
      probe t ds v cnt rx res pos = some r →
      (r.rx = .success ∧ r.res = 0 → r.looked = tries ds v cnt ∧
        ∀ w ∈ r.looked, ∃ k ∈ t, (⟨rowidKey w⟩ : Dbt) ≤ k) ∧
      (¬ (r.rx = .success ∧ r.res = 0) → ∀ k ∈ t, k < ⟨rowidKey r.v⟩)
  | [], v, cnt, rx, res, pos, r, _, _, h => by cases h
  | d :: ds, v, cnt, rx, res, pos, r, hcnt, hinit, h => by
    rw [probe] at h
    simp only at h
    rw [tries]
    by_cases hv : nextTry d v cnt = 0
    · have hok : rx = .success ∧ res = 0 := hinit.resolve_right fun hne => hne d rfl hv
      rw [if_pos hv, if_pos ⟨hcnt, hok⟩] at h
      rw [if_pos hv]
      exact probe_spec t ds _ cnt rx res pos r hcnt (.inl hok) h
    · rw [if_neg hv] at h
      rw [if_neg hv]
      have hrc : (smMoveto t pos (rowidKey (nextTry d v cnt)) res).rc = .success := smMoveto_rc
      have hres : (smMoveto t pos (rowidKey (nextTry d v cnt)) res).result = 0 ↔
          ∃ k ∈ t, (⟨rowidKey (nextTry d v cnt)⟩ : Dbt) ≤ k := smMoveto_result_eq_zero
      generalize smMoveto t pos (rowidKey (nextTry d v cnt)) res = m at h hrc hres
      by_cases hgo : cnt + 1 < 1000 ∧ m.rc = .success ∧ m.result = 0
      · rw [if_pos hgo] at h
        obtain ⟨r₀, h₀, rfl⟩ := Option.map_eq_some_iff.1 h
        obtain ⟨hfull, hfree⟩ :=
          probe_spec t ds _ (cnt + 1) m.rc m.result m.pos r₀ hgo.1 (.inl hgo.2) h₀
        refine ⟨fun hr => ?_, hfree⟩
        obtain ⟨hl, hle⟩ := hfull hr
        rw [if_pos hgo.1]
        refine ⟨congrArg _ hl, fun w hw => ?_⟩
        rcases List.mem_cons.1 hw with rfl | hw
        · exact hres.1 hgo.2.2
        · exact hle w hw
      · rw [if_neg hgo] at h
        cases h
        refine ⟨fun hr => ?_, fun hr => ?_⟩
        · have hlast : ¬ cnt + 1 < 1000 := fun hlt => hgo ⟨hlt, hr⟩
          rw [if_neg hlast]
          refine ⟨rfl, fun w hw => ?_⟩
          rw [List.mem_singleton.1 hw]
          exact hres.1 hr.2
        · intro k hk
          exact not_le.1 fun hle => hr ⟨hrc, hres.2 ⟨k, hk, hle⟩⟩

/-! ## The cache -/

structure RowidInv (s : St) : Prop where
  table : IsTable s.t
  cache : s.c.nextRowidValid = true → ∀ k ∈ s.t, k < ⟨rowidKey s.c.nextRowid⟩

theorem toInt_succ {v : CInt} (h : v.toInt < 0x7fffffff) : (v + 1).toInt = v.toInt + 1 := by
  have h₁ : (1 : CInt).toInt = 1 := rfl
  have h₂ := BitVec.le_toInt v
  rw [BitVec.toInt_add, h₁, Int.bmod_eq_of_le (by omega) (by omega)]

theorem toInt_max {v : CInt} (h : ¬ v.toInt < 0x7fffffff) : v = 0x7fffffff := by
  have h₁ : (0x7fffffff : CInt).toInt = 0x7fffffff := rfl
  have h₂ : v.toInt < 2 ^ (32 - 1) := BitVec.toInt_lt
  apply BitVec.eq_of_toInt_eq
  omega

/-- The rowid after the largest one, in a table: it is above all rows, unless the largest
rowid is the largest integer. -/
theorem largestRowid_spec {s : St} (h : RowidInv s) (hr : s.c.useRandomRowid = false) (rx : Rc)
    (res : Int) :
    (¬ AtRandom s ∧ (largestRowid s.t s.c rx res).c.useRandomRowid = false ∧
      ∀ k ∈ s.t, k < ⟨rowidKey (largestRowid s.t s.c rx res).v⟩) ∨
    (AtRandom s ∧ (largestRowid s.t s.c rx res).c.useRandomRowid = true ∧
      (largestRowid s.t s.c rx res).v = 0x7fffffff ∧
      (largestRowid s.t s.c rx res).rx = .success ∧ (largestRowid s.t s.c rx res).res = 0) := by
  unfold largestRowid
  cases hv : s.c.nextRowidValid with
  | true =>
    left
    simp only [if_true]
    exact ⟨by simp [AtRandom, hr, hv], hr, h.cache hv⟩
  | false =>
    simp only [Bool.false_eq_true, if_false]
    cases hl : s.t.last with
    | none =>
      left
      have hno := SortedMap.last_eq_none.1 hl
      rw [smLast_none hl, if_pos (show (1 : Int) ≠ 0 by decide)]
      exact ⟨by simp [AtRandom, hr, hno], hr, fun k hk => absurd hk (hno k)⟩
    | some e =>
      obtain ⟨he, hmax⟩ := SortedMap.last_some hl
      have hmem := SortedMap.mem_of_entry he
      obtain ⟨r, hkey⟩ := h.table e.1 hmem
      rw [hkey] at hmem hmax
      have hread : readRowid s.t (some ⟨rowidKey r⟩) (store .big 0) = r := readRowid_on hmem _ rfl
      rw [smLast_some hl]
      simp only [ne_eq, not_true_eq_false, if_false, hkey, hread]
      by_cases hr' : r = 0x7fffffff
      · right
        refine ⟨.inr ⟨hv, hr' ▸ hmem⟩, ?_⟩
        simp [hr']
      · left
        simp only [hr', if_false]
        have hlt : r.toInt < 0x7fffffff := by
          by_contra hn
          exact hr' (toInt_max hn)
        have habove : ∀ k ∈ s.t, k < ⟨rowidKey (r + 1)⟩ := fun k hk =>
          (hmax k hk).trans_lt (rowidKey_lt.2 (by rw [toInt_succ hlt]; omega))
        refine ⟨?_, hr, habove⟩
        rintro (hn | ⟨-, hn⟩)
        · rw [hr] at hn
          cases hn
        · have := rowidKey_le.1 (hmax _ hn)
          have h₁ : (0x7fffffff : CInt).toInt = 0x7fffffff := rfl
          omega

/-- The cache `cacheNext` sets is right when its rowid is above all rows. -/
theorem cacheNext_cache {t : Btree} {f : FirstStep} (h : ∀ k ∈ t, k < ⟨rowidKey f.v⟩)
    (hv : (cacheNext f).c.nextRowidValid = true) :
    ∀ k ∈ t, k < ⟨rowidKey (cacheNext f).c.nextRowid⟩ := by
  unfold cacheNext at hv ⊢
  split at hv
  · rename_i hlt
    intro k hk
    rw [if_pos hlt]
    refine (h k hk).trans (rowidKey_lt.2 ?_)
    rw [toInt_succ hlt]
    omega
  · cases hv

theorem cacheNext_frame (f : FirstStep) :
    (cacheNext f).v = f.v ∧ (cacheNext f).rx = f.rx ∧ (cacheNext f).res = f.res ∧
      (cacheNext f).c.useRandomRowid = f.c.useRandomRowid := by
  unfold cacheNext
  split <;> exact ⟨rfl, rfl, rfl, rfl⟩

/-- The three ways through the first step: at random from before, at random from now on,
or a rowid above all rows. -/
theorem firstStep_cases {s : St} (h : RowidInv s) (rx : Rc) (res : Int) :
    (s.c.useRandomRowid = true ∧ firstStep s.t s.c rx res = ⟨0, s.c, rx, res⟩) ∨
    (s.c.useRandomRowid = false ∧ AtRandom s ∧ (firstStep s.t s.c rx res).c.useRandomRowid = true ∧
      (firstStep s.t s.c rx res).c.nextRowidValid = false ∧
      (firstStep s.t s.c rx res).rx = .success ∧ (firstStep s.t s.c rx res).res = 0) ∨
    (¬ AtRandom s ∧ (firstStep s.t s.c rx res).c.useRandomRowid = false ∧
      (∀ k ∈ s.t, k < ⟨rowidKey (firstStep s.t s.c rx res).v⟩) ∧
      ((firstStep s.t s.c rx res).c.nextRowidValid = true →
        ∀ k ∈ s.t, k < ⟨rowidKey (firstStep s.t s.c rx res).c.nextRowid⟩)) := by
  unfold firstStep
  cases hr : s.c.useRandomRowid with
  | true => exact .inl ⟨rfl, rfl⟩
  | false =>
    right
    simp only [Bool.false_eq_true, if_false]
    obtain ⟨hv, hrx, hres, hu⟩ := cacheNext_frame (largestRowid s.t s.c rx res)
    obtain ⟨hn, hl, habove⟩ | ⟨ha, hl, hmax, hrc, hzero⟩ := largestRowid_spec h hr rx res
    · exact .inr ⟨hn, hu.trans hl, fun k hk => hv ▸ habove k hk, cacheNext_cache habove⟩
    · refine .inl ⟨trivial, ha, hu.trans hl, ?_, hrx.trans hrc, hres.trans hzero⟩
      rw [cacheNext, hmax, if_neg (by decide)]

/-! ## The opcode -/

/-- One `OP_NewRecno`: it keeps the cache right and, where the random loop decides rightly,
keeps its promise. -/
theorem opNewRecno_spec {s s' : St} {draws : List Draw} {rx : Rc} {res : Int} {looked : List CInt}
    (h : RowidInv s) (hrc : s.rc = .success) (hk : KeepsRowids s (.newRecno draws rx res))
    (hs : opNewRecno s draws rx res = some (s', looked)) :
    NewRecnoSpec s s' looked ∧ RowidInv s' := by
  have ht := opNewRecno_t hs
  have htable : IsTable s'.t := ht ▸ h.table
  have hcases := firstStep_cases h rx res
  unfold opNewRecno at hs
  simp only at hs
  generalize firstStep s.t s.c rx res = f at hs hcases
  by_cases hf : f.c.useRandomRowid = true
  · rw [if_pos hf] at hs
    obtain ⟨r, hr, heq⟩ := Option.map_eq_some_iff.1 hs
    obtain ⟨hat, hcache, hinit⟩ : AtRandom s ∧
        (f.c.nextRowidValid = true → ∀ k ∈ s.t, k < ⟨rowidKey f.c.nextRowid⟩) ∧
        ((f.rx = .success ∧ f.res = 0) ∨ ∀ d ∈ draws.head?, nextTry d s.priorNewRowid 0 ≠ 0) := by
      obtain ⟨hu, rfl⟩ | ⟨-, ha, -, hnv, hok⟩ | ⟨-, hn, -⟩ := hcases
      · exact ⟨.inl hu, h.cache, (hk (.inl hu)).2 hu⟩
      · exact ⟨ha, fun hv => absurd hv (by simp [hnv]), .inl hok⟩
      · rw [hn] at hf
        cases hf
    obtain ⟨hfull, hfree⟩ := probe_spec s.t draws _ 0 _ _ _ r (by decide) hinit hr
    split at heq
    · rename_i hexit
      cases heq
      obtain ⟨hl, hle⟩ := hfull hexit
      refine ⟨⟨fun v hv _ => (by cases hv), fun _ v hv => ?_⟩, htable, hcache⟩
      obtain ⟨w, hw, habove⟩ | hall := (hk hat).1
      · obtain ⟨k, hk', hwk⟩ := hle w (hl ▸ hw)
        exact absurd (habove k hk') (not_lt.2 hwk)
      · exact hall v (hl ▸ hv)
    · rename_i hexit
      cases heq
      refine ⟨⟨fun v _ hv hmem => ?_, fun hfull => ?_⟩, htable, hcache⟩
      · cases hv
        exact absurd (hfree hexit _ hmem) (lt_irrefl _)
      · rw [hrc] at hfull
        cases hfull
  · rw [if_neg hf] at hs
    cases hs
    obtain ⟨hu, rfl⟩ | ⟨-, -, hu, -⟩ | ⟨-, -, habove, hcache⟩ := hcases
    · exact absurd hu hf
    · exact absurd hu hf
    · refine ⟨⟨fun v _ hv hmem => ?_, fun _ v hv => (by cases hv)⟩, htable, hcache⟩
      cases hv
      exact absurd (habove _ hmem) (lt_irrefl _)

/-- `OP_PutIntKey` keeps the cache right when it drops it in time. -/
theorem opPutIntKey_inv {s : St} {key pTosI : CInt} {z : Bytes} (h : RowidInv s)
    (hk : KeepsRowids s (.putIntKey key pTosI z)) : RowidInv (opPutIntKey s key pTosI z) := by
  refine ⟨h.table.insert key z, fun hv => ?_⟩
  simp only [opPutIntKey] at hv ⊢
  split at hv
  · cases hv
  · rename_i hkeep
    rw [if_neg hkeep]
    intro k hk'
    rcases SortedMap.mem_insert.1 hk' with rfl | hk'
    · exact rowidKey_lt.2 (not_le.1 fun hle => hkeep ⟨hv, hk hv hle⟩)
    · exact h.cache hv k hk'

/-- The opcodes that only move the cursor leave the cache alone. -/
theorem vdbeCursorMoveto_alloc (t : Btree) (c : Cursor) :
    (vdbeCursorMoveto t c).nextRowidValid = c.nextRowidValid ∧
      (vdbeCursorMoveto t c).nextRowid = c.nextRowid := by
  unfold vdbeCursorMoveto
  split
  · dsimp only
    split <;> exact ⟨rfl, rfl⟩
  · exact ⟨rfl, rfl⟩

theorem moveFinish_alloc (t : Btree) (lt : Bool) (p2 : Int) (c : Cursor) (res : Int) :
    (moveFinish t lt p2 c res).1.nextRowidValid = c.nextRowidValid ∧
      (moveFinish t lt p2 c res).1.nextRowid = c.nextRowid := by
  unfold moveFinish
  dsimp only
  split
  · exact ⟨rfl, rfl⟩
  · split
    · split <;> exact ⟨rfl, rfl⟩
    · exact ⟨rfl, rfl⟩

theorem opMoveTo_alloc (t : Btree) (c : Cursor) (lt : Bool) (p2 : Int) (key : Key) :
    (opMoveTo t c lt p2 key).1.nextRowidValid = c.nextRowidValid ∧
      (opMoveTo t c lt p2 key).1.nextRowid = c.nextRowid := by
  unfold opMoveTo
  cases key with
  | int i =>
    dsimp only
    split
    · exact ⟨rfl, rfl⟩
    · exact moveFinish_alloc _ _ _ _ _
  | str z => exact moveFinish_alloc _ _ _ _ _

theorem RowidInv.moved {s s' : St} (h : RowidInv s) (ht : s'.t = s.t)
    (hc : s'.c.nextRowidValid = s.c.nextRowidValid ∧ s'.c.nextRowid = s.c.nextRowid) : RowidInv s' :=
  ⟨ht ▸ h.table, fun hv => by rw [ht, hc.2]; exact h.cache (hc.1 ▸ hv)⟩

theorem RowidInv.step {s s' : St} {l : Label} (h : RowidInv s) (hk : KeepsRowids s l)
    (hs : L3.step s l = some s') : RowidInv s' := by
  obtain ⟨hrc, hexec, -⟩ := step_t hs
  cases l with
  | newRecno draws rx res =>
    obtain ⟨⟨s₁, looked⟩, hn, rfl⟩ := Option.map_eq_some_iff.1 hexec
    exact (opNewRecno_spec h hrc hk hn).2
  | putIntKey key pTosI z =>
    cases hexec
    have := opPutIntKey_inv h hk
    exact ⟨this.table, this.cache⟩
  | delete =>
    cases hexec
    refine ⟨h.table.step hs, fun hv => ?_⟩
    cases hv
  | moveTo p2 key =>
    cases hexec
    exact h.moved rfl (opMoveTo_alloc _ _ _ _ _)
  | moveLt p2 key =>
    cases hexec
    exact h.moved rfl (opMoveTo_alloc _ _ _ _ _)
  | notExists key =>
    cases hexec
    refine h.moved rfl ?_
    unfold opNotExists St.moved
    dsimp only
    split <;> exact ⟨rfl, rfl⟩
  | next | prev =>
    cases hexec
    refine h.moved rfl ?_
    unfold opNext St.moved
    split <;> exact ⟨rfl, rfl⟩
  | recno v =>
    cases hexec
    refine h.moved rfl ?_
    dsimp only
    rw [opRecno_c]
    exact vdbeCursorMoveto_alloc s.t s.c
  | rewind | last | nullRow =>
    cases hexec
    exact h.moved rfl ⟨rfl, rfl⟩

theorem rowidInv_inductive : (cursorMachine.restrict KeepsRowids).Inductive RowidInv where
  init s h := ⟨h.table, fun hv => by rw [h.c] at hv; cases hv⟩
  step _ _ _ h hs := h.step hs.1 hs.2

/-- **Rowids are new.** In every run all of whose steps meet `KeepsRowids`, each
`OP_NewRecno` pushes no rowid of the table, and fails with `DBSQL_FULL` only when every
rowid it looked up is taken. -/
theorem newRecno_fresh (s s' : St) (draws : List Draw) (rx : Rc) (res : Int) (looked : List CInt)
    (hr : (cursorMachine.restrict KeepsRowids).Reachable s) (hrc : s.rc = .success)
    (hk : KeepsRowids s (.newRecno draws rx res))
    (hs : opNewRecno s draws rx res = some (s', looked)) : NewRecnoSpec s s' looked :=
  (opNewRecno_spec (rowidInv_inductive.reachable hr) hrc hk hs).1

/-- An empty table and a cursor just opened on it. -/
def emptyTable : St := ⟨SortedMap.empty, Cursor.opened, 0, .success, .nothing⟩

theorem emptyTable_opened : Opened emptyTable :=
  ⟨fun _ hk => absurd hk SortedMap.not_mem_empty, rfl, rfl⟩

/-- The row 1 is written with its new rowid and the row 7 past the cache, which is dropped; the
cursor goes from 1 to 7, which is deleted, and 5 is written. -/
def rowidRun : List Label :=
  [.newRecno [] .success 0, .putIntKey 1 0 [], .putIntKey 7 7 [], .notExists 1, .next,
    .newRecno [] .success 0, .delete, .putIntKey 5 0 []]

theorem newRecno_fresh_rowidRun :
    ∃ s s', (cursorMachine.restrict KeepsRowids).Run emptyTable rowidRun s ∧
      opNewRecno s [] .success 0 = some (s', []) ∧ s'.out = .int 6 ∧ NewRecnoSpec s s' [] := by
  have hrun : ∃ s, (cursorMachine.restrict KeepsRowids).Run emptyTable rowidRun s ∧
      s.rc = .success ∧ ¬ AtRandom s ∧ ∃ s', opNewRecno s [] .success 0 = some (s', []) ∧ s'.out = .int 6 := by
    refine ⟨_, .cons ⟨keepsRowids_newRecno (by decide +kernel) _ _ _, rfl⟩ <|
      .cons ⟨by unfold KeepsRowids; decide +kernel, rfl⟩ <|
      .cons ⟨by unfold KeepsRowids; decide +kernel, rfl⟩ <| .cons ⟨trivial, rfl⟩ <|
      .cons ⟨trivial, rfl⟩ <| .cons ⟨keepsRowids_newRecno (by decide +kernel) _ _ _, rfl⟩ <|
      .cons ⟨trivial, rfl⟩ <| .cons ⟨by unfold KeepsRowids; decide +kernel, rfl⟩ (.nil _), ?_, ?_, ?_⟩
    · decide +kernel
    · decide +kernel
    · exact ⟨_, rfl, by decide +kernel⟩
  obtain ⟨s, hrun, hrc, hrandom, s', hs, hout⟩ := hrun
  exact ⟨s, s', hrun, hs, hout, newRecno_fresh s s' [] .success 0 [] ⟨_, _, emptyTable_opened, hrun⟩ hrc
    (keepsRowids_newRecno hrandom _ _ _) hs⟩
/-- On an empty table: the cache says 2, row 2 is written with a record whose integer
field is 0, and the next `OP_NewRecno` pushes 2. -/
theorem newRecno_reuses_rowid :
    ¬ ∀ s, cursorMachine.Reachable s → ∀ (draws : List Draw) (rx : Rc) (res : Int) (s' : St)
      (looked : List CInt), s.rc = .success → opNewRecno s draws rx res = some (s', looked) →
      NewRecnoSpec s s' looked := by
  intro h
  have hs := h _ ⟨emptyTable, [.newRecno [] .success 0, .putIntKey 2 0 []], emptyTable_opened,
    .cons (rfl : step emptyTable _ = some _) (.cons (rfl : step _ _ = some _) (.nil _))⟩
    [] .success 0 _ _ rfl rfl
  exact absurd (SortedMap.mem_insert.2 (.inl rfl)) (hs.fresh 2 rfl rfl)

end Dbsql.L3
