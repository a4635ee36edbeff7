import Dbsql.L3Vdbe.TableCursor
/-!
# The cached rowid

`lastRecno` caches the rowid under the cursor while `recnoIsValid` is set, and
`deferredMoveto` postpones a move to `movetoTarget` until the row is needed. `Coherent` is
what `OP_Recno` relies on: on the null row neither is pending, and a valid cache is the key
the storage cursor stands on.

Three kinds of opcode break it: a move to a rowid that falls between two rows, which
`__sm_moveto` reports as a hit; `OP_Last` and `OP_Rewind`, which leave `recnoIsValid` as it
was; and `OP_NullRow`, `OP_Next` and `OP_Prev` over a pending move.

Results:
* `Coherent.step`: the steps of `StaysCoherent` keep the cache coherent.
* `recno_correct`: in runs of such steps `OP_Recno` pushes the rowid of the entry the
  storage cursor is on, and NULL on the null row.
-/
namespace Dbsql.L3
open Dbsql.Core Dbsql.L1 Dbsql.L2

/-- What `OP_Recno` promises, from `s` to `s'`. -/
structure RecnoSpec (s s' : St) : Prop where
  row : ∀ v, s'.out = .int v → s'.c.pos = some ⟨rowidKey v⟩ ∧ (⟨rowidKey v⟩ : Dbt) ∈ s.t
  null : s.c.nullRow = true → s'.out = .null

/-- `__sm_moveto` tells a hit from a miss at this key (`smMoveto_contract_iff`). -/
def Exact (t : Btree) (item : Bytes) : Prop := (⟨item⟩ : Dbt) ∈ t ∨ ∀ k ∈ t, k < ⟨item⟩

/-- The storage cursor is on an entry, or a pending move will put it on one. -/
def OnEntry (s : St) : Prop :=
  if s.c.deferredMoveto then Exact s.t s.c.movetoTarget ∧ ∃ k, k ∈ s.t
  else ∃ k ∈ s.t, s.c.pos = some k

/-- The steps that keep the cached rowid coherent. -/
def StaysCoherent (s : St) : Label → Prop
  | .moveTo p2 key => p2 ≠ 0 → Exact s.t (rowidKey key)
  | .notExists key => Exact s.t (rowidKey key)
  | .next => s.c.deferredMoveto = true → (smNext s.t s.c.pos 0).result = 0
  | .prev => s.c.deferredMoveto = true → (smPrev s.t s.c.pos 0).result = 0
  | .nullRow => s.c.deferredMoveto = false
  | .last => s.c.recnoIsValid = true → ∃ e, s.t.last = some e ∧ e.1 = ⟨rowidKey s.c.lastRecno⟩
  | .rewind => s.c.recnoIsValid = true → ∃ e, s.t.first = some e ∧ e.1 = ⟨rowidKey s.c.lastRecno⟩
  | .recno v => v.length = 4 ∧ (s.c.nullRow = false → OnEntry s)
  | .delete => s.c.deferredMoveto = true → Exact s.t s.c.movetoTarget
  | _ => True

structure Coherent (c : Cursor) : Prop where
  null : c.nullRow = true → c.recnoIsValid = false ∧ c.deferredMoveto = false
  valid : c.recnoIsValid = true → c.pos = some ⟨rowidKey c.lastRecno⟩
  target : c.deferredMoveto = true → ∃ r, c.movetoTarget = rowidKey r

/-- A cursor whose cache is off, and that is not on the null row or has nothing pending. -/
theorem Coherent.of_invalid {c : Cursor} (h : c.recnoIsValid = false)
    (hd : c.deferredMoveto = false) : Coherent c :=
  ⟨fun _ => ⟨h, hd⟩, fun hv => by simp [h] at hv, fun ht => by simp [hd] at ht⟩

/-! ## Moves -/

/-- Where the search is exact, `*result` is 0 only on the key itself. -/
theorem smMoveto_exact {t : Btree} {pos : Option Dbt} {item : Bytes} {result : Int}
    (h : Exact t item) (hr : (smMoveto t pos item result).result = 0) :
    (smMoveto t pos item result).pos = some ⟨item⟩ :=
  ((smMoveto_contract_iff t pos item result).2 h).on hr

theorem smMoveto_nonneg {t : Btree} {pos : Option Dbt} {item : Bytes} {result : Int}
    (h : ¬ (smMoveto t pos item result).result < 0) : (smMoveto t pos item result).result = 0 := by
  rcases smMoveto_cases t pos item result with ⟨e, -, h'⟩ | ⟨e, -, -, h'⟩ | ⟨-, h'⟩ <;>
    rw [h'] at h ⊢ <;> simp at h ⊢

/-- A pending move, once made, leaves the cache coherent. -/
theorem Coherent.cursorMoveto {t : Btree} {c : Cursor} (h : Coherent c)
    (he : c.deferredMoveto = true → Exact t c.movetoTarget) : Coherent (vdbeCursorMoveto t c) := by
  unfold vdbeCursorMoveto
  split
  · rename_i hd
    obtain ⟨r, hr⟩ := h.target hd
    have hnull : c.nullRow = false := by
      cases hn : c.nullRow with
      | false => rfl
      | true => rw [(h.null hn).2] at hd; cases hd
    dsimp only
    split
    · rename_i hneg
      refine .of_invalid ?_ rfl
      simpa using fun h0 : _ = (0 : Int) => by omega
    · refine ⟨fun hn => ?_, fun hv => ?_, fun hd => (by cases hd)⟩
      · rw [hnull] at hn
        cases hn
      · rw [smMoveto_exact (he hd) (by simpa using hv), hr, keyRowid_rowidKey]
  · exact h

theorem Coherent.moveTo {t : Btree} {c : Cursor} {p2 : Int} {key : CInt}
    (he : p2 ≠ 0 → Exact t (rowidKey key)) (h : Coherent c) :
    Coherent (opMoveTo t c false p2 (.int key)).1 := by
  unfold opMoveTo
  dsimp only
  split
  · rename_i hp
    refine ⟨fun hn => (by cases hn), h.valid, fun _ => ⟨key, rfl⟩⟩
  · rename_i hp
    have hp2 : p2 ≠ 0 := fun h0 => hp ⟨h0, rfl⟩
    unfold moveFinish
    dsimp only
    split
    · exact .of_invalid rfl rfl
    · rename_i hneg
      have hr := smMoveto_nonneg fun hlt => hneg ⟨rfl, hlt⟩
      simp only [Bool.false_eq_true, if_false]
      exact ⟨fun hn => (by cases hn), fun _ => smMoveto_exact (he hp2) hr, fun hd => (by cases hd)⟩

theorem Coherent.moveLt {t : Btree} {c : Cursor} {p2 : Int} {key : CInt} :
    Coherent (opMoveTo t c true p2 (.int key)).1 := by
  unfold opMoveTo
  dsimp only
  split
  · rename_i hp
    cases hp.2
  · unfold moveFinish
    dsimp only
    split
    · exact .of_invalid rfl rfl
    · simp only [if_true]
      split
      · exact .of_invalid rfl rfl
      · rename_i hneg
        refine .of_invalid ?_ rfl
        simpa using fun h0 : _ = (0 : Int) => by omega

theorem Coherent.notExists {t : Btree} {c : Cursor} {key : CInt} (h : Coherent c)
    (he : Exact t (rowidKey key)) : Coherent (opNotExists t c key).1 := by
  unfold opNotExists
  dsimp only
  split
  · exact ⟨fun hn => (by cases hn), fun hv => (by cases hv), h.target⟩
  · exact ⟨fun hn => (by cases hn), fun hv => smMoveto_exact he (by simpa using hv), h.target⟩

theorem Coherent.next {t : Btree} {c : Cursor} {prev : Bool} (h : Coherent c)
    (hd : c.deferredMoveto = true →
      (if prev then smPrev t c.pos 0 else smNext t c.pos 0).result = 0) :
    Coherent (opNext t c prev).1 := by
  unfold opNext
  split
  · rename_i hn
    exact .of_invalid rfl (h.null hn).2
  · refine ⟨fun hn => ⟨rfl, ?_⟩, fun hv => (by cases hv), h.target⟩
    cases hp : c.deferredMoveto with
    | false => rfl
    | true => exact absurd (hd hp) (of_decide_eq_true hn)

/-- `OP_Last` and `OP_Rewind`, which keep `recnoIsValid`: a valid cache has to be the key they
land on. -/
theorem Coherent.lands {c : Cursor} {m : Moved}
    (hv : c.recnoIsValid = true → m.result = 0 ∧ m.pos = some ⟨rowidKey c.lastRecno⟩) :
    Coherent { c with
      pos := m.pos
      nullRow := decide (m.result ≠ 0)
      deferredMoveto := false } := by
  cases hr : c.recnoIsValid with
  | false => exact .of_invalid rfl rfl
  | true =>
    obtain ⟨h0, hpos⟩ := hv hr
    exact ⟨fun hn => absurd h0 (of_decide_eq_true hn), fun _ => hpos, fun hd => (by cases hd)⟩

theorem Coherent.last {t : Btree} {c : Cursor}
    (hv : c.recnoIsValid = true → ∃ e, t.last = some e ∧ e.1 = ⟨rowidKey c.lastRecno⟩) :
    Coherent (opLast t c) := by
  refine Coherent.lands fun hr => ?_
  obtain ⟨e, hl, he⟩ := hv hr
  rw [smLast_some hl]
  exact ⟨rfl, congrArg some he⟩

theorem Coherent.rewind {t : Btree} {c : Cursor}
    (hv : c.recnoIsValid = true → ∃ e, t.first = some e ∧ e.1 = ⟨rowidKey c.lastRecno⟩) :
    Coherent (opRewind t c) := by
  refine Coherent.lands fun hr => ?_
  obtain ⟨e, hl, he⟩ := hv hr
  rw [smFirst_some hl]
  exact ⟨rfl, congrArg some he⟩

/-! ## Steps -/

/-- An `OP_NewRecno` that succeeds turns the cache off. -/
theorem opNewRecno_coherent {s s' : St} {draws : List Draw} {rx : Rc} {res : Int} {looked : List CInt}
    (h : opNewRecno s draws rx res = some (s', looked)) (hrc : s'.rc = .success) : Coherent s'.c := by
  unfold opNewRecno at h
  simp only at h
  split at h
  · obtain ⟨r, -, hr⟩ := Option.map_eq_some_iff.1 h
    split at hr
    · cases hr
      cases hrc
    · cases hr
      exact .of_invalid rfl rfl
  · cases h
    exact .of_invalid rfl rfl

/-- The invariant of a run: the program has ended, or the cache is coherent. -/
structure RecnoInv (s : St) : Prop where
  table : IsTable s.t
  coherent : s.rc = .success → Coherent s.c

theorem OnEntry.pending {s : St} (h : Coherent s.c) (he : s.c.nullRow = false → OnEntry s)
    (hd : s.c.deferredMoveto = true) : Exact s.t s.c.movetoTarget := by
  cases hn : s.c.nullRow with
  | true => rw [(h.null hn).2] at hd; cases hd
  | false =>
    have := he hn
    rw [OnEntry, if_pos hd] at this
    exact this.1

theorem RecnoInv.step {s s' : St} {l : Label} (h : RecnoInv s) (hk : StaysCoherent s l)
    (hs : L3.step s l = some s') : RecnoInv s' := by
  refine ⟨h.table.step hs, fun hrc' => ?_⟩
  obtain ⟨hrc, hexec, -⟩ := step_t hs
  have hc := h.coherent hrc
  cases l with
  | moveTo p2 key =>
    cases hexec
    exact hc.moveTo hk
  | moveLt p2 key =>
    cases hexec
    exact Coherent.moveLt
  | notExists key =>
    cases hexec
    exact hc.notExists hk
  | next | prev =>
    cases hexec
    exact hc.next hk
  | rewind =>
    cases hexec
    exact Coherent.rewind hk
  | last =>
    cases hexec
    exact Coherent.last hk
  | nullRow =>
    cases hexec
    exact .of_invalid rfl hk
  | recno v =>
    cases hexec
    dsimp only
    rw [opRecno_c]
    exact hc.cursorMoveto (OnEntry.pending hc hk.2)
  | newRecno draws rx res =>
    obtain ⟨⟨s₁, looked⟩, hn, rfl⟩ := Option.map_eq_some_iff.1 hexec
    exact opNewRecno_coherent hn hrc'
  | putIntKey key pTosI z =>
    cases hexec
    exact .of_invalid rfl rfl
  | delete =>
    cases hexec
    have := hc.cursorMoveto hk
    exact ⟨this.null, this.valid, this.target⟩

theorem recnoInv_inductive : (cursorMachine.restrict StaysCoherent).Inductive RecnoInv where
  init _ h := ⟨h.table, fun _ => h.c ▸ .of_invalid rfl rfl⟩
  step _ _ _ h hs := h.step hs.1 hs.2

/-! ## `OP_Recno` -/

/-- Once a pending move is made, a cursor on an entry stands on it. -/
theorem OnEntry.cursorMoveto {s : St} (he : OnEntry s) : ∃ k ∈ s.t,
    (vdbeCursorMoveto s.t s.c).pos = some k := by
  unfold vdbeCursorMoveto
  rw [OnEntry] at he
  split
  · rename_i hd
    rw [if_pos hd] at he
    obtain ⟨hex, k₀, hk₀⟩ := he
    rcases smMoveto_cases s.t s.c.pos s.c.movetoTarget 0 with ⟨e, hc, h⟩ | ⟨e, -, hl, h⟩ | ⟨hno, -⟩
    · simp only [h, Int.lt_irrefl, if_false]
      exact ⟨e.1, SortedMap.mem_of_entry (SortedMap.ceil_some hc).1, rfl⟩
    · obtain ⟨hmem, hmax⟩ := SortedMap.last_some hl
      -- nothing is above the last entry, so the `__sm_next` leaves the cursor there
      have hs : s.t.succ e.1 = none := SortedMap.succ_eq_none.2 hmax
      refine ⟨e.1, SortedMap.mem_of_entry hmem, ?_⟩
      simp only [h, smNext, cGet, hs, moved, advanced, Int.reduceNeg, Int.reduceLT, if_true]
    · exact absurd hk₀ (hno k₀)
  · rename_i hd
    rwa [if_neg hd] at he

theorem vdbeCursorMoveto_nullRow (t : Btree) (c : Cursor) :
    (vdbeCursorMoveto t c).nullRow = c.nullRow := by
  unfold vdbeCursorMoveto
  split
  · dsimp only
    split <;> rfl
  · rfl

/-- On an entry a coherent cursor pushes its rowid, from the cache or from the key. -/
theorem opRecno_on {t : Btree} {c : Cursor} {v : Bytes} {r : CInt}
    (hc : Coherent (vdbeCursorMoveto t c)) (hn : c.nullRow = false) (hv : v.length = 4)
    (hk : ⟨rowidKey r⟩ ∈ t) (hpos : (vdbeCursorMoveto t c).pos = some ⟨rowidKey r⟩) :
    (opRecno t c v).2 = .int r := by
  unfold opRecno
  dsimp only
  split
  · rename_i hvalid
    have hkey := hc.valid hvalid
    rw [hpos, Option.some.injEq, Dbt.mk.injEq] at hkey
    rw [rowidKey_inj.1 hkey]
  · split
    · rename_i hnull
      rw [vdbeCursorMoveto_nullRow, hn] at hnull
      cases hnull
    · rw [hpos, readRowid_on hk v hv]

/-- On the null row a coherent cursor pushes NULL. -/
theorem opRecno_nullRow {t : Btree} {c : Cursor} {v : Bytes} (hc : Coherent c)
    (hn : c.nullRow = true) : (opRecno t c v).2 = .null := by
  obtain ⟨hv, hd⟩ := hc.null hn
  have hsame : vdbeCursorMoveto t c = c := by
    unfold vdbeCursorMoveto
    rw [if_neg (by simp [hd])]
  unfold opRecno
  simp only [hsame, hv, hn, Bool.false_eq_true, if_false, if_true]

/-- **The rowid is that of the entry.** In every run all of whose steps are among
`StaysCoherent`, each `OP_Recno` pushes the rowid of the entry the storage cursor is on, and
NULL whenever the cursor is on the null row. -/
theorem recno_correct (s s' : St) (v : Bytes)
    (hr : (cursorMachine.restrict StaysCoherent).Reachable s) (hk : StaysCoherent s (.recno v))
    (hs : cursorMachine.step s (.recno v) s') : RecnoSpec s s' := by
  have hinv := recnoInv_inductive.reachable hr
  obtain ⟨hrc, hexec, -⟩ := step_t hs
  cases hexec
  have hc := hinv.coherent hrc
  have hc' := hc.cursorMoveto (OnEntry.pending hc hk.2)
  cases hn : s.c.nullRow with
  | true =>
    have hout := opRecno_nullRow (t := s.t) (v := v) hc hn
    refine ⟨fun w hw => ?_, fun _ => hout⟩
    rw [hout] at hw
    cases hw
  | false =>
    obtain ⟨k, hmem, hpos⟩ := (hk.2 hn).cursorMoveto
    obtain ⟨r, rfl⟩ := hinv.table k hmem
    have hout := opRecno_on hc' hn hk.1 hmem hpos
    refine ⟨fun w hw => ?_, fun h => by rw [hn] at h; cases h⟩
    rw [hout] at hw
    cases hw
    exact ⟨(congrArg Cursor.pos (opRecno_c s.t s.c v)).trans hpos, hmem⟩

/-- A table with the one row 5, and a cursor just opened on it. -/
def rowFive : St :=
  ⟨SortedMap.empty.insert ⟨rowidKey 5⟩ [], Cursor.opened, 0, .success, .nothing⟩

theorem rowFive_opened : Opened rowFive :=
  ⟨IsTable.insert (fun _ hk => absurd hk SortedMap.not_mem_empty) 5 [], rfl, rfl⟩

theorem recno_correct_rowFive : ∃ s s', StaysCoherent s (.recno [0, 0, 0, 0]) ∧
    cursorMachine.step s (.recno [0, 0, 0, 0]) s' ∧ s'.out = .int 5 ∧ RecnoSpec s s' := by
  have hk : StaysCoherent (rowFive.moved (opRewind rowFive.t rowFive.c)) (.recno [0, 0, 0, 0]) :=
    ⟨rfl, fun _ => ⟨⟨rowidKey 5⟩, SortedMap.mem_insert.2 (.inl rfl), rfl⟩⟩
  exact ⟨_, _, hk, rfl, rfl, recno_correct (rowFive.moved (opRewind rowFive.t rowFive.c)) _ _
    (.step (.init rowFive_opened) (l := .rewind) ⟨fun hv => (by cases hv), rfl⟩) hk rfl⟩

/-- With only row 5, a move to 3 that is not deferred stands on 5, and `OP_Recno` pushes 3. -/
theorem recno_pushes_target :
    ¬ ∀ s, cursorMachine.Reachable s → ∀ v s', v.length = 4 →
      cursorMachine.step s (.recno v) s' → RecnoSpec s s' := by
  intro h
  have hs := h _ ⟨rowFive, [.moveTo 1 3], rowFive_opened,
    .cons (rfl : step rowFive _ = some _) (.nil _)⟩ [0, 0, 0, 0] _ rfl (rfl : step _ _ = some _)
  have := (hs.row 3 rfl).2
  rcases SortedMap.mem_insert.1 this with h3 | h3
  · exact absurd h3 (by decide)
  · exact absurd h3 SortedMap.not_mem_empty

end Dbsql.L3
