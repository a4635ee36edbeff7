import Dbsql.L5Codegen.RowKey
/-!
# Deleting a row (cg_delete.c:432-510)

The code of `__generate_row_index_delete` removes the keys of the row under the table's cursor
from the indices it is coded for; that of `__generate_row_delete` removes the row as well.

Results:
* `rowIndexDelete_runs`, `rowDelete_runs`: what the code does to a row that is there.
-/
namespace Dbsql.L5.Rows
open Dbsql.Core Dbsql.L1 Dbsql.L2 Dbsql.L3 Dbsql.L3.Row

section
variable {L : Type} {ar : Arith L} {en : Endian} {junk : Unset} {prog : Nat → Option Op}
variable {tab : Table}

/-- The columns of the row are pushed. -/
theorem pushRowCols_runs {ix : Index} {cur : Nat} {c : Cursor} {r : CInt} {row : Dbt × Bytes}
    (hfix : ∀ t, vdbeCursorMoveto t c = c) (st : List Val) : ∀ (rest : List Nat) (a : Nat) (s : Vm)
      (vs : List Val) (fields : List Mem), CodeAt prog a (pushRowCols tab cur vs.length rest) →
      s.aCsr cur = .table c → L3.payload s.t c = row.2 → s.stack = vs.reverse ++ .int r none :: st →
      rest.mapM (indexedColumn (idxDef tab ix) row.2 r junk.hdr) = some fields →
      ∃ vs', vs'.length = rest.length ∧ List.Forall₂ (SameField ar.ld) (vs'.map Val.toMem) fields ∧
        Ends (Row.exec ar en junk) prog
          (· = (a + rest.length, { s with stack := (vs ++ vs').reverse ++ .int r none :: st }))
            (a, s) := by
  intro rest
  induction rest with
  | nil =>
    intro a s vs fields _ _ _ hst hm
    rw [List.mapM_nil] at hm
    cases hm
    refine ⟨[], rfl, .nil, .here ?_⟩
    rw [List.append_nil, ← hst]
    rfl
  | cons n rest ih =>
    intro a s vs fields hc hcsr hpay hst hm
    rw [List.mapM_cons] at hm
    obtain ⟨m, hfirst, hm⟩ := Option.bind_eq_some_iff.1 hm
    obtain ⟨ms, hrest, hm⟩ := Option.bind_eq_some_iff.1 hm
    cases hm
    -- the opcode for this column pushes a value of the same field
    have hop : ∃ v, SameField ar.ld v.toMem m ∧ Row.exec ar en junk
        (if tab.iPKey = some n then .dup vs.length else .column cur n) (a, s) =
          some (a + 1, { s with stack := v :: s.stack }) := by
      by_cases hpk : tab.iPKey = some n
      · rw [if_pos hpk]
        refine ⟨.int r none, ?_, exec_dup (by simp [hst])⟩
        rw [indexedColumn, if_pos (show (idxDef tab ix).iPKey = some n from hpk)] at hfirst
        cases hfirst
        exact .refl _
      · rw [if_neg hpk]
        obtain ⟨v, hv, hsame⟩ := sameField_column (d := idxDef tab ix) hpk hfirst
        refine ⟨v, hsame, ?_⟩
        simp only [Row.exec, execColumn, hcsr, hfix, hpay, hv, Option.map_some, setCsr_self hcsr]
    obtain ⟨v, hsame, hexec⟩ := hop
    have hstep := ih (a + 1) { s with stack := v :: s.stack } (vs ++ [v]) ms
      (by rw [List.length_append, List.length_singleton]; exact hc.tail) hcsr hpay
        (by simp [hst]) hrest
    obtain ⟨vs', hlen, hall, hends⟩ := hstep
    refine ⟨v :: vs', congrArg (· + 1) hlen, .cons hsame hall, Ends.op hc.head hexec ?_⟩
    rw [List.append_assoc, List.singleton_append, Nat.add_assoc, Nat.add_comm 1] at hends
    exact hends

theorem pushRowCols_length (tab : Table) (cur : Nat) (rest : List Nat) : ∀ j,
    (pushRowCols tab cur j rest).length = rest.length := by
  induction rest with
  | nil => exact fun _ => rfl
  | cons n rest ih => exact fun j => congrArg (· + 1) (ih (j + 1))

/-- The state after the key `k` of a row has been removed from the index `n`. -/
def idxDeleted (s : Vm) (cur : Nat) (c : Cursor) (m n : Nat) (k : Dbt) : Vm :=
  ((s.setCsr cur (.table c)).setCsr m (.index n (some k))).setIdx n ((s.idx n).erase k)

/-- The code for one index removes the key of the row. -/
theorem idxDelete_runs {ix : Index} {cur i n a : Nat} {c : Cursor} {r : CInt} {row : Dbt × Bytes} {s : Vm}
    {pos : Option Dbt} {k : Dbt} (hj : junk.v.length = 4) (hc : CodeAt prog a (idxDelete tab cur i ix))
    (hcsr : s.aCsr cur = .table c) (hp : Points s.t c r) (hrow : row ∈ s.t.entries)
    (hkey : row.1 = ⟨rowidKey r⟩) (hi : 0 < i) (hidx : s.aCsr (cur + i) = .index n pos)
    (hk : rowKey ar.ld junk.toJunk tab ix row = some k) (hmem : k ∈ s.idx n) :
    Ends (Row.exec ar en junk) prog (· = (a + (idxDelete tab cur i ix).length,
      idxDeleted s cur (vdbeCursorMoveto s.t c) (cur + i) n k)) (a, s) := by
  obtain ⟨fields, hfields, rfl⟩ := Option.map_eq_some_iff.1 hk
  rw [hkey, keyRowid_rowidKey] at hmem ⊢
  rw [rowFields, indexedColumns, hkey, keyRowid_rowidKey] at hfields
  have hne : cur + i ≠ cur := by omega
  let s₁ : Vm := { s.setCsr cur (.table (vdbeCursorMoveto s.t c)) with stack := .int r none :: s.stack }
  have hcsr₁ : s₁.aCsr cur = .table (vdbeCursorMoveto s.t c) := Function.update_self ..
  obtain ⟨vs, hlen, hall, hends⟩ := @pushRowCols_runs L ar en junk prog tab ix cur
    (vdbeCursorMoveto s.t c) r row
    (fun t => vdbeCursorMoveto_of_not_deferred (vdbeCursorMoveto_deferred s.t c))
    s.stack ix.aiColumn (a + 1) s₁ [] fields hc.left.tail hcsr₁ (hp.payload hrow hkey) rfl hfields
  refine Ends.op hc.left.left.head (t := (a + 1, s₁)) ?_ (Ends.trans hends ?_)
  · simp only [Row.exec, execRecno, hcsr, hp.recno hj]
    rfl
  have hc' := hc.after (b := a + 1 + ix.aiColumn.length) (by simp [pushRowCols_length]; omega)
  have hkeyeq : makeIdxKey ar.ld (some (idxKeyType tab ix)) (vs.map Val.toMem) r =
      makeIdxKey ar.ld (some (idxKeyType tab ix)) fields r := by
    rw [makeIdxKey, makeIdxKey, makeKey_congr hall]
  rw [← hlen] at hc' ⊢
  have hpc : (idxDelete tab cur i ix).length = vs.length + 3 := by
    simp [idxDelete, pushRowCols_length, hlen]
  refine Ends.op hc'.head (exec_makeIdxKey rfl) ?_
  rw [hkeyeq, if_neg (fun h => h.1 rfl)]
  have hidx' : s₁.aCsr (cur + i) = .index n pos := (Function.update_of_ne hne ..).trans hidx
  refine Ends.op hc'.tail.head (exec_idxDelete rfl hidx' hmem) (Ends.here ?_)
  rw [hpc, show a + (vs.length + 3) = a + 1 + vs.length + 1 + 1 by omega]
  rfl

/-! ## All indices -/

/-- The indices without the keys of a row. -/
def idxWithout {L : Type} (fp : LongDouble L) (junk : Junk) (tab : Table) (used : Nat → Bool)
    (row : Dbt × Bytes) (idx : Nat → Btree) (n : Nat) : Btree :=
  match tab.pIndex[n]?.bind fun ix => rowKey fp junk tab ix row with
  | some k => if used n then (idx n).erase k else idx n
  | none => idx n

/-- The cursors of the used indices are open. -/
def UsedOpen (tab : Table) (s : Vm) (cur : Nat) (used : Nat → Bool) : Prop :=
  ∀ n, n < tab.pIndex.length → used n = true → ∃ pos, s.aCsr (cur + (n + 1)) = .index n pos

theorem UsedOpen.like {s s' : Vm} {cur : Nat} {used : Nat → Bool} (h : UsedOpen tab s cur used)
    (hlike : s.Like s') : UsedOpen tab s' cur used :=
  fun n hn hu => hlike.index (h n hn hu)

/-- The table's cursor is on the row, and the cursors of the used indices are open. -/
structure Under (tab : Table) (s : Vm) (cur : Nat) (used : Nat → Bool) (row : Dbt × Bytes) (r : CInt) :
    Prop where
  cursor : ∃ c, s.aCsr cur = .table c ∧ Points s.t c r
  mem : row ∈ s.t.entries
  key : row.1 = ⟨rowidKey r⟩
  opened : UsedOpen tab s cur used

/-- What `__generate_row_index_delete` does, from `s` to `s'`. -/
structure KeysGone (tab : Table) (fp : LongDouble L) (junk : Junk) (cur : Nat) (used : Nat → Bool)
    (row : Dbt × Bytes) (r : CInt) (s s' : Vm) : Prop where
  stack : s'.stack = s.stack
  t : s'.t = s.t
  like : s.Like s'
  cursor : ∃ c, s'.aCsr cur = .table c ∧ Points s'.t c r ∧
    ∀ c', s.aCsr cur = .table c' → c'.deferredMoveto = false → c.deferredMoveto = false
  idx : ∀ n, s'.idx n = idxWithout fp junk tab used row s.idx n

theorem idxDeleted_like {s : Vm} {cur m n : Nat} {c c' : Cursor} {pos : Option Dbt} {k : Dbt}
    (hcsr : s.aCsr cur = .table c) (hidx : s.aCsr m = .index n pos) (hne : m ≠ cur) :
    s.Like (idxDeleted s cur c' m n k) := by
  have h : s.Like (s.setCsr cur (.table c')) := (Vm.Like.refl s).setCsr (hcsr ▸ .table c c')
  refine h.setCsr ?_
  have hm : (s.setCsr cur (.table c')).aCsr m = .index n pos :=
    (Function.update_of_ne hne ..).trans hidx
  exact hm ▸ .index n pos (some k)

theorem rowIndexDeleteFrom_runs {cur : Nat} {used : Nat → Bool} {r : CInt} {row : Dbt × Bytes}
    (hj : junk.v.length = 4) : ∀ (rest : List Index) (j a : Nat) (s : Vm), tab.pIndex.drop j = rest →
      CodeAt prog a (rowIndexDeleteFrom tab cur used (j + 1) rest) →
      Under tab s cur used row r →
      (∀ n ix, j ≤ n → tab.pIndex[n]? = some ix → used n = true →
        ∃ k, rowKey ar.ld junk.toJunk tab ix row = some k ∧ k ∈ s.idx n) →
      ∃ s', s'.stack = s.stack ∧ s'.t = s.t ∧ s.Like s' ∧
        (∃ c, s'.aCsr cur = .table c ∧ Points s'.t c r ∧
          ∀ c', s.aCsr cur = .table c' → c'.deferredMoveto = false → c.deferredMoveto = false) ∧
        (∀ n, s'.idx n = if j ≤ n then idxWithout ar.ld junk.toJunk tab used row s.idx n
          else s.idx n) ∧
        Ends (Row.exec ar en junk) prog
          (· = (a + (rowIndexDeleteFrom tab cur used (j + 1) rest).length, s')) (a, s) := by
  intro rest
  induction rest with
  | nil =>
    intro j a s hl _ hu _
    obtain ⟨c, hcsr, hp⟩ := hu.cursor
    refine ⟨s, rfl, rfl, .refl s, ⟨c, hcsr, hp, fun c' hc' hd => ?_⟩, fun n => ?_, .here rfl⟩
    · rw [hcsr, Csr.table.injEq] at hc'
      exact hc' ▸ hd
    split
    · rename_i hn
      have hnone : tab.pIndex[n]? = none := by
        have := List.drop_eq_nil_iff.1 hl
        exact List.getElem?_eq_none (by omega)
      rw [idxWithout, hnone]
      rfl
    · rfl
  | cons ix rest ih =>
    intro j a s hl hc hu hkeys
    have hix : tab.pIndex[j]? = some ix := by
      rw [← Nat.add_zero j, ← List.getElem?_drop, hl]
      rfl
    have hlt : j < tab.pIndex.length := (List.getElem?_eq_some_iff.1 hix).1
    have hl' : tab.pIndex.drop (j + 1) = rest := by
      rw [← List.drop_drop, hl]
      rfl
    rw [rowIndexDeleteFrom] at hc ⊢
    simp only [Nat.add_sub_cancel] at hc ⊢
    by_cases huse : used j = true
    · rw [if_pos huse] at hc ⊢
      obtain ⟨k, hk, hmem⟩ := hkeys j ix (Nat.le_refl j) hix huse
      obtain ⟨c, hcsr, hp⟩ := hu.cursor
      obtain ⟨pos, hidx⟩ := hu.opened j hlt huse
      have hone := @idxDelete_runs L ar en _ _ _ _ _ _ _ _ _ _ _ _ _ _ hj hc.left hcsr hp hu.mem
        hu.key (Nat.succ_pos j)
        hidx hk hmem
      have hlike : s.Like (idxDeleted s cur (vdbeCursorMoveto s.t c) (cur + (j + 1)) j k) :=
        idxDeleted_like hcsr hidx (by omega)
      have hother : ∀ n, n ≠ j →
          (idxDeleted s cur (vdbeCursorMoveto s.t c) (cur + (j + 1)) j k).idx n = s.idx n :=
        fun n hn => Function.update_of_ne hn ..
      have hcur : (idxDeleted s cur (vdbeCursorMoveto s.t c) (cur + (j + 1)) j k).aCsr cur =
          .table (vdbeCursorMoveto s.t c) :=
        (Function.update_of_ne (show cur ≠ cur + (j + 1) by omega) ..).trans (Function.update_self ..)
      obtain ⟨s', hst, ht, hl₁, ⟨c₁, hc₁, hp₁, hd₁⟩, hi, hends⟩ := ih (j + 1) _
        (idxDeleted s cur (vdbeCursorMoveto s.t c) (cur + (j + 1)) j k) hl' hc.right
        ⟨⟨_, hcur, hp.moveto⟩, hu.mem, hu.key, hu.opened.like hlike⟩ fun n ix' hn hix' hu' => by
          rw [hother n (by omega)]
          exact hkeys n ix' (by omega) hix' hu'
      refine ⟨s', hst, ht, hlike.trans hl₁,
        ⟨c₁, hc₁, hp₁, fun _ _ _ => hd₁ _ hcur (vdbeCursorMoveto_deferred s.t c)⟩, fun n => ?_, ?_⟩
      · rw [hi n]
        rcases Nat.lt_trichotomy n j with hn | rfl | hn
        · rw [if_neg (by omega), if_neg (by omega), hother n (by omega)]
        · rw [if_neg (by omega), if_pos (Nat.le_refl n), idxWithout, hix]
          simp only [Option.bind_some, hk, huse, if_true]
          exact Function.update_self ..
        · rw [if_pos (by omega), if_pos (by omega), idxWithout, idxWithout, hother n (by omega)]
      · rw [List.length_append, ← Nat.add_assoc]
        exact Ends.trans hone hends
    · rw [if_neg huse, List.nil_append] at hc ⊢
      obtain ⟨s', hst, ht, hl₁, hcs, hi, hends⟩ := ih (j + 1) a s hl' hc hu fun n ix' hn =>
        hkeys n ix' (by omega)
      refine ⟨s', hst, ht, hl₁, hcs, fun n => ?_, hends⟩
      rw [hi n]
      rcases Nat.lt_trichotomy n j with hn | rfl | hn
      · rw [if_neg (by omega), if_neg (by omega)]
      · rw [if_neg (by omega), if_pos (Nat.le_refl n), idxWithout, hix]
        simp only [Option.bind_some, if_neg huse]
        split <;> rfl
      · rw [if_pos (by omega), if_pos (by omega)]

/-- **The keys of a row leave the indices.** -/
theorem rowIndexDelete_runs {cur a : Nat} {used : Nat → Bool} {r : CInt} {row : Dbt × Bytes} {s : Vm}
    (hj : junk.v.length = 4) (hc : CodeAt prog a (rowIndexDelete tab cur used))
    (hu : Under tab s cur used row r)
    (hkeys : ∀ n ix, tab.pIndex[n]? = some ix → used n = true →
      ∃ k, rowKey ar.ld junk.toJunk tab ix row = some k ∧ k ∈ s.idx n) :
    ∃ s', KeysGone tab ar.ld junk.toJunk cur used row r s s' ∧ Ends (Row.exec ar en junk) prog
      (· = (a + (rowIndexDelete tab cur used).length, s')) (a, s) := by
  obtain ⟨s', hst, ht, hl, hcs, hi, hends⟩ :=
    @rowIndexDeleteFrom_runs L ar en _ _ _ _ _ _ _ hj tab.pIndex 0 a s
    rfl hc hu fun n ix _ => hkeys n ix
  exact ⟨s', ⟨hst, ht, hl, hcs, fun n => (hi n).trans (if_pos (Nat.zero_le n))⟩, hends⟩

/-! ## The row -/

/-- The indices that held the rows of `t` with `P` hold the others of them. -/
theorem Synced.without {fp : LongDouble L} {t : Btree} {P : Dbt × Bytes → Prop} {idx : Nat → Btree}
    {row : Dbt × Bytes} {used : Nat → Bool}
      (h : Synced fp junk.toJunk tab (fun e => e ∈ t.entries ∧ P e) idx)
    (ht : IsTable t) (hrow : row ∈ t.entries) (hP : P row) {n : Nat} {ix : Index}
    (hix : tab.pIndex[n]? = some ix) (hu : used n = true) :
    IndexOf (rowKey fp junk.toJunk tab ix) (fun e => (e ∈ t.entries ∧ P e) ∧ e ≠ row)
      (idxWithout fp junk.toJunk tab used row idx n) := by
  obtain ⟨k, hk, -⟩ := (h n ix hix).complete row ⟨hrow, hP⟩
  have herase := (h n ix hix).erase hk fun e he hke => rowKey_inj ht hrow he.1 hk hke
  rw [idxWithout, hix]
  simp only [Option.bind_some, hk, hu, if_true]
  exact herase

/-- A row leaves the table and its indices. -/
theorem Synced.erase {fp : LongDouble L} {t : Btree} {P : Dbt × Bytes → Prop} {idx : Nat → Btree}
    {row : Dbt × Bytes} (h : Synced fp junk.toJunk tab (fun e => e ∈ t.entries ∧ P e) idx)
    (ht : IsTable t) (hrow : row ∈ t.entries) (hP : P row) :
    Synced fp junk.toJunk tab (fun e => e ∈ (t.erase row.1).entries ∧ P e)
      (idxWithout fp junk.toJunk tab (fun _ => true) row idx) := by
  intro n ix hix
  refine (h.without ht hrow hP hix rfl).congr fun e => ?_
  rw [SortedMap.entry_erase]
  refine ⟨fun he => ⟨⟨he.1.1, he.2⟩, fun heq => he.1.2 (heq ▸ rfl)⟩, fun he =>
    ⟨⟨he.1.1, fun hk => ?_⟩, he.1.2⟩⟩
  exact he.2 (SortedMap.entry_unique he.1.1 hrow hk)

/-- What `__generate_row_delete` does to a row that is there, from `s` to `s'`. -/
structure RowGone (tab : Table) (fp : LongDouble L) (junk : Junk) (cur : Nat) (row : Dbt × Bytes)
    (st : List Val) (s s' : Vm) : Prop where
  stack : s'.stack = st
  t : s'.t = s.t.erase row.1
  like : s.Like s'
  cursor : ∃ c, s'.aCsr cur = .table c ∧ c.deferredMoveto = false
  idx : s'.idx = idxWithout fp junk tab (fun _ => true) row s.idx

theorem rowDelete_length (tab : Table) (cur : Nat) (count : Bool) (a : Nat) :
    (rowDelete tab cur count a).length =
      1 + ((rowIndexDelete tab cur fun _ => true) ++ [Op.delete cur count]).length := by
  rw [rowDelete, List.length_append]
  rfl

/-- **A row leaves with its keys.** -/
theorem rowDelete_runs {cur a : Nat} {count : Bool} {r : CInt} {x : Option Bytes} {st : List Val}
    {row : Dbt × Bytes} {s : Vm} {c : Cursor} (hj : junk.v.length = 4)
    (hc : CodeAt prog a (rowDelete tab cur count a)) (hst : s.stack = .int r x :: st)
    (hcsr : s.aCsr cur = .table c) (hd : c.deferredMoveto = false) (hrow : row ∈ s.t.entries)
    (hkey : row.1 = ⟨rowidKey r⟩) (hopen : UsedOpen tab s cur fun _ => true)
    (hkeys : ∀ n ix, tab.pIndex[n]? = some ix →
      ∃ k, rowKey ar.ld junk.toJunk tab ix row = some k ∧ k ∈ s.idx n) :
    ∃ s', RowGone tab ar.ld junk.toJunk cur row st s s' ∧ Ends (Row.exec ar en junk) prog
      (· = (a + (rowDelete tab cur count a).length, s')) (a, s) := by
  have hmem : (⟨rowidKey r⟩ : Dbt) ∈ s.t := hkey ▸ SortedMap.mem_of_entry hrow
  have hp := Points.ofNotExists hmem hd
  rw [rowDelete_length, ← Nat.add_assoc]
  rw [rowDelete] at hc
  have hbody := hc.after (b := a + 1) rfl
  have hlike : s.Like (s.setCsr cur (.table (opNotExists s.t c r).1)) :=
    (Vm.Like.refl s).setCsr (hcsr ▸ .table c _)
  let s₁ : Vm := { s.setCsr cur (.table (opNotExists s.t c r).1) with stack := st }
  obtain ⟨s', hgone, hends⟩ := @rowIndexDelete_runs L ar en _ _ _ _ _ _ _ _ s₁ hj hbody.left
    ⟨⟨_, Function.update_self .., hp⟩, hrow, hkey, hopen.like hlike⟩ fun n ix hix _ => hkeys n ix hix
  obtain ⟨c', hcsr', hp', -⟩ := hgone.cursor
  obtain ⟨c'', hd'', hdel⟩ :=
    @exec_delete L ar en junk (a + 1 + (rowIndexDelete tab cur fun _ => true).length)
    s' cur count c' r hcsr' hp'
  let s₂ : Vm := { (s'.setCsr cur (.table c'')).counted count with t := s'.t.erase ⟨rowidKey r⟩ }
  have hsame : s₂.stack = s'.stack ∧ s₂.aCsr = (s'.setCsr cur (.table c'')).aCsr ∧ s₂.idx =
      s'.idx := by
    cases count <;> exact ⟨rfl, rfl, rfl⟩
  refine ⟨s₂, ⟨hsame.1.trans hgone.stack, ?_, ?_, ⟨c'', ?_, hd''⟩, ?_⟩,
    Ends.op hc.left.head (exec_notExists hst hcsr) ?_⟩
  · rw [hkey]
    exact congrArg (fun t => SortedMap.erase t ⟨rowidKey r⟩) hgone.t
  · intro n
    rw [hsame.2.1]
    exact ((hlike.trans hgone.like).setCsr (hcsr' ▸ .table c' c'')) n
  · rw [hsame.2.1]
    exact Function.update_self ..
  · rw [hsame.2.2]
    exact funext hgone.idx
  · rw [opNotExists_mem hmem, if_neg (by simp)]
    refine Ends.trans hends (Ends.op hbody.right.head hdel (Ends.here ?_))
    rw [List.length_append, ← Nat.add_assoc]
    rfl

/-- The code does nothing when the rowid is above every row. -/
theorem rowDelete_absent {cur a : Nat} {count : Bool} {r : CInt} {x : Option Bytes} {st : List Val}
    {s : Vm} {c : Cursor} (hc : CodeAt prog a (rowDelete tab cur count a))
      (hst : s.stack = .int r x :: st)
    (hcsr : s.aCsr cur = .table c) (habove : ∀ k ∈ s.t, k < ⟨rowidKey r⟩) :
    Ends (Row.exec ar en junk) prog (· = (a + (rowDelete tab cur count a).length,
      { s.setCsr cur (.table (opNotExists s.t c r).1) with stack := st })) (a, s) := by
  rw [rowDelete_length, ← Nat.add_assoc]
  rw [rowDelete] at hc
  refine Ends.op hc.left.head (exec_notExists hst hcsr) (Ends.here ?_)
  rw [if_pos (opNotExists_jumps.2 habove)]

end
end Dbsql.L5.Rows
