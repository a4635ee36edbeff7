import Dbsql.L1Encoding.Record
import Dbsql.L3Vdbe.IndexScan
/-!
# Unique indices (vdbe.c:3581-3624, cg_build.c:2230-2260)

`OP_IdxPut` with P2 set looks for the new key without its rowid. Every entry with the same
fields is longer and so above that search key; `__sm_moveto` then reports a hit
(`smMoveto_result_eq_zero`), and the loop that would find the entry is not entered.

`fillIndex` is the loop of `CREATE INDEX` over the rows of a table, with the opcodes it is made
of; `v` and `junk` are what they leave uninitialised.

Results:
* `opIdxPut_inserts`: the key is inserted, whatever the index holds.
* `fillIndex_eq`: the loop ends, having put the key of each row, or at a corrupt record.
* `idxPut_unique_iff`: uniqueness is enforced exactly where there is nothing to enforce.
-/
namespace Dbsql.L3
open Dbsql.Core Dbsql.L1 Dbsql.L2
open List (compareLex)

/-! ## `OP_IdxPut` -/

/-- The index, `rc`, its cursor and `p->zErrMsg` after `OP_IdxPut`. -/
structure IdxPutOut where
  t : Btree
  rc : Rc
  pos : Option Dbt
  zErrMsg : String

/-- The bytes of an index key before its rowid. -/
def beforeRowid (zKey : Bytes) : Bytes := zKey.take (zKey.length - 4)

/-- The `while(res != 0)` loop: `none` for a duplicate, else the cursor. -/
def idxPutLoop (t : Btree) (zKey : Bytes) (n : Nat) (c : Int) (pos : Option Dbt) (res : Int) :
    Option (Option Dbt) :=
  if res = 0 then some pos
  else
    let n := (smKeySize t pos n).2
    let (rc, c) := smKeyCompare t pos (beforeRowid zKey) 4 c
    if n = zKey.length ∧ rc = .success ∧ c = 0 then none
    else if res < 0 then idxPutLoop t zKey n c (smNext t pos res).pos 1
    else some pos
termination_by (-res).toNat
decreasing_by omega

/-- `OP_IdxPut` (vdbe.c:3581-3624) of the key `zKey`; `n`, `c` and `res` are uninitialised. -/
def opIdxPut (t : Btree) (pos : Option Dbt) (p2 : Bool) (p3 : String) (zKey : Bytes) (n : Nat)
    (c res : Int) : IdxPutOut :=
  let insert (pos : Option Dbt) : IdxPutOut :=
    let (t, rc, pos) := smInsert t pos zKey []
    ⟨t, rc, pos, ""⟩
  if p2 then
    let m := smMoveto t pos (beforeRowid zKey) res
    if m.rc ≠ .success then ⟨t, m.rc, m.pos, ""⟩
    else
      match idxPutLoop t zKey n c m.pos m.result with
      | none => ⟨t, .constraint, m.pos, p3⟩
      | some pos => insert pos
  else insert pos

/-- Two keys with the same fields. -/
def SameFields (k k' : Bytes) : Prop := beforeRowid k = beforeRowid k'

theorem smInsert_eq (t : Btree) (pos : Option Dbt) (k v : Bytes) :
    smInsert t pos k v = (t.insert ⟨k⟩ v, .success, some ⟨k⟩) := by
  obtain ⟨e, he⟩ := Option.isSome_iff_exists.1
    (SortedMap.find?_isSome.2 (SortedMap.mem_insert.2 (.inl rfl) : (⟨k⟩ : Dbt) ∈ t.insert ⟨k⟩ v))
  obtain ⟨-, hk⟩ := SortedMap.find?_some he
  simp [smInsert, cGet, moved, he, hk]

/-- The search key of `OP_IdxPut` is a prefix of the keys with the same fields. -/
theorem beforeRowid_le {k k' : Bytes} (h : SameFields k k') : (⟨beforeRowid k⟩ : Dbt) ≤ ⟨k'⟩ := by
  rw [h, ← not_lt, Dbt.lt_iff]
  have hsplit : k' = beforeRowid k' ++ k'.drop (k'.length - 4) := (List.take_append_drop _ k').symm
  intro hlt
  have hself := @Lex.compareLex_append_self _ compare _ (beforeRowid k') (k'.drop (k'.length - 4)) []
  rw [List.append_nil, ← hsplit, hlt] at hself
  cases hd : k'.drop (k'.length - 4) <;> rw [hd] at hself <;> cases hself

/-- A comparison that comes out equal is with an entry of the index. -/
theorem smKeyCompare_zero {t : Btree} {pos : Option Dbt} {value : Bytes} {c : Int}
    (h : smKeyCompare t pos value 4 c = (.success, 0)) : ∃ k ∈ t, beforeRowid k.data = value := by
  unfold smKeyCompare at h
  cases pos with
  | none => cases h
  | some k =>
    cases hf : t.find? k with
    | none =>
      simp only [cGet, hf] at h
      cases h
    | some e =>
      simp only [cGet, hf] at h
      split at h
      · cases h
      · rename_i hlen
        have hcmp := smCmpValues_eq_zero.1 (Prod.mk.inj h).2
        refine ⟨e.1, SortedMap.mem_of_entry (SortedMap.find?_some hf).1, ?_⟩
        rw [← hcmp, beforeRowid]
        congr 1
        omega

/-- An entry found by the loop has the same fields as the new key. -/
theorem idxPutLoop_none {t : Btree} {zKey : Bytes} {n : Nat} {c : Int} {pos : Option Dbt} {res : Int}
    (h : idxPutLoop t zKey n c pos res = none) : ∃ k ∈ t, SameFields zKey k.data := by
  induction n, c, pos, res using idxPutLoop.induct t zKey with
  | case1 n c pos => simp [idxPutLoop] at h
  | case2 n c pos res hres n' rc c' hcmp hfound =>
    obtain ⟨-, rfl, rfl⟩ := hfound
    obtain ⟨k, hk, hkey⟩ := smKeyCompare_zero hcmp
    exact ⟨k, hk, hkey.symm⟩
  | case3 n c pos res hres n' rc c' hcmp hnot hneg ih =>
    rw [idxPutLoop, if_neg hres] at h
    simp only [hcmp] at h
    rw [if_neg hnot, if_pos hneg] at h
    exact ih h
  | case4 n c pos res hres n' rc c' hcmp hnot hneg =>
    rw [idxPutLoop, if_neg hres] at h
    simp only [hcmp] at h
    rw [if_neg hnot, if_neg hneg] at h
    cases h

/-- **No duplicate is found.** The key is inserted, whatever the index holds. -/
theorem opIdxPut_inserts (t : Btree) (pos : Option Dbt) (p2 : Bool) (p3 : String) (zKey : Bytes)
    (n : Nat) (c res : Int) :
    opIdxPut t pos p2 p3 zKey n c res = ⟨t.insert ⟨zKey⟩ [], .success, some ⟨zKey⟩, ""⟩ := by
  unfold opIdxPut
  dsimp only
  simp only [smInsert_eq]
  cases p2 with
  | false => rfl
  | true =>
    rw [if_pos rfl, if_neg fun h => h smMoveto_rc]
    have hloop : idxPutLoop t zKey n c (smMoveto t pos (beforeRowid zKey) res).pos
        (smMoveto t pos (beforeRowid zKey) res).result ≠ none := by
      intro hnone
      obtain ⟨k, hk, hsame⟩ := idxPutLoop_none hnone
      -- an entry with these fields is above the search key, so the search reports a hit
      have hhit : (smMoveto t pos (beforeRowid zKey) res).result = 0 :=
        smMoveto_result_eq_zero.2 ⟨k, hk, beforeRowid_le hsame⟩
      rw [hhit] at hnone
      simp [idxPutLoop] at hnone
    obtain ⟨pos', hpos'⟩ := Option.ne_none_iff_exists'.1 hloop
    rw [hpos']

/-! ## The fill loop of `CREATE INDEX` -/

section
variable {L : Type} (fp : LongDouble L)

/-- The index being created: its columns, the column that is the rowid, the types of its
columns and whether it is unique (`index->onError != OE_None`). -/
structure IndexDef where
  aiColumn : List Nat
  iPKey : Option Nat
  p3 : Option Bytes
  unique : Bool

/-- The record a cursor on an entry of a table is on. -/
def payload (t : Btree) (pC : Cursor) : Bytes :=
  if pC.nullRow then [] else ((pC.pos.bind t.find?).map Prod.snd).getD []

/-- What `OP_Dup` of the rowid or `OP_Column` pushes for one column, unless the record is
corrupt. -/
def indexedColumn (ix : IndexDef) (record : Bytes) (rowid : CInt) (junk : Bytes) (col : Nat) :
    Option Mem :=
  if ix.iPKey = some col then some ⟨rowid, { int := true }, .nan, []⟩
  else match opColumn record col junk with
    | .null => some ⟨0, { null := true }, .nan, []⟩
    | .str z => some (.ofBytes z)
    | .corrupt => none

/-- The fields of the index entry of a row. -/
def indexedColumns (ix : IndexDef) (record : Bytes) (rowid : CInt) (junk : Bytes) : Option (List Mem) :=
  ix.aiColumn.mapM (indexedColumn ix record rowid junk)

/-- How the fill loop ends. -/
inductive FillOut
  | done (t : Btree)
  | failed (rc : Rc)
  | running

/-- What the loop leaves uninitialised. -/
structure Junk where
  v : Bytes
  hdr : Bytes
  n : Nat
  c : Int
  res : Int

/-- The body of the loop from `OP_Recno` to `OP_IdxPut`: the index and its cursor, or `rc`. -/
def fillRow (ix : IndexDef) (t : Btree) (pC : Cursor) (junk : Junk) (idx : Btree) (pos : Option Dbt) :
    Rc ⊕ (Btree × Option Dbt) :=
  let rowid := match (opRecno t pC junk.v).2 with
    | .int v => v
    | _ => 0
  match indexedColumns ix (payload t pC) rowid junk.hdr with
  | none => .inl .corrupt
  | some fields =>
    let put := opIdxPut idx pos ix.unique "indexed columns are not unique"
      (makeIdxKey fp ix.p3 fields rowid) junk.n junk.c junk.res
    if put.rc ≠ .success then .inl put.rc else .inr (put.t, put.pos)

/-- The loop, which `OP_Next` closes. -/
def fillLoop (ix : IndexDef) (t : Btree) (junk : Junk) : Nat → Cursor → Btree → Option Dbt → FillOut
  | 0, _, _, _ => .running
  | fuel + 1, pC, idx, pos =>
    match fillRow fp ix t pC junk idx pos with
    | .inl rc => .failed rc
    | .inr (idx, pos) =>
      let (pC, jump) := opNext t (opRecno t pC junk.v).1 false
      if jump then fillLoop ix t junk fuel pC idx pos else .done idx

/-- The fill of a new index from the table `t` (cg_build.c:2233-2259). -/
def fillIndex (ix : IndexDef) (t : Btree) (junk : Junk) (fuel : Nat) : FillOut :=
  let pC := opRewind t .opened
  if pC.nullRow then .done .empty else fillLoop fp ix t junk fuel pC .empty none

/-- The fields of the index entry of a row of the table. -/
def rowFields (ix : IndexDef) (junk : Junk) (row : Dbt × Bytes) : Option (List Mem) :=
  indexedColumns ix row.2 (keyRowid row.1.data) junk.hdr

/-- The fill, row by row. -/
def fillRows (ix : IndexDef) (junk : Junk) : List (Dbt × Bytes) → Btree → FillOut
  | [], idx => .done idx
  | row :: rows, idx =>
    match rowFields ix junk row with
    | none => .failed .corrupt
    | some fields =>
      fillRows ix junk rows (idx.insert ⟨makeIdxKey fp ix.p3 fields (keyRowid row.1.data)⟩ [])

/-- A table cursor on a row, with nothing cached and nothing pending. -/
structure OnRow (pC : Cursor) (row : Dbt × Bytes) : Prop where
  pos : pC.pos = some row.1
  nullRow : pC.nullRow = false
  recno : pC.recnoIsValid = false
  deferred : pC.deferredMoveto = false

variable {fp}

theorem find?_entry {t : Btree} {row : Dbt × Bytes} (h : row ∈ t.entries) : t.find? row.1 = some row := by
  obtain ⟨e, he⟩ := Option.isSome_iff_exists.1 (SortedMap.find?_isSome.2 (SortedMap.mem_of_entry h))
  obtain ⟨hmem, hkey⟩ := SortedMap.find?_some he
  rw [he, SortedMap.entry_unique hmem h hkey]

/-- On a row `OP_Recno` pushes its rowid and leaves the cursor alone. -/
theorem OnRow.recno_eq {t : Btree} {pC : Cursor} {row : Dbt × Bytes} (ht : IsTable t)
    (hrow : row ∈ t.entries) (hc : OnRow pC row) {v : Bytes} (hv : v.length = 4) :
    opRecno t pC v = (pC, .int (keyRowid row.1.data)) := by
  have hmem := SortedMap.mem_of_entry hrow
  obtain ⟨r, hr⟩ := ht row.1 hmem
  have hself : vdbeCursorMoveto t pC = pC := by
    unfold vdbeCursorMoveto
    rw [if_neg (by simp [hc.deferred])]
  have hread : readRowid t pC.pos v = r := by
    rw [hc.pos, hr]
    exact readRowid_on (hr ▸ hmem) v hv
  unfold opRecno
  simp [hself, hc.recno, hc.nullRow, hread, hr]

theorem fillRow_on {ix : IndexDef} {t : Btree} {junk : Junk} {pC : Cursor} {row : Dbt × Bytes}
    (hv : junk.v.length = 4) (ht : IsTable t) (hrow : row ∈ t.entries) (hc : OnRow pC row)
    (idx : Btree) (pos : Option Dbt) : fillRow fp ix t pC junk idx pos =
      match rowFields ix junk row with
      | none => .inl .corrupt
      | some fields =>
        let key : Dbt := ⟨makeIdxKey fp ix.p3 fields (keyRowid row.1.data)⟩
        .inr (idx.insert key [], some key) := by
  have hpayload : payload t pC = row.2 := by
    unfold payload
    simp [hc.nullRow, hc.pos, find?_entry hrow]
  unfold fillRow rowFields
  rw [hc.recno_eq ht hrow hv, hpayload]
  dsimp only
  cases indexedColumns ix row.2 (keyRowid row.1.data) junk.hdr with
  | none => rfl
  | some fields => simp only [opIdxPut_inserts, ne_eq, not_true_eq_false, if_false]

theorem OnRow.next {t : Btree} {pC : Cursor} {row row' : Dbt × Bytes} (hc : OnRow pC row)
    (h : t.succ row.1 = some row') :
    (opNext t pC false).2 = true ∧ OnRow (opNext t pC false).1 row' := by
  unfold opNext
  simp only [hc.nullRow, hc.pos, smNext_on, h, Bool.false_eq_true, if_false]
  exact ⟨rfl, rfl, rfl, rfl, hc.deferred⟩

theorem OnRow.next_none {t : Btree} {pC : Cursor} {row : Dbt × Bytes} (hc : OnRow pC row)
    (h : t.succ row.1 = none) : (opNext t pC false).2 = false := by
  unfold opNext
  simp only [hc.nullRow, hc.pos, smNext_on, h, Bool.false_eq_true, if_false]
  rfl

/-- From a row on, the loop fills the index with the rows from there on. -/
theorem fillLoop_eq {ix : IndexDef} {t : Btree} {junk : Junk} (hv : junk.v.length = 4) (ht : IsTable t) :
    ∀ (rows before : List (Dbt × Bytes)) (row : Dbt × Bytes) (fuel : Nat)
      (pC : Cursor) (idx : Btree) (pos : Option Dbt), t.entries = before ++ row :: rows →
      rows.length < fuel → OnRow pC row →
      fillLoop fp ix t junk fuel pC idx pos = fillRows fp ix junk (row :: rows) idx := by
  intro rows
  induction rows with
  | nil =>
    intro before row fuel pC idx pos hsplit hfuel hc
    obtain ⟨fuel, rfl⟩ := Nat.exists_eq_succ_of_ne_zero (Nat.ne_of_gt hfuel)
    have hrow : row ∈ t.entries := by simp [hsplit]
    rw [fillLoop, fillRow_on hv ht hrow hc, fillRows, hc.recno_eq ht hrow hv]
    cases rowFields ix junk row with
    | none => rfl
    | some fields =>
      have hlast := hc.next_none (SortedMap.succ_append hsplit)
      simp only [hlast, fillRows, Bool.false_eq_true, if_false]
  | cons row' rows ih =>
    intro before row fuel pC idx pos hsplit hfuel hc
    obtain ⟨fuel, rfl⟩ := Nat.exists_eq_succ_of_ne_zero (show fuel ≠ 0 by omega)
    have hrow : row ∈ t.entries := by simp [hsplit]
    rw [fillLoop, fillRow_on hv ht hrow hc, fillRows, hc.recno_eq ht hrow hv]
    cases rowFields ix junk row with
    | none => rfl
    | some fields =>
      obtain ⟨hjump, hc'⟩ := hc.next (SortedMap.succ_append hsplit)
      simp only [hjump, if_true]
      exact ih (before ++ [row]) row' fuel _ _ _ (by simpa using hsplit)
        (by simpa using hfuel) hc'

/-- The loop ends, having put the key of every row, or at the first corrupt record. -/
theorem fillIndex_eq {ix : IndexDef} {t : Btree} {junk : Junk} (hv : junk.v.length = 4) (ht : IsTable t)
    {fuel : Nat} (hf : t.entries.length ≤ fuel) :
    fillIndex fp ix t junk fuel = fillRows fp ix junk t.entries .empty := by
  unfold fillIndex opRewind
  cases hfirst : t.entries with
  | nil =>
    have hnone : t.first = none := by rw [SortedMap.first, hfirst]; rfl
    simp [smFirst_none hnone, fillRows]
  | cons row rows =>
    have hsome : t.first = some row := by rw [SortedMap.first, hfirst]; rfl
    simp only [smFirst_some hsome]
    rw [hfirst, List.length_cons] at hf
    exact fillLoop_eq hv ht rows [] row fuel _ _ _ hfirst hf ⟨rfl, rfl, rfl, rfl⟩

/-- The columns of the index entry of a row. -/
def rowCols (fp : LongDouble L) (ix : IndexDef) (junk : Junk) (row : Dbt × Bytes) : Option (List Col) :=
  (rowFields ix junk row).map fun fields => fields.mapIdx fun j m => colOf fp (isTextCol ix.p3 j) m

/-- Two rows that agree on all indexed columns: two numbers that are equal, two NULLs, or the same
text. -/
def Agree (fp : LongDouble L) (ix : IndexDef) (junk : Junk) (t : Btree) : Prop :=
  ∃ row ∈ t.entries, ∃ row' ∈ t.entries, row.1 ≠ row'.1 ∧ ∃ cs cs',
    rowCols fp ix junk row = some cs ∧ rowCols fp ix junk row' = some cs' ∧
    List.Forall₂ (fun c d => Col.cmp c d = .eq) cs cs'

/-- What `OP_IdxPut` with P2 set promises of a new entry. -/
structure IdxPutSpec (idx : Btree) (zKey : Bytes) (out : IdxPutOut) : Prop where
  fails : out.rc = .constraint ↔ ∃ k ∈ idx, SameFields zKey k.data
  inserts : (∀ k ∈ idx, ¬ SameFields zKey k.data) → out.rc = .success ∧ out.t = idx.insert ⟨zKey⟩ []

/-- What the fill loop of a unique index promises. -/
structure FillSpec (fp : LongDouble L) (ix : IndexDef) (junk : Junk) (t : Btree) (out : FillOut) :
    Prop where
  ends : out ≠ .running
  fails : out = .failed .constraint ↔ Agree fp ix junk t

theorem fillRows_ne {ix : IndexDef} {junk : Junk} (rows : List (Dbt × Bytes)) : ∀ idx : Btree,
    fillRows fp ix junk rows idx ≠ .running ∧ fillRows fp ix junk rows idx ≠ .failed .constraint := by
  induction rows with
  | nil => exact fun _ => ⟨FillOut.noConfusion, FillOut.noConfusion⟩
  | cons row rows ih =>
    intro idx
    rw [fillRows]
    cases rowFields ix junk row with
    | none => exact ⟨FillOut.noConfusion, fun h => by cases h⟩
    | some fields => exact ih _

/-- **Uniqueness is enforced exactly where nothing violates it.** For every index and every new
entry of as many fields, `OP_IdxPut` does as it promises exactly when no entry has the same
fields; and the fill loop does exactly when no two rows agree on the indexed columns. -/
theorem idxPut_unique_iff (fp : LongDouble L) :
    (∀ (p3 : Option Bytes) (n : Nat) (idx : Index fp p3 n) (e : Entry fp p3 n) (pos : Option Dbt)
      (msg : String) (n' : Nat) (c res : Int),
      IdxPutSpec idx.t e.key.data (opIdxPut idx.t pos true msg e.key.data n' c res) ↔
        ¬ ∃ k ∈ idx.t, SameFields e.key.data k.data) ∧
    ∀ (ix : IndexDef) (t : Btree) (junk : Junk) (fuel : Nat), ix.unique = true → IsTable t →
      junk.v.length = 4 → t.entries.length ≤ fuel →
      (FillSpec fp ix junk t (fillIndex fp ix t junk fuel) ↔ ¬ Agree fp ix junk t) := by
  refine ⟨fun p3 n idx e pos msg n' c res => ?_, fun ix t junk fuel _ ht hv hf => ?_⟩
  · rw [opIdxPut_inserts]
    refine ⟨fun h hdup => ?_, fun h => ⟨⟨fun hrc => ?_, fun hdup => absurd hdup h⟩, fun _ => ⟨rfl, rfl⟩⟩⟩
    · cases h.fails.2 hdup
    · cases hrc
  · rw [fillIndex_eq hv ht hf]
    obtain ⟨hrun, hfail⟩ := @fillRows_ne L fp ix junk t.entries .empty
    exact ⟨fun h hagree => hfail (h.fails.2 hagree),
      fun h => ⟨hrun, fun hc => absurd hc hfail, fun hagree => absurd hagree h⟩⟩

theorem beforeRowid_key {p3 : Option Bytes} {n : Nat} (e : Entry fp p3 n) :
    beforeRowid e.key.data = e.fields := by
  have hlen : e.key.data.length - 4 = e.fields.length := by
    simp [Entry.key, makeIdxKey, Entry.fields]
  rw [beforeRowid, hlen]
  exact List.take_left

end

/-- The entry of row `r` with the fields 5 and 7. -/
def fiveSeven (r : CInt) : Entry exactArith none 2 := intEntry [5, 7] r

/-- The entries of the rows 1, 2 and 3, below and above one with the fields 5 and 8. -/
def threeRows : Index exactArith none 2 where
  t := ((SortedMap.empty.insert (intEntry [4, 9] 1).key []).insert (fiveSeven 2).key []).insert
    (intEntry [6, 1] 3).key []
  entry k hk := by
    rcases SortedMap.mem_insert.1 hk with rfl | hk
    · exact ⟨_, rfl⟩
    · rcases SortedMap.mem_insert.1 hk with rfl | hk
      · exact ⟨_, rfl⟩
      · rcases SortedMap.mem_insert.1 hk with rfl | hk
        · exact ⟨_, rfl⟩
        · exact absurd hk SortedMap.not_mem_empty

/-- The record of `vs`. -/
def record (vs : List StackVal) : Bytes := (opMakeRecord .little 0 0 (vs.map (·.toMem))).1.z

/-- The rows (5, `a`), (5, `b`) and (NULL, `a`). -/
def namedRows : Btree :=
  ((SortedMap.empty.insert ⟨rowidKey 1⟩ (record [intVal 5, textVal (ascii "a")])).insert ⟨rowidKey 2⟩
    (record [intVal 5, textVal (ascii "b")])).insert ⟨rowidKey 4⟩
    (record [nullField, textVal (ascii "a")])

/-- A unique index on both columns, the second a text. -/
def onBoth : IndexDef := ⟨[0, 1], none, some (ascii "nt"), true⟩

theorem isTable_namedRows : IsTable namedRows :=
  (((IsTable.insert fun _ hk => absurd hk SortedMap.not_mem_empty) _ _).insert _ _).insert _ _

/-- (5, 8) goes between the entries; no two rows of the table agree on both columns. -/
theorem idxPut_unique_iff_threeRows :
    let e : Entry exactArith none 2 := intEntry [5, 8] 4
    let junk : Junk := ⟨[0, 0, 0, 0], [], 0, 0, 0⟩
    IdxPutSpec threeRows.t e.key.data (opIdxPut threeRows.t none true "" e.key.data 0 0 0) ∧
      FillSpec exactArith onBoth junk namedRows (fillIndex exactArith onBoth namedRows junk 3) := by
  intro e junk
  have h := idxPut_unique_iff exactArith
  have hput : ¬ ∃ k ∈ threeRows.t, SameFields e.key.data k.data := by
    unfold SameFields
    decide +kernel
  have hfill : ¬ Agree exactArith onBoth junk namedRows := by
    have hdiff : ∀ row ∈ namedRows.entries, ∀ row' ∈ namedRows.entries, row.1 ≠ row'.1 →
        ((rowCols exactArith onBoth junk row).bind fun cs =>
          (rowCols exactArith onBoth junk row').map (compareLex Col.cmp cs)) ≠ some .eq := by
      decide +kernel
    rintro ⟨row, hrow, row', hrow', hne, cs, cs', hcs, hcs', hall⟩
    apply hdiff row hrow row' hrow' hne
    simp [hcs, hcs', (Lex.compareLex_eq_iff _ _).2 hall]
  exact ⟨(h.1 none 2 threeRows e none "" 0 0 0).2 hput,
    (h.2 onBoth namedRows junk 3 rfl isTable_namedRows rfl (by decide +kernel)).2 hfill⟩

/-- The index holds row 1 with the fields 5 and 7; row 2 with the same fields is put. -/
theorem idxPut_duplicate : ¬ ∀ (idx : Index exactArith none 2) (e : Entry exactArith none 2),
    IdxPutSpec idx.t e.key.data (opIdxPut idx.t none true "" e.key.data 0 0 0) := by
  intro h
  have hspec := h oneRow (fiveSeven 2)
  have hmem : (fiveSeven 1).key ∈ oneRow.t := SortedMap.mem_insert.2 (.inl rfl)
  have hsame : SameFields (fiveSeven 2).key.data (fiveSeven 1).key.data := by
    rw [SameFields, beforeRowid_key, beforeRowid_key]
    rfl
  have hfails := hspec.fails.2 ⟨_, hmem, hsame⟩
  rw [opIdxPut_inserts] at hfails
  cases hfails

end Dbsql.L3
