import Dbsql.L1Encoding.Record
import Dbsql.L3Vdbe.IndexScan
import Dbsql.L3Vdbe.Value
/-!
# Tables with their indices

`Table` is a btree of records with the values that went into each; `TableIndex` is an index of
it that is up to date: each of its keys is that of a row, and each row has exactly one. A
column that is the rowid has -1 for its number in an expression, and the record has nothing in
its place.

Results:
* `opColumn_row`: `OP_Column` reads the column of a row.
* `rowKey_key`: the last four bytes of an index key are the key of its row.
-/
namespace Dbsql.L3
open Dbsql.Core Dbsql.L1 Dbsql.L2

/-- A table, and the values that went into each record. -/
structure Table where
  t : Btree
  isTable : IsTable t
  nCol : Nat
  iPKey : Option Nat
  row : Dbt → List StackVal
  record : ∀ e ∈ t.entries, (row e.1).length = nCol ∧ RecordSpec (row e.1) e.2

/-- A column of a row. -/
def Table.column (tab : Table) (k : Dbt) (c : Nat) : ColumnOut :=
  ((tab.row k).map StackVal.column).getD c .null

/-- A column as an argument of a function, a C string or a null pointer. -/
def Table.value (tab : Table) (k : Dbt) (c : Nat) : Option Bytes :=
  match tab.column k c with
  | .str z => some (cstr z)
  | _ => none

/-- The row of an index key: its last four bytes. -/
def rowKey (k : Dbt) : Dbt := ⟨k.data.drop (k.data.length - 4)⟩

section
variable {L : Type} {ar : Arith L} {tab : Table}

/-- An index of a table, up to date. -/
structure TableIndex (ar : Arith L) (tab : Table) where
  aiColumn : List Nat
  inRange : ∀ c ∈ aiColumn, c < tab.nCol
  p3 : Option Bytes
  t : Btree
  entry : ∀ k ∈ t, ∃ e : Entry ar.ld p3 aiColumn.length, k = e.key ∧ rowKey k ∈ tab.t ∧
    ∀ j c, aiColumn[j]? = some c → some c ≠ tab.iPKey →
      (e.vs.map StackVal.column).getD j .null = tab.column (rowKey k) c
  complete : ∀ k ∈ tab.t, ∃ k' ∈ t, rowKey k' = k
  unique : ∀ k ∈ t, ∀ k' ∈ t, rowKey k = rowKey k' → k = k'

/-- `OP_Column` reads the column of a row. -/
theorem opColumn_row {e : Dbt × Bytes} (he : e ∈ tab.t.entries) {c : Nat} (hc : c < tab.nCol)
    (aHdr : Bytes) : opColumn e.2 c aHdr = tab.column e.1 c := by
  obtain ⟨hlen, hspec⟩ := tab.record e he
  rw [hspec.column c (hlen ▸ hc), Table.column, List.getD_eq_getElem?_getD, List.getElem?_map,
    List.getElem?_eq_getElem (hlen ▸ hc)]
  rfl

/-- A column of a row is NULL or a string. -/
theorem Table.column_cases (tab : Table) (k : Dbt) (c : Nat) :
    tab.column k c = .null ∨ ∃ z, tab.column k c = .str z := by
  unfold Table.column
  rw [List.getD_eq_getElem?_getD, List.getElem?_map]
  cases (tab.row k)[c]? with
  | none => exact .inl rfl
  | some v =>
    rw [Option.map_some, Option.getD_some, StackVal.column]
    split
    · exact .inl rfl
    · exact .inr ⟨_, rfl⟩

theorem rowKey_key {p3 : Option Bytes} {n : Nat} (e : Entry ar.ld p3 n) :
    rowKey e.key = ⟨rowidKey e.rowid⟩ := by
  have hlen : e.key.data.length - 4 = (makeKey ar.ld p3 (e.vs.map (·.toMem))).length := by
    simp [Entry.key, makeIdxKey]
  rw [rowKey, hlen, Entry.key, makeIdxKey, List.drop_left]

theorem smKeySize_on {t : Btree} {k : Dbt} (hk : k ∈ t) (size : Nat) :
    smKeySize t (some k) size = (.success, k.data.length) := by
  obtain ⟨e, he⟩ := Option.isSome_iff_exists.1 (SortedMap.find?_isSome.2 hk)
  obtain ⟨-, rfl⟩ := SortedMap.find?_some he
  simp only [smKeySize, cGet, he]

end
end Dbsql.L3
