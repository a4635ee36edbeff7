import Dbsql.Core.Secondary
import Dbsql.L5Codegen.RowCode
/-!
# Index keys of rows

`rowKey` is the index key of a row: what `OP_MakeIdxKey` makes of the columns that `OP_Column`
reads from its record. The code of a row makes the key of a new row from the values on the stack
instead (`pushedKey`). `Consistent` says that the table and its indices agree.

Results:
* `rowKey_inj`: keys of different rows are different.
* `makeKey_congr`, `sameField_column`: a column pushed by `OP_Column` gives the same key.
-/
namespace Dbsql.L5.Rows
open Dbsql.Core Dbsql.L1 Dbsql.L2 Dbsql.L3 Dbsql.L3.Row

/-- The index as the loop of `CREATE INDEX` has it. -/
def idxDef (tab : Table) (ix : Index) : IndexDef :=
  ⟨ix.aiColumn, tab.iPKey, some (idxKeyType tab ix), ix.onError.isSome⟩

section
variable {L : Type} (fp : LongDouble L) (junk : Junk) (tab : Table)

/-- The index key of a row, unless its record is corrupt. -/
def rowKey (ix : Index) (row : Dbt × Bytes) : Option Dbt :=
  (rowFields (idxDef tab ix) junk row).map fun fields =>
    ⟨makeIdxKey fp (some (idxKeyType tab ix)) fields (keyRowid row.1.data)⟩

/-- The values that go into the index key of the row `cols`. -/
def pushedVals (ix : Index) (rowid : Val) (cols : List Val) : List Val :=
  ix.aiColumn.map fun c => if tab.iPKey = some c then rowid else cols.getD c .null

/-- The index key of the values `cols`. -/
def pushedKey (ix : Index) (rowid : Val) (r : CInt) (cols : List Val) : Bytes :=
  makeIdxKey fp (some (idxKeyType tab ix)) ((pushedVals tab ix rowid cols).map Val.toMem) r

/-- Every index holds exactly the keys of the rows in `R`, one for each. -/
def Synced (R : Dbt × Bytes → Prop) (idx : Nat → Btree) : Prop :=
  ∀ i ix, tab.pIndex[i]? = some ix → IndexOf (rowKey fp junk tab ix) R (idx i)

/-- Each index holds exactly one entry for each row, its key. -/
structure Consistent (t : Btree) (idx : Nat → Btree) : Prop where
  table : IsTable t
  synced : Synced fp junk tab (· ∈ t.entries) idx

end

/-! ## Fields -/

section
variable {L : Type} {fp : LongDouble L} {junk : Junk} {tab : Table}

/-- Two fields of which `OP_MakeIdxKey` writes the same bytes. -/
def SameField (fp : LongDouble L) (m m' : Mem) : Prop :=
  ∀ text, keyField (keyPrep fp text m) = keyField (keyPrep fp text m')

theorem SameField.refl (m : Mem) : SameField fp m m := fun _ => rfl

theorem makeKey_congr {ms ms' : List Mem} (h : List.Forall₂ (SameField fp) ms ms')
    (p3 : Option Bytes) :
    makeKey fp p3 ms = makeKey fp p3 ms' := by
  have hfields : (keyPrepAll fp p3 ms).map keyField = (keyPrepAll fp p3 ms').map keyField := by
    apply List.ext_getElem?
    intro j
    simp only [keyPrepAll, List.getElem?_map, List.getElem?_mapIdx, Option.map_map]
    have hlen := h.length_eq
    by_cases hj : j < ms.length
    · rw [List.getElem?_eq_getElem hj, List.getElem?_eq_getElem (hlen ▸ hj)]
      exact congrArg some (h.get hj (hlen ▸ hj) _)
    · rw [List.getElem?_eq_none (by omega), List.getElem?_eq_none (by omega)]
  rw [makeKey, makeKey, List.flatMap_def, List.flatMap_def, hfields]

/-- A text on the stack and a copy of its bytes. -/
theorem sameField_str (z : Bytes) : SameField fp (Val.str z).toMem (.ofBytes z) := by
  intro text
  unfold keyPrep Mem.ofBytes
  by_cases hz : z.length ≤ 32
  · cases text <;> by_cases hnum : strIsNumeric z = true <;>
      simp [hz, hnum, Val.toMem, Mem.asString, keyField]
  · cases text <;> by_cases hnum : strIsNumeric z = true <;>
      simp [hz, hnum, Val.toMem, Mem.asString, keyField]

/-- A value pushed by `OP_Column` and the field that is read from the record. -/
theorem sameField_column {record hdr : Bytes} {rowid : CInt} {d : IndexDef} {c : Nat} {m : Mem}
    (hc : d.iPKey ≠ some c) (h : indexedColumn d record rowid hdr c = some m) :
    ∃ v, pushedVal (opColumn record c hdr) = some v ∧ SameField fp v.toMem m := by
  unfold indexedColumn at h
  rw [if_neg hc] at h
  cases hcol : opColumn record c hdr with
  | null =>
    rw [hcol] at h
    cases h
    exact ⟨.null, rfl, .refl _⟩
  | str z =>
    rw [hcol] at h
    cases h
    exact ⟨.str z, rfl, sameField_str z⟩
  | corrupt =>
    rw [hcol] at h
    cases h

/-! ## Keys -/

/-- A key ends with the rowid of its row. -/
theorem rowKey_drop {ix : Index} {row : Dbt × Bytes} {k : Dbt}
    (h : rowKey fp junk tab ix row = some k) :
    4 ≤ k.data.length ∧ k.data.drop (k.data.length - 4) = rowidKey (keyRowid row.1.data) := by
  obtain ⟨fields, -, rfl⟩ := Option.map_eq_some_iff.1 h
  have hlen : (makeIdxKey fp (some (idxKeyType tab ix)) fields (keyRowid row.1.data)).length - 4 =
      (makeKey fp (some (idxKeyType tab ix)) fields).length := by
    simp [makeIdxKey]
  refine ⟨by simp [makeIdxKey], ?_⟩
  dsimp only
  rw [hlen, makeIdxKey, List.drop_left]

/-- The rowid at the end of a key. -/
theorem rowKey_rowid {ix : Index} {row : Dbt × Bytes} {k : Dbt}
    (h : rowKey fp junk tab ix row = some k) :
    keyRowid (k.data.drop (k.data.length - 4)) = keyRowid row.1.data := by
  rw [(rowKey_drop h).2, keyRowid_rowidKey]

/-- Keys of different rows of a table are different. -/
theorem rowKey_inj {t : Btree} (ht : IsTable t) {ix : Index} {row row' : Dbt × Bytes} {k : Dbt}
    (hrow : row ∈ t.entries) (hrow' : row' ∈ t.entries) (h : rowKey fp junk tab ix row = some k)
    (h' : rowKey fp junk tab ix row' = some k) : row' = row := by
  obtain ⟨r, hr⟩ := ht row.1 (SortedMap.mem_of_entry hrow)
  obtain ⟨r', hr'⟩ := ht row'.1 (SortedMap.mem_of_entry hrow')
  have heq := (rowKey_rowid h).symm.trans (rowKey_rowid h')
  rw [hr, hr', keyRowid_rowidKey, keyRowid_rowidKey] at heq
  exact SortedMap.entry_unique hrow' hrow (by rw [hr, hr', heq])

end
end Dbsql.L5.Rows
