import Dbsql.L1Encoding.Record
/-!
# What `OP_Column` reads (vdbe.c:3263-3370)

`OP_Column` takes the two offsets of a column from the header of a record and then the bytes
between them. The test before it covers the offset where the column begins, and not the offset
where it ends, which is that of the next column.

A byte of the header that is behind the record comes from the memory behind it, or from an
array that `__sm_key` and `__sm_data` have not filled to its end (`past`).

Results:
* `columnRun_out`: the result is that of `opColumn`.
* `column_inside_iff`: when all the bytes are those of the record.
-/
namespace Dbsql.L3
open Dbsql.L1

/-- Where the record is. -/
inductive Source
  /-- P1 is negative: on the stack -/
  | stack (z : Bytes)
  /-- the entry under the cursor of a table or an index -/
  | cursor (keyAsData nullRow : Bool) (key data : Bytes)
  | pseudoTable (z : Bytes)
  /-- the cursor is closed -/
  | closed

/-- The record; its length is `payloadSize`. -/
def Source.payload : Source → Bytes
  | .stack z => z
  | .cursor keyAsData nullRow key data => if nullRow then [] else if keyAsData then key else data
  | .pseudoTable z => z
  | .closed => []

/-- What `OP_Column` pushes, or its failure; a text by its place in the record. -/
inductive Pushed
  | corrupt
  | null
  | slice (offset amt : Nat)
  deriving DecidableEq, Repr

/-- The places of the header bytes that are read, and the result. -/
structure ColumnRun where
  reads : List Nat
  out : Pushed
  deriving DecidableEq, Repr

/-- `OP_Column` (vdbe.c:3263-3370). -/
def columnRun (past : Nat → UInt8) (src : Source) (p2 : Nat) : ColumnRun :=
  let z := src.payload
  let payloadSize := z.length
  if payloadSize = 0 then ⟨[], .null⟩
  else
    let idxWidth := decodeWidth payloadSize
    if payloadSize < idxWidth * (p2 + 1) then ⟨[], .corrupt⟩
    else
      let reads := (List.range (2 * idxWidth)).map (idxWidth * p2 + ·)
      let aHdr := reads.map fun i => z.getD i (past i)
      let offset := getIdx idxWidth aHdr
      let fin := getIdx idxWidth (aHdr.drop idxWidth)
      if fin < offset ∨ payloadSize < fin then ⟨reads, .corrupt⟩
      else if fin - offset = 0 then ⟨reads, .null⟩
      else ⟨reads, .slice offset (fin - offset)⟩

/-- The bytes that are pushed. -/
def Pushed.column (z : Bytes) : Pushed → ColumnOut
  | .corrupt => .corrupt
  | .null => .null
  | .slice offset amt => .str ((z.drop offset).take amt)

/-- The header bytes and the text are inside the record. -/
structure Inside (z : Bytes) (r : ColumnRun) : Prop where
  reads : ∀ i ∈ r.reads, i < z.length
  slice : ∀ offset amt, r.out = .slice offset amt → offset + amt ≤ z.length

theorem decodeWidth_pos (n : Nat) : 0 < decodeWidth n ∧ decodeWidth n ≤ 3 := by
  unfold decodeWidth
  split
  · decide
  · split <;> decide

section
variable (past : Nat → UInt8) (src : Source) (p2 : Nat)

/-- The result of `OP_Column` is that of `opColumn`, which is given what is behind the record. -/
theorem columnRun_out : (columnRun past src p2).out.column src.payload =
    opColumn src.payload p2 ((List.range 3).map fun k => past (src.payload.length + k)) := by
  unfold columnRun opColumn
  dsimp only
  by_cases h0 : src.payload.length = 0
  · rw [if_pos h0, if_pos h0]
    rfl
  rw [if_neg h0, if_neg h0]
  generalize hw : decodeWidth src.payload.length = w
  obtain ⟨hpos, hle⟩ := decodeWidth_pos src.payload.length
  rw [hw] at hpos hle
  by_cases hshort : src.payload.length < w * (p2 + 1)
  · rw [if_pos hshort, if_pos hshort]
    rfl
  rw [if_neg hshort, if_neg hshort]
  have hmul : w * (p2 + 1) = w * p2 + w := Nat.mul_succ w p2
  -- the header bytes, one by one
  have hhdr : (((List.range (2 * w)).map (w * p2 + ·)).map fun i => src.payload.getD i (past i)) =
      (src.payload.drop (w * p2) ++ (List.range 3).map fun k => past (src.payload.length + k)).take
        (2 * w) := by
    apply List.ext_getElem?
    intro k
    by_cases hk : k < 2 * w
    · rw [List.getElem?_take_of_lt hk, List.getElem?_map, List.getElem?_map, List.getElem?_range hk]
      by_cases hin : w * p2 + k < src.payload.length
      · rw [List.getElem?_append_left (by rw [List.length_drop]; omega), List.getElem?_drop,
          List.getElem?_eq_getElem hin]
        simp [List.getD_eq_getElem?_getD, List.getElem?_eq_getElem hin]
      · rw [List.getElem?_append_right (by rw [List.length_drop]; omega), List.length_drop,
          List.getElem?_map,
          List.getElem?_range (by omega)]
        simp only [Option.map_some, List.getD_eq_getElem?_getD, List.getElem?_eq_none
          (Nat.not_lt.1 hin),
          Option.getD_none]
        congr 2
        omega
    · rw [List.getElem?_eq_none (by simp; omega), List.getElem?_eq_none (by simp; omega)]
  rw [hhdr]
  generalize (src.payload.drop (w * p2) ++ (List.range 3).map fun k =>
    past (src.payload.length + k)).take (2 * w) =
    aHdr
  by_cases hbad : getIdx w (aHdr.drop w) < getIdx w aHdr ∨ src.payload.length < getIdx w (aHdr.drop w)
  · rw [if_pos hbad, if_pos hbad]
    rfl
  rw [if_neg hbad, if_neg hbad]
  split <;> rfl

/-- **`OP_Column` reads the record and nothing else** exactly if the record is empty, or too short
for the offset where the column begins, or long enough for the one where it ends. -/
theorem column_inside_iff : Inside src.payload (columnRun past src p2) ↔
    src.payload = [] ∨ src.payload.length < decodeWidth src.payload.length * (p2 + 1) ∨
      decodeWidth src.payload.length * (p2 + 2) ≤ src.payload.length := by
  obtain ⟨hpos, -⟩ := decodeWidth_pos src.payload.length
  unfold columnRun
  dsimp only
  by_cases h0 : src.payload.length = 0
  · rw [if_pos h0]
    exact iff_of_true ⟨nofun, nofun⟩ (.inl (List.length_eq_zero_iff.1 h0))
  rw [if_neg h0]
  have hne : ¬ src.payload = [] := fun h => h0 (congrArg List.length h)
  rw [or_iff_right hne]
  generalize decodeWidth src.payload.length = w at hpos ⊢
  by_cases hshort : src.payload.length < w * (p2 + 1)
  · rw [if_pos hshort]
    exact iff_of_true ⟨nofun, nofun⟩ (.inl hshort)
  rw [if_neg hshort, or_iff_right hshort]
  generalize hreads : (List.range (2 * w)).map (w * p2 + ·) = reads
  generalize (reads.map fun i => src.payload.getD i (past i)) = aHdr
  -- the text is always inside, so the header decides
  have hslice : Inside src.payload
      (if getIdx w (aHdr.drop w) < getIdx w aHdr ∨ src.payload.length < getIdx w (aHdr.drop w) then
        ⟨reads, .corrupt⟩
      else if getIdx w (aHdr.drop w) - getIdx w aHdr = 0 then ⟨reads, .null⟩
      else ⟨reads, .slice (getIdx w aHdr) (getIdx w (aHdr.drop w) - getIdx w aHdr)⟩) ↔
        ∀ i ∈ reads, i < src.payload.length := by
    split
    · exact ⟨fun h => h.reads, fun h => ⟨h, nofun⟩⟩
    · rename_i hok
      split
      · exact ⟨fun h => h.reads, fun h => ⟨h, nofun⟩⟩
      · refine ⟨fun h => h.reads, fun h => ⟨h, fun offset amt hout => ?_⟩⟩
        cases hout
        omega
  rw [hslice, ← hreads]
  have hmul : w * (p2 + 2) = w * p2 + 2 * w := by rw [Nat.mul_add, Nat.mul_comm w 2]
  rw [hmul]
  constructor
  · intro h
    have hlast := h (w * p2 + (2 * w - 1))
      (List.mem_map.2 ⟨2 * w - 1, List.mem_range.2 (by omega), rfl⟩)
    omega
  · intro h i hi
    obtain ⟨k, hk, rfl⟩ := List.mem_map.1 hi
    have := List.mem_range.1 hk
    omega

/-- The column behind the last of a record without data. -/
theorem column_reads_behind : ¬ ∀ (past : Nat → UInt8) (src : Source) (p2 : Nat),
    Inside src.payload (columnRun past src p2) := by
  intro h
  have hin := (h (fun _ => 0) (.stack [2, 2]) 1).reads 2 (by decide)
  revert hin
  decide

end
end Dbsql.L3
