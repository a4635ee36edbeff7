import Dbsql.L1Encoding.Mem
/-!
# Data records (vdbe.c:2009-2114, 3263-3370)

A record of N fields is a header of N+1 offsets, each of 1, 2 or 3 bytes, and the texts of
the fields that are not NULL, with their terminators. `OP_MakeRecord` picks the width of the
offsets from the size of the data, `OP_Column` derives it again from the size of the whole
record. Offsets are computed in 32 bits and stored in at most 24; no test bounds the record
(no error code of the library says "too big").

Results:
* `idxWidth_agree`: encoder and decoder choose the same width, whatever the size.
* `opColumn_record`: the decoder reads back each field wherever no offset is truncated.
* `record_iff`: no offset is truncated, and every field is read back, exactly for
  the records below 2^24 bytes.
-/
namespace Dbsql.L1

/-! ## `OP_MakeRecord` -/

/-- A field after the first loop: rendered unless NULL. -/
def recordField (pRec : Mem) : Mem := if pRec.flags.null then pRec else pRec.asString

/-- The bytes a field adds to the data. -/
def fieldData (pRec : Mem) : Bytes := if pRec.flags.null then [] else pRec.z

/-- The width of the offsets, from the size of the data. -/
def encodeWidth (nByte nField : Nat) : Nat :=
  if nByte + nField + 1 < 256 then 1 else if nByte + 2 * nField + 2 < 65536 then 2 else 3

/-- One offset, low byte first. -/
def putIdx (idxWidth : Nat) (addr : CInt) : Bytes :=
  byteOf addr 0 ::
    if 1 < idxWidth then byteOf addr 1 :: if 2 < idxWidth then [byteOf addr 2] else [] else []

/-- The second loop and the store after it: the offset of each field and of the end. -/
def putHeader (idxWidth : Nat) : CInt → List Mem → Bytes
  | addr, [] => putIdx idxWidth addr
  | addr, pRec :: fields => putIdx idxWidth addr ++
      putHeader idxWidth (addr + BitVec.ofNat 32 (fieldData pRec).length) fields

/-- The third loop. -/
def putData (fields : List Mem) : Bytes := fields.flatMap fieldData

/-- `OP_MakeRecord` (vdbe.c:2009-2114) on a stack, lowest entry first: the record and the
new `uniqueCnt`. -/
def opMakeRecord (e : Endian) (p2 : Int) (uniqueCnt : CInt) (stack : List Mem) : Mem × CInt :=
  let fields := stack.map recordField
  let nField := fields.length
  let addUnique := if fields.any (·.flags.null) then p2 else 0
  let nByte := (putData fields).length + if addUnique ≠ 0 then 4 else 0
  let idxWidth := encodeWidth nByte nField
  let addr := BitVec.ofNat 32 (idxWidth * (nField + 1)) + BitVec.ofInt 32 addUnique * 4
  let zNewRecord := putHeader idxWidth addr fields ++
    (if addUnique ≠ 0 then store e uniqueCnt else []) ++ putData fields
  (.ofBytes zNewRecord, if addUnique ≠ 0 then uniqueCnt + 1 else uniqueCnt)

/-! ## `OP_Column` -/

/-- What `OP_Column` pushes, or its failure. -/
inductive ColumnOut
  | null
  | str (z : Bytes)
  | corrupt
  deriving DecidableEq, Repr

/-- The width of the offsets, from the size of the record. -/
def decodeWidth (payloadSize : Nat) : Nat :=
  if payloadSize < 256 then 1 else if payloadSize < 65536 then 2 else 3

/-- One offset; the `|` of shifted bytes is a sum. -/
def getIdx (idxWidth : Nat) (aHdr : Bytes) : Nat :=
  (aHdr.getD 0 0).toNat + (if 1 < idxWidth then 2 ^ 8 * (aHdr.getD 1 0).toNat else 0) +
    if 2 < idxWidth then 2 ^ 16 * (aHdr.getD 2 0).toNat else 0

/-- `OP_Column` (vdbe.c:3263-3370) on the record `payload`, which is empty on the null row;
`aHdr` has the bytes of `junk` where the record ends before it is filled. -/
def opColumn (payload : Bytes) (p2 : Nat) (junk : Bytes) : ColumnOut :=
  if payload.length = 0 then .null
  else
    let idxWidth := decodeWidth payload.length
    if payload.length < idxWidth * (p2 + 1) then .corrupt
    else
      let aHdr := (payload.drop (idxWidth * p2) ++ junk).take (2 * idxWidth)
      let offset := getIdx idxWidth aHdr
      let fin := getIdx idxWidth (aHdr.drop idxWidth)
      if fin < offset ∨ payload.length < fin then .corrupt
      else if fin - offset = 0 then .null
      else .str ((payload.drop offset).take (fin - offset))

/-! ## Widths and offsets -/

/-- The width picked from the size of the data is that derived from the whole record. -/
theorem idxWidth_agree (nByte nField : Nat) :
    decodeWidth (encodeWidth nByte nField * (nField + 1) + nByte) = encodeWidth nByte nField := by
  unfold encodeWidth decodeWidth
  split
  · rw [if_pos (by omega)]
  · split
    · rw [if_neg (by omega), if_pos (by omega)]
    · rw [if_neg (by omega), if_neg (by omega)]

theorem encodeWidth_cases (nByte nField : Nat) : encodeWidth nByte nField = 1 ∨
    encodeWidth nByte nField = 2 ∨ encodeWidth nByte nField = 3 := by
  unfold encodeWidth
  split
  · exact .inl rfl
  · split
    · exact .inr (.inl rfl)
    · exact .inr (.inr rfl)

theorem putIdx_length {w : Nat} (hw : w = 1 ∨ w = 2 ∨ w = 3) (addr : CInt) :
    (putIdx w addr).length = w := by
  rcases hw with rfl | rfl | rfl <;> rfl

/-- Reading an offset gives its low `idxWidth` bytes. -/
theorem getIdx_putIdx {w : Nat} (hw : w = 1 ∨ w = 2 ∨ w = 3) (a : Nat) (rest : Bytes) :
    getIdx w (putIdx w (BitVec.ofNat 32 a) ++ rest) = a % 256 ^ w := by
  rcases hw with rfl | rfl | rfl <;>
    simp [getIdx, putIdx, toNat_byteOf, BitVec.toNat_ofNat] <;> omega

theorem putHeader_length {w : Nat} (hw : w = 1 ∨ w = 2 ∨ w = 3) (fields : List Mem) :
    ∀ addr, (putHeader w addr fields).length = w * (fields.length + 1) := by
  induction fields with
  | nil =>
    intro addr
    rw [putHeader, putIdx_length hw, List.length_nil, Nat.zero_add, Nat.mul_one]
  | cons pRec fields ih =>
    intro addr
    rw [putHeader, List.length_append, putIdx_length hw, ih, List.length_cons, Nat.mul_succ w (_ + 1)]
    omega

theorem putHeader_head (w : Nat) (addr : CInt) (fields : List Mem) :
    ∃ rest, putHeader w addr fields = putIdx w addr ++ rest := by
  cases fields with
  | nil => exact ⟨[], (List.append_nil _).symm⟩
  | cons pRec fields => exact ⟨_, rfl⟩

/-- The header from its `k`-th offset on is the header of the fields from `k` on. -/
theorem putHeader_drop {w : Nat} (hw : w = 1 ∨ w = 2 ∨ w = 3) (k : Nat) :
    ∀ (fields : List Mem) (a : Nat), k ≤ fields.length →
      (putHeader w (BitVec.ofNat 32 a) fields).drop (w * k) =
        putHeader w (BitVec.ofNat 32 (a + (putData (fields.take k)).length)) (fields.drop k) := by
  induction k with
  | zero =>
    intro fields a _
    simp [putData]
  | succ k ih =>
    intro fields a hk
    cases fields with
    | nil => simp at hk
    | cons pRec fields =>
      have hk' : k ≤ fields.length := by simpa using hk
      have hdrop : w * (k + 1) = (putIdx w (BitVec.ofNat 32 a)).length + w * k := by
        rw [putIdx_length hw, Nat.mul_succ]
        omega
      rw [putHeader, hdrop, List.drop_length_add_append, List.take_succ_cons, List.drop_succ_cons,
        ← BitVec.ofNat_add, ih fields _ hk', putData, putData, List.flatMap_cons, List.length_append,
        Nat.add_assoc]

/-! ## Round trip -/

/-- The `k`-th offset of the record of `fields`, before it is cut to its width. -/
def offsetOf (fields : List Mem) (k : Nat) : Nat :=
  encodeWidth (putData fields).length fields.length * (fields.length + 1) +
    (putData (fields.take k)).length

/-- The record of `fields`. -/
def recordOf (fields : List Mem) : Bytes :=
  let idxWidth := encodeWidth (putData fields).length fields.length
  putHeader idxWidth (BitVec.ofNat 32 (offsetOf fields 0)) fields ++ putData fields

/-- With P2 = 0 the record has no extra bytes, and `uniqueCnt` stays. -/
theorem opMakeRecord_zero (e : Endian) (uniqueCnt : CInt) (stack : List Mem) :
    (opMakeRecord e 0 uniqueCnt stack).1.z = recordOf (stack.map recordField) ∧
      (opMakeRecord e 0 uniqueCnt stack).2 = uniqueCnt := by
  simp [opMakeRecord, Mem.ofBytes, recordOf, offsetOf, putData]

theorem putData_take_succ (fields : List Mem) (k : Nat) (hk : k < fields.length) :
    putData (fields.take (k + 1)) = putData (fields.take k) ++ fieldData fields[k] := by
  unfold putData
  rw [List.take_succ_eq_append_getElem hk, List.flatMap_append, List.flatMap_singleton]

theorem putData_take_drop (fields : List Mem) (k : Nat) :
    putData (fields.take k) ++ putData (fields.drop k) = putData fields := by
  unfold putData
  rw [← List.flatMap_append, List.take_append_drop]

/-- Two neighbouring offsets of a header. -/
theorem putHeader_pair {w : Nat} (hw : w = 1 ∨ w = 2 ∨ w = 3) (fields : List Mem) (a k : Nat)
    (hk : k < fields.length) : ∃ rest, (putHeader w (BitVec.ofNat 32 a) fields).drop (w * k) =
      putIdx w (BitVec.ofNat 32 (a + (putData (fields.take k)).length)) ++
        (putIdx w (BitVec.ofNat 32 (a + (putData (fields.take (k + 1))).length)) ++ rest) := by
  rw [putHeader_drop hw k fields a (by omega), List.drop_eq_getElem_cons hk, putHeader, ← BitVec.ofNat_add,
    putData_take_succ fields k hk, List.length_append, Nat.add_assoc]
  obtain ⟨rest, hrest⟩ := putHeader_head w (BitVec.ofNat 32 (a + ((putData (fields.take k)).length +
    (fieldData fields[k]).length))) (fields.drop (k + 1))
  exact ⟨rest, by rw [hrest]⟩

theorem recordOf_length (fields : List Mem) :
    (recordOf fields).length = offsetOf fields fields.length := by
  rw [recordOf, List.length_append, putHeader_length (encodeWidth_cases _ _), offsetOf,
    List.take_length]

theorem decodeWidth_record (fields : List Mem) : decodeWidth (recordOf fields).length =
    encodeWidth (putData fields).length fields.length := by
  rw [recordOf_length, offsetOf, List.take_of_length_le (Nat.le_refl _), idxWidth_agree]

theorem offsetOf_succ (fields : List Mem) (k : Nat) (hk : k < fields.length) :
    offsetOf fields (k + 1) = offsetOf fields k + (fieldData fields[k]).length := by
  rw [offsetOf, offsetOf, putData_take_succ fields k hk, List.length_append, Nat.add_assoc]

theorem offsetOf_le (fields : List Mem) (k : Nat) :
    offsetOf fields k ≤ offsetOf fields fields.length := by
  have h := congrArg List.length (putData_take_drop fields k)
  rw [List.length_append] at h
  rw [offsetOf, offsetOf, List.take_of_length_le (Nat.le_refl _)]
  omega

/-- What the decoder makes of the two offsets it reads. -/
theorem opColumn_recordOf (fields : List Mem) (k : Nat) (hk : k < fields.length) (junk : Bytes) :
    opColumn (recordOf fields) k junk =
      let idxWidth := encodeWidth (putData fields).length fields.length
      let offset := offsetOf fields k % 256 ^ idxWidth
      let fin := offsetOf fields (k + 1) % 256 ^ idxWidth
      if fin < offset ∨ (recordOf fields).length < fin then .corrupt
      else if fin - offset = 0 then .null
      else .str (((recordOf fields).drop offset).take (fin - offset)) := by
  obtain ⟨w, hweq⟩ : ∃ w, w = encodeWidth (putData fields).length fields.length := ⟨_, rfl⟩
  have hw : w = 1 ∨ w = 2 ∨ w = 3 := hweq ▸ encodeWidth_cases _ _
  have hrec : recordOf fields =
      putHeader w (BitVec.ofNat 32 (offsetOf fields 0)) fields ++ putData fields := by
    rw [hweq]
    rfl
  have hhdr := putHeader_length hw fields (BitVec.ofNat 32 (offsetOf fields 0))
  have hlen := congrArg List.length hrec
  rw [List.length_append, hhdr] at hlen
  have hdec := decodeWidth_record fields
  rw [← hweq] at hdec ⊢
  have hmul : w * (k + 2) ≤ w * (fields.length + 1) := Nat.mul_le_mul_left w (by omega)
  have hk1 : w * (k + 2) = w * k + 2 * w := by rw [Nat.mul_add, Nat.mul_comm w 2]
  have hk2 : w * (k + 1) = w * k + w := Nat.mul_succ w k
  obtain ⟨rest, hpair⟩ := putHeader_pair hw fields (offsetOf fields 0) k hk
  have haHdr : ((recordOf fields).drop (w * k) ++ junk).take (2 * w) =
      putIdx w (BitVec.ofNat 32 (offsetOf fields k)) ++
        (putIdx w (BitVec.ofNat 32 (offsetOf fields (k + 1))) ++ []) := by
    rw [hrec, List.drop_append_of_le_length (by omega), hpair, List.append_nil]
    simp only [← List.append_assoc]
    rw [List.append_assoc, List.append_assoc, List.take_left']
    · simp [offsetOf, putData]
    · rw [List.length_append, putIdx_length hw, putIdx_length hw]
      omega
  have hpos : 0 < w := by omega
  unfold opColumn
  rw [if_neg (by omega), hdec]
  dsimp only
  rw [if_neg (by omega), haHdr, getIdx_putIdx hw, List.drop_left' (putIdx_length hw _), getIdx_putIdx hw]

/-- The data of a field stands at its offset. -/
theorem recordOf_data (fields : List Mem) (k : Nat) (hk : k < fields.length) :
    ((recordOf fields).drop (offsetOf fields k)).take (fieldData fields[k]).length =
      fieldData fields[k] := by
  have hdata : putData fields = putData (fields.take k) ++
      (fieldData fields[k] ++ putData (fields.drop (k + 1))) := by
    rw [← List.append_assoc, ← putData_take_succ, putData_take_drop]
  have hhdr := putHeader_length (encodeWidth_cases (putData fields).length fields.length) fields
    (BitVec.ofNat 32 (offsetOf fields 0))
  rw [offsetOf, ← hhdr, recordOf, List.drop_length_add_append]
  conv_lhs => rw [hdata]
  rw [List.drop_left, List.take_left]

/-- Where its two offsets are not truncated a field is read back. -/
theorem opColumn_record (fields : List Mem) (k : Nat) (hk : k < fields.length) (junk : Bytes)
    (h : offsetOf fields (k + 1) < 256 ^ encodeWidth (putData fields).length fields.length) :
    opColumn (recordOf fields) k junk =
      if fieldData fields[k] = [] then .null else .str (fieldData fields[k]) := by
  have hsucc := offsetOf_succ fields k hk
  have hle := offsetOf_le fields (k + 1)
  rw [opColumn_recordOf fields k hk]
  dsimp only
  rw [Nat.mod_eq_of_lt h, Nat.mod_eq_of_lt (by omega), recordOf_length,
    if_neg (by omega), hsucc, Nat.add_sub_cancel_left, recordOf_data fields k hk]
  simp only [List.length_eq_zero_iff]

/-! ## Records below 2^24 bytes -/

/-- What `OP_Column` has to push for a stack value. -/
def StackVal.column (v : StackVal) : ColumnOut := if v.flags.null then .null else .str v.toMem.text

/-- The bytes of the texts of the values that are not NULL. -/
def textSize (vs : List StackVal) : Nat :=
  (vs.map fun v => if v.flags.null then 0 else v.toMem.text.length).sum

/-- The fields of the record of `vs`. -/
def fieldsOf (vs : List StackVal) : List Mem := vs.map fun v => recordField v.toMem

/-- What a record promises: one width on both sides, no offset truncated, and every field
read back. -/
structure RecordSpec (vs : List StackVal) (record : Bytes) : Prop where
  width : decodeWidth record.length = encodeWidth (textSize vs) vs.length
  offset : ∀ k ≤ vs.length,
    offsetOf (fieldsOf vs) k < 256 ^ encodeWidth (textSize vs) vs.length
  column : ∀ k (h : k < vs.length) junk, opColumn record k junk = vs[k].column

theorem fieldData_recordField (v : StackVal) :
    fieldData (recordField v.toMem) = if v.flags.null then [] else v.toMem.text := by
  unfold fieldData recordField
  cases hn : v.flags.null with
  | true => simp [hn]
  | false =>
    have : v.toMem.asString.flags.null = false := by
      unfold Mem.asString
      split
      · exact hn
      · rfl
    simp [this, Mem.text]

theorem length_fieldsOf (vs : List StackVal) : (fieldsOf vs).length = vs.length := List.length_map _

theorem putData_fieldsOf (vs : List StackVal) : (putData (fieldsOf vs)).length = textSize vs := by
  induction vs with
  | nil => rfl
  | cons v vs ih =>
    have hv : (fieldData (recordField v.toMem)).length =
        if v.flags.null then 0 else v.toMem.text.length := by
      rw [fieldData_recordField]
      split <;> rfl
    rw [textSize, List.map_cons, List.sum_cons, ← hv, ← textSize, ← ih, fieldsOf, List.map_cons, putData,
      List.flatMap_cons, List.length_append]
    rfl

theorem StackVal.column_eq (v : StackVal) : v.column =
    if fieldData (recordField v.toMem) = [] then .null else .str (fieldData (recordField v.toMem)) := by
  rw [fieldData_recordField, StackVal.column]
  split
  · rw [if_pos rfl]
  · obtain ⟨s, hs⟩ := v.text_terminated
    rw [if_neg (by simp [hs])]

/-- **Records come back.** Encoder and decoder agree on the width, no offset is truncated, and
`OP_Column` pushes each value of the stack, exactly when the record is below 2^24 bytes. -/
theorem record_iff (e : Endian) (uniqueCnt : CInt) (vs : List StackVal) :
    RecordSpec vs (opMakeRecord e 0 uniqueCnt (vs.map (·.toMem))).1.z ↔
      textSize vs + 3 * (vs.length + 1) < 2 ^ 24 := by
  have hrec : (opMakeRecord e 0 uniqueCnt (vs.map (·.toMem))).1.z = recordOf (fieldsOf vs) := by
    rw [(opMakeRecord_zero e uniqueCnt _).1, fieldsOf, List.map_map]
    rfl
  have hend : offsetOf (fieldsOf vs) vs.length =
      encodeWidth (textSize vs) vs.length * (vs.length + 1) + textSize vs := by
    rw [offsetOf, ← length_fieldsOf vs, List.take_length, putData_fieldsOf]
  rw [hrec]
  apply Iff.intro
  · intro h
    have hlast := h.offset vs.length (Nat.le_refl _)
    rw [hend] at hlast
    revert hlast
    unfold encodeWidth
    split
    · omega
    · split <;> omega
  · intro h
    have hlt : offsetOf (fieldsOf vs) vs.length < 256 ^ encodeWidth (textSize vs) vs.length := by
      rw [hend]
      unfold encodeWidth
      split
      · omega
      · split <;> omega
    have hoff : ∀ k, offsetOf (fieldsOf vs) k < 256 ^ encodeWidth (textSize vs) vs.length := by
      intro k
      have hle := offsetOf_le (fieldsOf vs) k
      rw [length_fieldsOf] at hle
      omega
    refine ⟨?_, fun k _ => hoff k, fun k hk junk => ?_⟩
    · rw [decodeWidth_record, putData_fieldsOf, length_fieldsOf]
    · have hk' : k < (fieldsOf vs).length := by rwa [length_fieldsOf]
      rw [opColumn_record (fieldsOf vs) k hk' junk (by
        rw [putData_fieldsOf, length_fieldsOf]; exact hoff (k + 1)), StackVal.column_eq]
      simp only [fieldsOf, List.getElem_map]

/-- A record of one value that fills 2^24 bytes: the offset of its end is stored as 0. -/
theorem opColumn_full (e : Endian) (uniqueCnt : CInt) (v : StackVal) (h : textSize [v] = 2 ^ 24 - 6) :
    opColumn (opMakeRecord e 0 uniqueCnt [v.toMem]).1.z 0 [] = .corrupt := by
  have hwidth : encodeWidth (2 ^ 24 - 6) 1 = 3 := rfl
  have hfields : [v.toMem].map recordField = fieldsOf [v] := rfl
  have h0 : offsetOf (fieldsOf [v]) 0 = 6 := by
    rw [offsetOf, putData_fieldsOf, length_fieldsOf, h, List.length_singleton, hwidth]
    rfl
  have htake : (fieldsOf [v]).take (0 + 1) = fieldsOf [v] := rfl
  have h1 : offsetOf (fieldsOf [v]) (0 + 1) = 2 ^ 24 := by
    rw [offsetOf, htake, putData_fieldsOf, length_fieldsOf, h, List.length_singleton, hwidth]
    omega
  rw [(opMakeRecord_zero e uniqueCnt [v.toMem]).1, hfields,
    opColumn_recordOf _ 0 (by rw [length_fieldsOf]; exact Nat.one_pos)]
  dsimp only
  rw [h0, h1, putData_fieldsOf, length_fieldsOf, h, List.length_singleton, hwidth,
    if_pos (.inl (by decide))]

/-- The text of `n` letters. -/
def letters (n : Nat) : StackVal where
  i := 0
  flags := { str := true, dyn := true }
  r := .nan
  z := List.replicate n 97 ++ [0]
  kind := .inr (.inl rfl)
  terminated _ := ⟨_, rfl⟩

theorem textSize_letters (n : Nat) : textSize [letters n] = n + 1 := by
  simp [textSize, letters, Mem.text, Mem.asString]

/-- The value of 2^24 - 7 letters is stored, and `OP_Column` reports corruption. -/
theorem record_of_letters : ¬ ∀ vs : List StackVal,
    RecordSpec vs (opMakeRecord .little 0 0 (vs.map (·.toMem))).1.z := by
  intro h
  have hcol := (h [letters (2 ^ 24 - 7)]).column 0 Nat.one_pos []
  have hfull := opColumn_full .little 0 (letters (2 ^ 24 - 7)) (textSize_letters _)
  rw [List.map_singleton, hfull] at hcol
  cases hcol

end Dbsql.L1
