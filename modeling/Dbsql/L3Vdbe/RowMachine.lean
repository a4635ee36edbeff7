import Dbsql.L3Vdbe.IdxPut
import Dbsql.L3Vdbe.Recno
import Dbsql.L3Vdbe.Stack
/-!
# The row opcodes (vdbe.c)

The opcodes that check, store and delete a row of a table that has indices, over one storage:
the table and its indices. A cursor is closed, or open on the table, on an index, or on a
pseudo-table that holds one row. The stack has its top first.

An opcode that ends the program with an error, fails an assertion, or works on a cursor of a
kind that the row code does not use it on has no next state. What an opcode reads without
anybody having written it is an argument (`Unset`).

Results:
* `opIsUnique_cases`: what `OP_IsUnique` finds, by the smallest key at or above the new fields.
* `opIdxDelete_mem`: `OP_IdxDelete` of a key that is there.
* `Points.recno`, `Points.payload`: what is read under a cursor that is on a row, or is to be
  moved there.
-/
namespace Dbsql.L3.Row
open Dbsql.Core Dbsql.L1 Dbsql.L2

/-- What the opcodes read without it having been set; `i` is the integer field of a record. -/
structure Unset extends Junk where
  i : CInt

/-- An entry of `p->aCsr`. -/
inductive Csr
  | closed
  | table (c : Cursor)
  /-- on the index with this number -/
  | index (i : Nat) (pos : Option Dbt)
  /-- the key and the data of its row -/
  | pseudo (row : Option (CInt × Bytes))

/-- The stack, the cursors, the table and its indices, and the counts of changes. -/
structure Vm where
  stack : List Val
  aCsr : Nat → Csr
  t : Btree
  idx : Nat → Btree
  numLastChanges : CInt
  numTotalChanges : CInt
  lastRowid : CInt

inductive Op
  | string (p3 : Option Bytes)
  /-- the code of an expression, which leaves its value -/
  | expr (v : Val)
  | dup (p1 : Nat)
  | pop (p1 : Nat)
  | push (p1 : Nat)
  /-- `OP_NotNull` with P1 1 -/
  | notNull (p2 : Nat)
  /-- `OP_Eq` with P1 0 -/
  | eq (p2 : Nat)
  /-- `OP_MustBeInt` with P2 0 -/
  | mustBeInt
  | goto (p2 : Nat)
  | halt (p1 : Rc) (p2 : Oe) (p3 : Bytes)
  | recno (p1 : Nat)
  | column (p1 p2 : Nat)
  /-- `OP_MoveTo` with P2 0 -/
  | moveTo (p1 : Nat)
  | notExists (p1 p2 : Nat)
  | delete (p1 : Nat) (p2 : Bool)
  /-- `OP_MakeRecord` with P2 0 -/
  | makeRecord (p1 : Nat)
  | putIntKey (p1 : Nat) (p2 : Bool)
  | makeIdxKey (p1 p2 : Nat) (p3 : Bytes)
  | isUnique (p1 p2 : Nat)
  /-- `OP_IdxPut` with P2 0 -/
  | idxPut (p1 : Nat)
  | idxDelete (p1 : Nat)
  deriving DecidableEq, Repr

/-! ## Opcodes on a value, a record or an index -/

section
variable {L : Type} (ar : Arith L)

/-- `(double)i == r` for the `int` a double is cast to. -/
def realAsInt (r : Double) : Option CInt :=
  if r.toRat = some ((ar.toInt r).toInt : ℚ) then some (ar.toInt r) else none

/-- `OP_MustBeInt` (vdbe.c:1380-1423): the integer, unless there is a mismatch. -/
def mustBeInt : Val → Option CInt
  | .null => none
  | .int i _ => some i
  | .real r => realAsInt ar r
  | .str z =>
    let (v, ok) := dbsqlAtoi z
    if ok then some v
    else if strIsNumeric z then realAsInt ar (dbsqlAtof ar.ld z)
    else none

end

/-- What `OP_IsUnique` comes to, with its cursor: no other entry, the rowid of another entry, or
an error. -/
inductive Unique
  | unique (pos : Option Dbt)
  | other (pos : Option Dbt) (v : CInt)
  | failed
  deriving DecidableEq, Repr

/-- `OP_IsUnique` (vdbe.c:2825-2900) of the key `zKey` and the rowid `r`. -/
def opIsUnique (t : Btree) (pos : Option Dbt) (junk : Unset) (zKey : Bytes) (r : CInt) : Unique :=
  let m := smMoveto t pos (beforeRowid zKey) junk.res
  if m.rc ≠ .success then .failed
  else
    let m' := if m.result < 0 then smNext t m.pos m.result else m
    if m.result < 0 ∧ m'.result ≠ 0 then .unique m'.pos
    else
      let (rc, res) := smKeyCompare t m'.pos (beforeRowid zKey) 4 m'.result
      if rc ≠ .success then .failed
      else if 0 < res then .unique m'.pos
      else
        let key := smKey t m'.pos (zKey.length - 4) 4
        let v := keyRowid (key ++ junk.v.drop key.length)
        if v = r then .unique m'.pos else .other m'.pos v

/-- `OP_IdxDelete` (vdbe.c:3631-3648): the index, its cursor and `rc`. -/
def opIdxDelete (t : Btree) (pos : Option Dbt) (junk : Unset) (zKey : Bytes) :
    Btree × Option Dbt × Rc :=
  let m := smMoveto t pos zKey junk.res
  if m.rc = .success ∧ m.result = 0 then
    let (t, rc) := smDelete t m.pos
    (t, m.pos, rc)
  else (t, m.pos, .success)

/-- What `OP_Column` pushes, unless the record is corrupt. -/
def pushedVal : ColumnOut → Option Val
  | .null => some .null
  | .str z => some (.str z)
  | .corrupt => none

/-- What `OP_Recno` pushes. -/
def recnoVal : Out → Val
  | .int v => .int v none
  | _ => .null

/-! ## The machine -/

/-- With another entry of `p->aCsr`. -/
def Vm.setCsr (s : Vm) (n : Nat) (c : Csr) : Vm := { s with aCsr := Function.update s.aCsr n c }

/-- With another index. -/
def Vm.setIdx (s : Vm) (i : Nat) (t : Btree) : Vm := { s with idx := Function.update s.idx i t }

/-- The counts after a change that P2 says to count. -/
def Vm.counted (s : Vm) (p2 : Bool) : Vm :=
  if p2 then
    { s with numLastChanges := s.numLastChanges + 1, numTotalChanges := s.numTotalChanges + 1 }
  else s

section
variable {L : Type} (ar : Arith L) (e : Endian) (junk : Unset)

/-- An opcode that works on the stack alone. -/
def onStack (o : Stack.Op) (pc : Nat) (s : Vm) : Option (Nat × Vm) :=
  (Stack.exec ar Stack.emptyEnv o (pc, s.stack)).map fun t => (t.1, { s with stack := t.2 })

/-- `OP_Recno` on a table. -/
def execRecno (p1 pc : Nat) (s : Vm) : Option (Nat × Vm) :=
  match s.aCsr p1 with
  | .table c =>
    let r := opRecno s.t c junk.v
    some (pc + 1, { s.setCsr p1 (.table r.1) with stack := recnoVal r.2 :: s.stack })
  | _ => none

/-- `OP_Column` on a table. -/
def execColumn (p1 p2 pc : Nat) (s : Vm) : Option (Nat × Vm) :=
  match s.aCsr p1 with
  | .table c =>
    let c := vdbeCursorMoveto s.t c
    (pushedVal (opColumn (payload s.t c) p2 junk.hdr)).map fun v =>
      (pc + 1, { s.setCsr p1 (.table c) with stack := v :: s.stack })
  | _ => none

/-- `OP_MoveTo` with P2 0 on a table. -/
def execMoveTo (p1 pc : Nat) (s : Vm) : Option (Nat × Vm) :=
  match s.stack, s.aCsr p1 with
  | tos :: st, .table c =>
    let key : Key := match tos with
      | .int i _ => .int i
      | v => .str v.text
    some (pc + 1, { s.setCsr p1 (.table (opMoveTo s.t c false 0 key).1) with stack := st })
  | _ :: st, .closed => some (pc + 1, { s with stack := st })
  | _, _ => none

/-- `OP_NotExists` (vdbe.c:2914-2938). -/
def execNotExists (p1 p2 pc : Nat) (s : Vm) : Option (Nat × Vm) :=
  match s.stack, s.aCsr p1 with
  | .int i _ :: st, .table c =>
    let r := opNotExists s.t c i
    some (if r.2 then p2 else pc + 1, { s.setCsr p1 (.table r.1) with stack := st })
  | .int _ _ :: st, .closed => some (pc + 1, { s with stack := st })
  | _, _ => none

/-- `OP_Delete` (vdbe.c:3149-3164). -/
def execDelete (p1 : Nat) (p2 : Bool) (pc : Nat) (s : Vm) : Option (Nat × Vm) :=
  match s.aCsr p1 with
  | .table c =>
    let r := opDelete ⟨s.t, c, 0, .success, .nothing⟩
    if r.rc = .success then some (pc + 1, { (s.setCsr p1 (.table r.c)).counted p2 with t := r.t })
    else none
  | .closed => some (pc + 1, s.counted p2)
  | _ => none

/-- `OP_PutIntKey` (vdbe.c:3076-3133). -/
def execPutIntKey (p1 : Nat) (p2 : Bool) (pc : Nat) (s : Vm) : Option (Nat × Vm) :=
  match s.stack, s.aCsr p1 with
  | .str z :: .int i _ :: st, .table c =>
    let r := opPutIntKey ⟨s.t, c, 0, .success, .nothing⟩ i junk.i z
    let s := { (s.setCsr p1 (.table r.c)).counted p2 with stack := st, t := r.t }
    if r.rc = .success then some (pc + 1, { s with lastRowid := if p2 then i else s.lastRowid })
    else none
  | .str z :: .int i _ :: st, .pseudo _ =>
    let s := { (s.setCsr p1 (.pseudo (some (i, z)))).counted p2 with stack := st }
    some (pc + 1, { s with lastRowid := if p2 then i else s.lastRowid })
  | .str _ :: .int _ _ :: st, .closed => some (pc + 1, { s with stack := st })
  | _, _ => none

/-- `OP_MakeRecord` with P2 0. -/
def execMakeRecord (p1 pc : Nat) (s : Vm) : Option (Nat × Vm) :=
  if p1 ≤ s.stack.length then
    let fields := (s.stack.take p1).reverse.map Val.toMem
    some (pc + 1, { s with stack := .str (opMakeRecord e 0 0 fields).1.z :: s.stack.drop p1 })
  else none

/-- `OP_MakeIdxKey`. -/
def execMakeIdxKey (p1 p2 : Nat) (p3 : Bytes) (pc : Nat) (s : Vm) : Option (Nat × Vm) :=
  s.stack[p1]?.map fun rowid =>
    let key := opMakeIdxKey ar.ld p2 (some p3) ((s.stack.take p1).reverse.map Val.toMem)
      (rowid.toInt ar)
    (if key.2 then p2 else pc + 1, { s with stack := .str key.1.z :: s.stack.drop (p1 + 1) })

/-- `OP_IsUnique`. -/
def execIsUnique (p1 p2 pc : Nat) (s : Vm) : Option (Nat × Vm) :=
  match s.stack, s.aCsr p1 with
  | tos :: nos :: st, .index i pos =>
    match opIsUnique (s.idx i) pos junk nos.text (tos.toInt ar) with
    | .unique pos => some (p2, { s.setCsr p1 (.index i pos) with stack := nos :: st })
    | .other pos v =>
      some (pc + 1, { s.setCsr p1 (.index i pos) with stack := .int v none :: nos :: st })
    | .failed => none
  | _ :: nos :: st, .closed => some (pc + 1, { s with stack := nos :: st })
  | _, _ => none

/-- `OP_IdxPut` with P2 0. -/
def execIdxPut (p1 pc : Nat) (s : Vm) : Option (Nat × Vm) :=
  match s.stack, s.aCsr p1 with
  | .str z :: st, .index i pos =>
    let r := opIdxPut (s.idx i) pos false "" z junk.n junk.c junk.res
    if r.rc = .success then
      some (pc + 1, { (s.setCsr p1 (.index i r.pos)).setIdx i r.t with stack := st })
    else none
  | .str _ :: st, .closed => some (pc + 1, { s with stack := st })
  | _, _ => none

/-- `OP_IdxDelete`. -/
def execIdxDelete (p1 pc : Nat) (s : Vm) : Option (Nat × Vm) :=
  match s.stack, s.aCsr p1 with
  | .str z :: st, .index i pos =>
    let (t, pos, rc) := opIdxDelete (s.idx i) pos junk z
    if rc = .success then
      some (pc + 1, { (s.setCsr p1 (.index i pos)).setIdx i t with stack := st })
    else none
  | .str _ :: st, .closed => some (pc + 1, { s with stack := st })
  | _, _ => none

/-- One opcode. -/
def exec : Op → Nat × Vm → Option (Nat × Vm)
  | .string p3, (pc, s) => onStack ar (.string p3) pc s
  | .expr v, (pc, s) => some (pc + 1, { s with stack := v :: s.stack })
  | .dup p1, (pc, s) => onStack ar (.dup p1) pc s
  | .pop p1, (pc, s) => onStack ar (.pop p1) pc s
  | .push p1, (pc, s) =>
    -- the top is written over the entry, then taken off
    match s.stack with
    | [] => none
    | tos :: st =>
      if p1 ≤ st.length then some (pc + 1, { s with stack := ((tos :: st).set p1 tos).tail })
      else none
  | .notNull p2, (pc, s) => onStack ar (.notNull false p2) pc s
  | .eq p2, (pc, s) => onStack ar (.cmp false .eq false p2) pc s
  | .mustBeInt, (pc, s) =>
    match s.stack with
    | [] => none
    | tos :: st => (mustBeInt ar tos).map fun i => (pc + 1, { s with stack := .int i none :: st })
  | .goto p2, (pc, s) => onStack ar (.goto p2) pc s
  | .halt _ _ _, _ => none
  | .recno p1, (pc, s) => execRecno junk p1 pc s
  | .column p1 p2, (pc, s) => execColumn junk p1 p2 pc s
  | .moveTo p1, (pc, s) => execMoveTo p1 pc s
  | .notExists p1 p2, (pc, s) => execNotExists p1 p2 pc s
  | .delete p1 p2, (pc, s) => execDelete p1 p2 pc s
  | .makeRecord p1, (pc, s) => execMakeRecord e p1 pc s
  | .putIntKey p1 p2, (pc, s) => execPutIntKey junk p1 p2 pc s
  | .makeIdxKey p1 p2 p3, (pc, s) => execMakeIdxKey ar p1 p2 p3 pc s
  | .isUnique p1 p2, (pc, s) => execIsUnique ar junk p1 p2 pc s
  | .idxPut p1, (pc, s) => execIdxPut junk p1 pc s
  | .idxDelete p1, (pc, s) => execIdxDelete junk p1 pc s

end

/-! ## Index entries -/

section
variable {t : Btree} {pos : Option Dbt} {junk : Unset} {zKey : Bytes} {r : CInt}

theorem opIdxDelete_mem (h : ⟨zKey⟩ ∈ t) :
    opIdxDelete t pos junk zKey = (t.erase ⟨zKey⟩, some ⟨zKey⟩, .success) := by
  simp only [opIdxDelete, smMoveto_mem h, smDelete, h, and_self, if_true]

theorem opIdxPut_plain :
    opIdxPut t pos false "" zKey junk.n junk.c junk.res = ⟨t.insert ⟨zKey⟩ [], .success, some ⟨zKey⟩, ""⟩ :=
  opIdxPut_inserts ..

/-- No entry at or above the fields of the key has fields below them. -/
def FieldsOrdered (t : Btree) (zKey : Bytes) : Prop :=
  ∀ k ∈ t, (⟨beforeRowid zKey⟩ : Dbt) ≤ k → 0 ≤ smCmpValues (beforeRowid k.data) (beforeRowid zKey)

theorem smKeyCompare_on {k : Dbt} (hk : k ∈ t) (hlen : 4 ≤ k.data.length) (value : Bytes) (c : Int) :
    smKeyCompare t (some k) value 4 c = (.success, smCmpValues (beforeRowid k.data) value) := by
  obtain ⟨e, he⟩ := Option.isSome_iff_exists.1 (SortedMap.find?_isSome.2 hk)
  obtain ⟨-, rfl⟩ := SortedMap.find?_some he
  have hnlen : ¬ ((e.1.data.length : Int) - 4 < 0) := by omega
  have hnat : ((e.1.data.length : Int) - 4).toNat = e.1.data.length - 4 := by omega
  simp only [smKeyCompare, cGet, he, Nat.cast_ofNat, if_neg hnlen, hnat, beforeRowid]

/-- `OP_IsUnique` goes by the smallest entry at or above the new fields. -/
theorem opIsUnique_cases (hlen : ∀ k ∈ t, 4 ≤ k.data.length) :
    (∃ pos', opIsUnique t pos junk zKey r = .unique pos') ∨
    ∃ k ∈ t, (⟨beforeRowid zKey⟩ : Dbt) ≤ k ∧
      smCmpValues (beforeRowid k.data) (beforeRowid zKey) ≤ 0 ∧
      ∃ v, v ≠ r ∧ opIsUnique t pos junk zKey r = .other (some k) v ∧
        (junk.v.length = 4 → k.data.length = zKey.length →
          v = keyRowid (k.data.drop (k.data.length - 4))) := by
  rcases smMoveto_cases t pos (beforeRowid zKey) junk.res with ⟨e, hc, h⟩ | ⟨e, -, hl, h⟩ | ⟨hno, h⟩
  · obtain ⟨he, hle, -⟩ := SortedMap.ceil_some hc
    have hk := SortedMap.mem_of_entry he
    have hcmp := smKeyCompare_on hk (hlen _ hk) (beforeRowid zKey) 0
    unfold opIsUnique
    simp only [h, ne_eq, not_true_eq_false, if_false, Int.lt_irrefl, false_and, hcmp]
    split
    · exact .inl ⟨_, rfl⟩
    · rename_i hpos
      split
      · exact .inl ⟨_, rfl⟩
      · rename_i hv
        refine .inr ⟨e.1, hk, hle, by omega, _, hv, rfl, fun hj heq => ?_⟩
        have h4 := hlen _ hk
        have hdrop : (e.1.data.drop (e.1.data.length - 4)).length = 4 := by
          rw [List.length_drop]
          omega
        rw [smKey_on hk, ← heq, List.take_of_length_le hdrop.le, hdrop, List.drop_of_length_le hj.le,
          List.append_nil]
  · -- nothing is at or above the new fields, and nothing is after the last entry
    have hs : t.succ e.1 = none := SortedMap.succ_eq_none.2 (SortedMap.last_some hl).2
    have hn : smNext t (some e.1) (-1) = ⟨.success, 1, some e.1⟩ := by rw [smNext_on, hs]
    refine .inl ⟨some e.1, ?_⟩
    simp [opIsUnique, h, hn]
  · refine .inl ⟨(smNext t pos (-1)).pos, ?_⟩
    have hn := @smNext_empty t pos (-1) hno
    simp [opIsUnique, h, hn]

/-- Where the fields are in order, another entry that `OP_IsUnique` reports has the same ones. -/
theorem opIsUnique_other (hlen : ∀ k ∈ t, 4 ≤ k.data.length) (hz : 4 ≤ zKey.length)
    (hj : junk.v.length = 4) (hord : FieldsOrdered t zKey) :
    (∃ pos', opIsUnique t pos junk zKey r = .unique pos') ∨
    ∃ k ∈ t, SameFields zKey k.data ∧ keyRowid (k.data.drop (k.data.length - 4)) ≠ r ∧
      opIsUnique t pos junk zKey r =
        .other (some k) (keyRowid (k.data.drop (k.data.length - 4))) := by
  rcases @opIsUnique_cases t pos junk zKey r hlen with
    h | ⟨k, hk, hle, hcmp, v, hv, h, hrow⟩
  · exact .inl h
  · have hge := hord k hk hle
    have hsame : beforeRowid k.data = beforeRowid zKey := smCmpValues_eq_zero.1 (by omega)
    have h4 := hlen k hk
    have hlens := congrArg List.length hsame
    rw [beforeRowid, beforeRowid, List.length_take, List.length_take] at hlens
    obtain rfl := hrow hj (by omega)
    exact .inr ⟨k, hk, hsame.symm, hv, h⟩

end

/-! ## A cursor on a row -/

/-- The cursor is on the row `r`, or is to be moved there. -/
structure Points (t : Btree) (c : Cursor) (r : CInt) : Prop where
  mem : (⟨rowidKey r⟩ : Dbt) ∈ t
  nullRow : c.nullRow = false
  pos : (vdbeCursorMoveto t c).pos = some ⟨rowidKey r⟩
  last : (vdbeCursorMoveto t c).recnoIsValid = true → (vdbeCursorMoveto t c).lastRecno = r

theorem vdbeCursorMoveto_deferred (t : Btree) (c : Cursor) :
    (vdbeCursorMoveto t c).deferredMoveto = false := by
  unfold vdbeCursorMoveto
  split
  · rfl
  · rename_i h
    simpa using h

theorem vdbeCursorMoveto_of_not_deferred {t : Btree} {c : Cursor} (h : c.deferredMoveto = false) :
    vdbeCursorMoveto t c = c := by
  unfold vdbeCursorMoveto
  rw [if_neg (by simp [h])]

theorem vdbeCursorMoveto_idem (t : Btree) (c : Cursor) :
    vdbeCursorMoveto t (vdbeCursorMoveto t c) = vdbeCursorMoveto t c :=
  vdbeCursorMoveto_of_not_deferred (vdbeCursorMoveto_deferred t c)

section
variable {t : Btree} {c : Cursor} {r : CInt}

theorem Points.moveto (h : Points t c r) : Points t (vdbeCursorMoveto t c) r := by
  refine ⟨h.mem, (vdbeCursorMoveto_nullRow t c).trans h.nullRow, ?_, ?_⟩
  · rw [vdbeCursorMoveto_idem]
    exact h.pos
  · rw [vdbeCursorMoveto_idem]
    exact h.last

/-- `OP_Recno` pushes the rowid of the row. -/
theorem Points.recno (h : Points t c r) {v : Bytes} (hv : v.length = 4) :
    opRecno t c v = (vdbeCursorMoveto t c, .int r) := by
  unfold opRecno
  dsimp only
  split
  · rename_i hvalid
    rw [h.last hvalid]
  · rw [if_neg (by simp [vdbeCursorMoveto_nullRow, h.nullRow]), h.pos, readRowid_on h.mem v hv]

/-- The record under the cursor. -/
theorem Points.payload (h : Points t c r) {row : Dbt × Bytes} (hrow : row ∈ t.entries)
    (hkey : row.1 = ⟨rowidKey r⟩) : L3.payload t (vdbeCursorMoveto t c) = row.2 := by
  unfold L3.payload
  simp [vdbeCursorMoveto_nullRow, h.nullRow, h.pos, ← hkey, find?_entry hrow]

/-- A move to a row that is there. -/
theorem Points.ofMoveTo (h : (⟨rowidKey r⟩ : Dbt) ∈ t) (c : Cursor) :
    Points t (opMoveTo t c false 0 (.int r)).1 r := by
  have hc : (opMoveTo t c false 0 (.int r)).1 =
      { c with nullRow := false, movetoTarget := rowidKey r, deferredMoveto := true } := by
    simp [opMoveTo]
  rw [hc]
  refine ⟨h, rfl, ?_, fun _ => ?_⟩
  · simp [vdbeCursorMoveto, smMoveto_mem h]
  · simp [vdbeCursorMoveto, smMoveto_mem h]

/-- `OP_NotExists` jumps exactly where every row is below the rowid. -/
theorem opNotExists_jumps : (opNotExists t c r).2 = true ↔ ∀ k ∈ t, k < ⟨rowidKey r⟩ := by
  have hres := @smMoveto_result_eq_zero t c.pos (rowidKey r) 0
  unfold opNotExists
  dsimp only
  simp only [smMoveto_rc, ne_eq, not_true_eq_false, false_or]
  split
  · rename_i hne
    refine ⟨fun _ k hk => ?_, fun _ => rfl⟩
    exact not_le.1 fun hle => hne (hres.2 ⟨k, hk, hle⟩)
  · rename_i heq
    refine ⟨nofun, fun hlt => ?_⟩
    obtain ⟨k, hk, hle⟩ := hres.1 (not_not.1 heq)
    exact absurd (hlt k hk) (not_lt.2 hle)

theorem opNotExists_mem (h : (⟨rowidKey r⟩ : Dbt) ∈ t) : (opNotExists t c r).2 = false := by
  rw [Bool.eq_false_iff]
  exact fun hj => absurd (opNotExists_jumps.1 hj _ h) (lt_irrefl _)

theorem opNotExists_deferred (t : Btree) (c : Cursor) (r : CInt) :
    (opNotExists t c r).1.deferredMoveto = c.deferredMoveto := by
  unfold opNotExists
  dsimp only
  split <;> rfl

/-- `OP_NotExists` of a row that is there leaves the cursor on it. -/
theorem Points.ofNotExists (h : (⟨rowidKey r⟩ : Dbt) ∈ t) (hd : c.deferredMoveto = false) :
    Points t (opNotExists t c r).1 r := by
  have hc : (opNotExists t c r).1 =
      { c with pos := some ⟨rowidKey r⟩, lastRecno := r, recnoIsValid := true, nullRow := false } := by
    simp [opNotExists, smMoveto_mem h]
  have hm : vdbeCursorMoveto t (opNotExists t c r).1 = (opNotExists t c r).1 :=
    vdbeCursorMoveto_of_not_deferred ((opNotExists_deferred t c r).trans hd)
  refine ⟨h, ?_, ?_, fun _ => ?_⟩
  · rw [hc]
  · rw [hm, hc]
  · rw [hm, hc]

/-- `OP_Delete` removes the row. -/
theorem Points.delete (h : Points t c r) : ∃ c', c'.deferredMoveto = false ∧
    opDelete ⟨t, c, 0, .success, .nothing⟩ = ⟨t.erase ⟨rowidKey r⟩, c', 0, .success, .nothing⟩ := by
  refine ⟨{ vdbeCursorMoveto t c with nextRowidValid := false }, vdbeCursorMoveto_deferred t c, ?_⟩
  simp only [opDelete, smDelete, h.pos, h.mem, if_true]

theorem opPutIntKey_eq (t : Btree) (c : Cursor) (i junk : CInt) (z : Bytes) :
    ∃ c', c'.deferredMoveto = false ∧ opPutIntKey ⟨t, c, 0, .success, .nothing⟩ i junk z =
      ⟨t.insert ⟨rowidKey i⟩ z, c', 0, .success, .nothing⟩ := by
  refine ⟨(opPutIntKey ⟨t, c, 0, .success, .nothing⟩ i junk z).c, rfl, ?_⟩
  simp only [opPutIntKey, smInsert_eq]

end

/-! ## Cursors of one kind -/

/-- Two cursors that are open on the same thing. -/
inductive Csr.Like : Csr → Csr → Prop
  | closed : Like .closed .closed
  | table (c c' : Cursor) : Like (.table c) (.table c')
  | index (i : Nat) (pos pos' : Option Dbt) : Like (.index i pos) (.index i pos')
  | pseudo (row row' : Option (CInt × Bytes)) : Like (.pseudo row) (.pseudo row')

namespace Csr.Like

theorem refl (c : Csr) : Like c c := by
  cases c <;> constructor

theorem trans {c c' c'' : Csr} (h : Like c c') (h' : Like c' c'') : Like c c'' := by
  cases h <;> cases h' <;> constructor

end Csr.Like

/-- Two states whose cursors are open on the same things. -/
def Vm.Like (s s' : Vm) : Prop := ∀ n, (s.aCsr n).Like (s'.aCsr n)

namespace Vm.Like
variable {s s' s'' : Vm}

theorem refl (s : Vm) : s.Like s := fun n => .refl (s.aCsr n)

theorem trans (h : s.Like s') (h' : s'.Like s'') : s.Like s'' := fun n => (h n).trans (h' n)

theorem setCsr (h : s.Like s') {n : Nat} {c : Csr} (hc : (s'.aCsr n).Like c) :
    s.Like (s'.setCsr n c) := by
  intro m
  refine (h m).trans ?_
  unfold Vm.setCsr
  by_cases hm : m = n
  · subst hm
    simpa using hc
  · simp only [Function.update_of_ne hm]
    exact .refl _

theorem table (h : s.Like s') {n : Nat} {c : Cursor} (hc : s.aCsr n = .table c) :
    ∃ c', s'.aCsr n = .table c' := by
  have hn := h n
  rw [hc] at hn
  generalize s'.aCsr n = d at hn
  cases hn
  exact ⟨_, rfl⟩

theorem index (h : s.Like s') {n i : Nat} (hc : ∃ pos, s.aCsr n = .index i pos) :
    ∃ pos, s'.aCsr n = .index i pos := by
  obtain ⟨pos, hc⟩ := hc
  have hn := h n
  rw [hc] at hn
  generalize s'.aCsr n = d at hn
  cases hn
  exact ⟨_, rfl⟩

theorem pseudo (h : s.Like s') {n : Nat} (hc : ∃ row, s.aCsr n = .pseudo row) :
    ∃ row, s'.aCsr n = .pseudo row := by
  obtain ⟨row, hc⟩ := hc
  have hn := h n
  rw [hc] at hn
  generalize s'.aCsr n = d at hn
  cases hn
  exact ⟨_, rfl⟩

end Vm.Like

/-! ## Single opcodes -/

section
variable {L : Type} {ar : Arith L} {e : Endian} {junk : Unset} {pc : Nat} {s : Vm} {st : List Val}

theorem setCsr_self {n : Nat} {c : Csr} (h : s.aCsr n = c) : s.setCsr n c = s := by
  rw [Vm.setCsr, ← h, Function.update_eq_self]

theorem exec_dup {p1 : Nat} {v : Val} (h : s.stack[p1]? = some v) :
    exec ar e junk (.dup p1) (pc, s) = some (pc + 1, { s with stack := v :: s.stack }) := by
  simp [exec, onStack, Stack.exec, h]

theorem exec_pop {p1 : Nat} (h : p1 ≤ s.stack.length) :
    exec ar e junk (.pop p1) (pc, s) = some (pc + 1, { s with stack := s.stack.drop p1 }) := by
  simp [exec, onStack, Stack.exec, h]

theorem exec_notNull {p2 : Nat} {v : Val} (h : s.stack = v :: st) :
    exec ar e junk (.notNull p2) (pc, s) =
      some (if v.isNull then pc + 1 else p2, { s with stack := st }) := by
  simp [exec, onStack, Stack.exec, h]

theorem exec_push {p1 : Nat} {tos : Val} (h : s.stack = tos :: st) (hp : p1 ≤ st.length) :
    exec ar e junk (.push p1) (pc, s) =
      some (pc + 1, { s with stack := ((tos :: st).set p1 tos).tail }) := by
  simp [exec, h, hp]

/-- Two integers are compared by value. -/
theorem exec_eq {p2 : Nat} {a b : CInt} {x y : Option Bytes} (hp : p2 ≠ 0)
    (h : s.stack = .int a x :: .int b y :: st) : exec ar e junk (.eq p2) (pc, s) =
      some (if b = a then p2 else pc + 1, { s with stack := st }) := by
  have hcmp : compare3 ar false .eq (.int b y) (.int a x) = some (decide (b = a)) := by
    change some (decide (b - a = 0)) = _
    rw [decide_eq_decide.2 (by bv_omega : b - a = 0 ↔ b = a)]
  simp only [exec, onStack, h, Stack.exec_cmp_jump hp, hcmp, Stack.cmpJumps, Option.map_some,
    decide_eq_true_eq]

theorem exec_makeIdxKey {p2 : Nat} {p3 : Bytes} {vs : List Val} {r : CInt} {x : Option Bytes}
    (h : s.stack = vs.reverse ++ .int r x :: st) :
    exec ar e junk (.makeIdxKey vs.length p2 p3) (pc, s) =
      some (if p2 ≠ 0 ∧ (vs.map Val.toMem).any (·.flags.null) then p2 else pc + 1,
        { s with stack := .str (makeIdxKey ar.ld (some p3) (vs.map Val.toMem) r) :: st }) := by
  have hget : s.stack[vs.length]? = some (.int r x) := by
    rw [h, List.getElem?_append_right (by simp)]
    simp
  have htake : (s.stack.take vs.length).reverse = vs := by
    rw [h, List.take_append_of_le_length (by simp), List.take_of_length_le (by simp),
      List.reverse_reverse]
  have hdrop : s.stack.drop (vs.length + 1) = st := by
    rw [h, List.drop_append, List.drop_of_length_le (by simp)]
    simp
  simp only [exec, execMakeIdxKey, hget, htake, hdrop, Option.map_some, opMakeIdxKey, Mem.ofBytes,
    Val.toInt]
  simp

theorem exec_makeRecord {vs : List Val} (h : s.stack = vs.reverse ++ st) :
    exec ar e junk (.makeRecord vs.length) (pc, s) = some (pc + 1,
      { s with stack := .str (opMakeRecord e 0 0 (vs.map Val.toMem)).1.z :: st }) := by
  have hlen : vs.length ≤ s.stack.length := by
    rw [h]
    simp
  have htake : (s.stack.take vs.length).reverse = vs := by
    rw [h, List.take_append_of_le_length (by simp), List.take_of_length_le (by simp),
      List.reverse_reverse]
  have hdrop : s.stack.drop vs.length = st := by
    rw [h, List.drop_append, List.drop_of_length_le (by simp)]
    simp
  simp only [exec, execMakeRecord, hlen, if_true, htake, hdrop]

theorem exec_delete {p1 : Nat} {p2 : Bool} {c : Cursor} {r : CInt} (hc : s.aCsr p1 = .table c)
    (hp : Points s.t c r) : ∃ c', c'.deferredMoveto = false ∧ exec ar e junk (.delete p1 p2) (pc, s) =
      some (pc + 1, { (s.setCsr p1 (.table c')).counted p2 with t := s.t.erase ⟨rowidKey r⟩ }) := by
  obtain ⟨c', hd, he⟩ := hp.delete
  refine ⟨c', hd, ?_⟩
  simp only [exec, execDelete, hc, he, if_true]

theorem exec_moveTo {p1 : Nat} {r : CInt} {x : Option Bytes} {c : Cursor}
    (h : s.stack = .int r x :: st) (hc : s.aCsr p1 = .table c) :
    exec ar e junk (.moveTo p1) (pc, s) = some (pc + 1,
      { s.setCsr p1 (.table (opMoveTo s.t c false 0 (.int r)).1) with stack := st }) := by
  simp only [exec, execMoveTo, h, hc]

theorem exec_notExists {p1 p2 : Nat} {r : CInt} {x : Option Bytes} {c : Cursor}
    (h : s.stack = .int r x :: st) (hc : s.aCsr p1 = .table c) :
    exec ar e junk (.notExists p1 p2) (pc, s) = some (if (opNotExists s.t c r).2 then p2 else pc + 1,
      { s.setCsr p1 (.table (opNotExists s.t c r).1) with stack := st }) := by
  simp only [exec, execNotExists, h, hc]

theorem exec_idxDelete {p1 i : Nat} {pos : Option Dbt} {z : Bytes} (h : s.stack = .str z :: st)
    (hc : s.aCsr p1 = .index i pos) (hz : ⟨z⟩ ∈ s.idx i) :
    exec ar e junk (.idxDelete p1) (pc, s) = some (pc + 1,
      { (s.setCsr p1 (.index i (some ⟨z⟩))).setIdx i ((s.idx i).erase ⟨z⟩) with stack := st }) := by
  simp only [exec, execIdxDelete, h, hc, opIdxDelete_mem hz, if_true]

theorem exec_idxPut {p1 i : Nat} {pos : Option Dbt} {z : Bytes} (h : s.stack = .str z :: st)
    (hc : s.aCsr p1 = .index i pos) :
    exec ar e junk (.idxPut p1) (pc, s) = some (pc + 1,
      { (s.setCsr p1 (.index i (some ⟨z⟩))).setIdx i ((s.idx i).insert ⟨z⟩ []) with stack :=
      st }) := by
  simp only [exec, execIdxPut, h, hc, opIdxPut_plain, if_true]

end
end Dbsql.L3.Row
