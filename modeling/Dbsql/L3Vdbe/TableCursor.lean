import Dbsql.Core.Lts
import Dbsql.L1Encoding.RowidKey
import Dbsql.L2Storage.Btree
/-!
# Cursor opcodes (vdbe.c:2680-3521, vdbe_method.c:1373-1395)

The opcodes that move a cursor of the virtual machine over a btree, read its rowid,
allocate rowids and change the table. `Cursor` is `cursor_t` of an open, real table
(`pCursor != 0`, no pseudo-table); `pos` is the position of its storage cursor.

**What the code does not initialise** is an argument: the bytes of `v` that `__sm_key` does
not overwrite in `OP_Recno`, and `rx` and `res` in `OP_NewRecno` when its random loop is
entered without a storage call before.

**Random numbers** are a list of draws; an `OP_NewRecno` whose draws run out has not
finished and has no successor state.
-/
namespace Dbsql.L3
open Dbsql.Core Dbsql.L1 Dbsql.L2

/-- `cursor_t` (vdbe_int.h), less the fields for pseudo-tables, indices and keys as data. -/
structure Cursor where
  pos : Option Dbt
  lastRecno : CInt
  recnoIsValid : Bool
  useRandomRowid : Bool
  nullRow : Bool
  nextRowidValid : Bool
  deferredMoveto : Bool
  movetoTarget : Bytes
  nextRowid : CInt
  deriving DecidableEq, Repr

/-- A cursor as `OP_OpenRead` and `OP_OpenWrite` leave it (vdbe.c:2534-2540). -/
def Cursor.opened : Cursor :=
  ⟨none, 0, false, false, true, false, false, [], 0⟩

/-- What an opcode pushes. -/
inductive Out
  | nothing | null | int (v : CInt)
  deriving DecidableEq, Repr

/-- The table, the cursor, `db->priorNewRowid`, `rc`, and what the last opcode pushed. -/
structure St where
  t : Btree
  c : Cursor
  priorNewRowid : CInt
  rc : Rc
  out : Out

/-- `__vdbe_cursor_moveto` (vdbe_method.c:1373-1395). -/
def vdbeCursorMoveto (t : Btree) (p : Cursor) : Cursor :=
  if p.deferredMoveto then
    let m := smMoveto t p.pos p.movetoTarget 0
    let p := { p with
      pos := m.pos
      lastRecno := keyRowid p.movetoTarget
      recnoIsValid := decide (m.result = 0) }
    let p := if m.result < 0 then { p with pos := (smNext t p.pos m.result).pos } else p
    { p with deferredMoveto := false }
  else p

/-- The key on the stack for `OP_MoveTo` and `OP_MoveLt`: an integer or a string. -/
inductive Key
  | int (i : CInt)
  | str (z : Bytes)
  deriving DecidableEq, Repr

/-- `OP_MoveTo` and `OP_MoveLt` after `__sm_moveto` has set `res` (vdbe.c:2710-2737): the cursor
and whether to jump. -/
def moveFinish (t : Btree) (lt : Bool) (p2 : Int) (pC : Cursor) (res : Int) : Cursor × Bool :=
  let pC := { pC with deferredMoveto := false }
  if lt = false ∧ res < 0 then
    let m := smNext t pC.pos res
    ({ pC with pos := m.pos, recnoIsValid := false }, decide (m.result ≠ 0 ∧ 0 < p2))
  else if lt then
    if 0 ≤ res then
      let m := smPrev t pC.pos res
      ({ pC with pos := m.pos, recnoIsValid := false }, decide (m.result ≠ 0 ∧ 0 < p2))
    else
      -- 'res' might be negative because the table is empty
      let (rc, keysize) := smKeySize t pC.pos 0
      (pC, decide ((rc ≠ .success ∨ keysize = 0) ∧ 0 < p2))
  else (pC, false)

/-- `OP_MoveTo` (`lt` false) and `OP_MoveLt` (vdbe.c:2680-2741): the cursor and whether to
jump. -/
def opMoveTo (t : Btree) (pC : Cursor) (lt : Bool) (p2 : Int) (key : Key) : Cursor × Bool :=
  let pC := { pC with nullRow := false }
  match key with
  | .int i =>
    if p2 = 0 ∧ lt = false then
      ({ pC with movetoTarget := rowidKey i, deferredMoveto := true }, false)
    else
      let m := smMoveto t pC.pos (rowidKey i) 0
      let pC := { pC with pos := m.pos, lastRecno := i, recnoIsValid := decide (m.result = 0) }
      moveFinish t lt p2 pC m.result
  | .str z =>
    let m := smMoveto t pC.pos z 0
    moveFinish t lt p2 { pC with pos := m.pos, recnoIsValid := false } m.result

/-- `OP_NotExists` (vdbe.c:2914-2934): the cursor and whether to jump. -/
def opNotExists (t : Btree) (pC : Cursor) (i : CInt) : Cursor × Bool :=
  let m := smMoveto t pC.pos (rowidKey i) 0
  let pC := { pC with
    pos := m.pos
    lastRecno := i
    recnoIsValid := decide (m.result = 0)
    nullRow := false }
  if m.rc ≠ .success ∨ m.result ≠ 0 then ({ pC with recnoIsValid := false }, true) else (pC, false)

/-- `v` in `OP_Recno`, an `int` filled by `__sm_key` and otherwise left as it was. -/
def readRowid (t : Btree) (pos : Option Dbt) (v : Bytes) : CInt :=
  let key := smKey t pos 0 4
  keyRowid (key ++ v.drop key.length)

/-- `OP_Recno` (vdbe.c:3379-3403). -/
def opRecno (t : Btree) (pC : Cursor) (v : Bytes) : Cursor × Out :=
  let pC := vdbeCursorMoveto t pC
  if pC.recnoIsValid then (pC, .int pC.lastRecno)
  else if pC.nullRow then (pC, .null)
  else (pC, .int (readRowid t pC.pos v))

/-- `OP_NullRow` (vdbe.c:3454-3461). -/
def opNullRow (pC : Cursor) : Cursor := { pC with nullRow := true, recnoIsValid := false }

/-- `OP_Last` (vdbe.c:3472-3492). -/
def opLast (t : Btree) (pC : Cursor) : Cursor :=
  let m := smLast t pC.pos 0
  { pC with pos := m.pos, nullRow := decide (m.result ≠ 0), deferredMoveto := false }

/-- `OP_Rewind` (vdbe.c:3503-3524). -/
def opRewind (t : Btree) (pC : Cursor) : Cursor :=
  let m := smFirst t pC.pos 0
  { pC with pos := m.pos, nullRow := decide (m.result ≠ 0), deferredMoveto := false }

/-- `OP_Next`, and `OP_Prev` when `prev` (vdbe.c:3543-3571): the cursor and whether to jump. -/
def opNext (t : Btree) (pC : Cursor) (prev : Bool) : Cursor × Bool :=
  if pC.nullRow then ({ pC with recnoIsValid := false }, false)
  else
    let m := if prev then smPrev t pC.pos 0 else smNext t pC.pos 0
    ({ pC with pos := m.pos, nullRow := decide (m.result ≠ 0), recnoIsValid := false },
      decide (m.result = 0))

/-- `OP_PutIntKey` (vdbe.c:3076-3133) with key `pNos->i` and the record `pTos`, of which the
integer field is read as well. -/
def opPutIntKey (s : St) (pNosI pTosI : CInt) (z : Bytes) : St :=
  let pC := s.c
  let pC :=
    if pC.nextRowidValid ∧ pC.nextRowid.toInt ≤ pTosI.toInt then { pC with nextRowidValid := false }
    else pC
  let (t, rc, pos) := smInsert s.t pC.pos (rowidKey pNosI) z
  { s with t := t, rc := rc, c := { pC with pos := pos, recnoIsValid := false, deferredMoveto := false } }

/-- `OP_Delete` (vdbe.c:3149-3164). -/
def opDelete (s : St) : St :=
  let pC := vdbeCursorMoveto s.t s.c
  let (t, rc) := smDelete s.t pC.pos
  { s with t := t, rc := rc, c := { pC with nextRowidValid := false } }

/-! ## `OP_NewRecno` -/

/-- One turn of the random generators: `rand32_r` and `rand8_r`. -/
abbrev Draw := CInt × UInt8

/-- The random loop of `OP_NewRecno` at its exit: `v`, `rx`, `res`, the cursor, and the rowids
it has looked up. -/
structure Probed where
  v : CInt
  rx : Rc
  res : Int
  pos : Option Dbt
  looked : List CInt

/-- The value tried next: near the previous one at first, then at random. -/
def nextTry (d : Draw) (v : CInt) (cnt : Nat) : CInt :=
  if v = 0 ∨ 2 < cnt then (if cnt < 5 then d.1 &&& 0xffffff else d.1)
  else v + BitVec.ofNat 32 d.2.toNat + 1

/-- The `do … while` loop of `OP_NewRecno` (vdbe.c:3018-3037). A zero is not looked up: its
`continue` goes on to the test with the `rx` and `res` of the turn before. -/
def probe (t : Btree) : List Draw → CInt → Nat → Rc → Int → Option Dbt → Option Probed
  | [], _, _, _, _, _ => none
  | d :: ds, v, cnt, rx, res, pos =>
    let v := nextTry d v cnt
    if v = 0 then
      if cnt < 1000 ∧ rx = .success ∧ res = 0 then probe t ds v cnt rx res pos
      else some ⟨v, rx, res, pos, []⟩
    else
      let m := smMoveto t pos (rowidKey v) res
      if cnt + 1 < 1000 ∧ m.rc = .success ∧ m.result = 0 then
        (probe t ds v (cnt + 1) m.rc m.result m.pos).map
          fun r => { r with looked := v :: r.looked }
      else some ⟨v, m.rc, m.result, m.pos, [v]⟩

/-- The state of `OP_NewRecno` after its first step: `v`, the cursor, `rx` and `res`. -/
structure FirstStep where
  v : CInt
  c : Cursor
  rx : Rc
  res : Int

/-- The rowid after the largest one, from the cache or from the table; `rx` and `res` stay as
they were unless the table is read. -/
def largestRowid (t : Btree) (pC : Cursor) (rx : Rc) (res : Int) : FirstStep :=
  if pC.nextRowidValid then ⟨pC.nextRowid, pC, rx, res⟩
  else
    let m := smLast t pC.pos res
    let pC := { pC with pos := m.pos }
    if m.result ≠ 0 then ⟨1, pC, m.rc, m.result⟩
    else
      let v := readRowid t pC.pos (store .big 0)
      if v = 0x7fffffff then ⟨v, { pC with useRandomRowid := true }, m.rc, m.result⟩
      else ⟨v + 1, pC, m.rc, m.result⟩

/-- The cache of the rowid after `v`. -/
def cacheNext (f : FirstStep) : FirstStep :=
  if f.v.toInt < 0x7fffffff then
    { f with c := { f.c with nextRowidValid := true, nextRowid := f.v + 1 } }
  else { f with c := { f.c with nextRowidValid := false } }

/-- The first step of `OP_NewRecno` (vdbe.c:2993-3014). -/
def firstStep (t : Btree) (pC : Cursor) (rx : Rc) (res : Int) : FirstStep :=
  if pC.useRandomRowid then ⟨0, pC, rx, res⟩ else cacheNext (largestRowid t pC rx res)

/-- `OP_NewRecno` (vdbe.c:2947-3052); the second component are the rowids looked up. -/
def opNewRecno (s : St) (draws : List Draw) (rx : Rc) (res : Int) : Option (St × List CInt) :=
  let f := firstStep s.t s.c rx res
  if f.c.useRandomRowid then
    (probe s.t draws s.priorNewRowid 0 f.rx f.res f.c.pos).map fun r =>
      let s := { s with priorNewRowid := r.v, c := { f.c with pos := r.pos } }
      if r.rx = .success ∧ r.res = 0 then ({ s with rc := .full, out := .nothing }, r.looked)
      else
        ({ s with
          out := .int r.v
          c := { s.c with recnoIsValid := false, deferredMoveto := false } }, r.looked)
  else
    some ({ s with
      out := .int f.v
      c := { f.c with recnoIsValid := false, deferredMoveto := false } }, [])

/-! ## Programs on one cursor -/

inductive Label
  | moveTo (p2 : Int) (key : CInt)
  | moveLt (p2 : Int) (key : CInt)
  | notExists (key : CInt)
  | next | prev | rewind | last | nullRow
  | recno (v : Bytes)
  | newRecno (draws : List Draw) (rx : Rc) (res : Int)
  | putIntKey (key pTosI : CInt) (z : Bytes)
  | delete
  deriving Repr

/-- A step that moves the cursor and pushes nothing. -/
def St.moved (s : St) (c : Cursor) : St := { s with c := c, out := .nothing }

/-- One opcode. -/
def exec (s : St) : Label → Option St
  | .moveTo p2 key => some (s.moved (opMoveTo s.t s.c false p2 (.int key)).1)
  | .moveLt p2 key => some (s.moved (opMoveTo s.t s.c true p2 (.int key)).1)
  | .notExists key => some (s.moved (opNotExists s.t s.c key).1)
  | .next => some (s.moved (opNext s.t s.c false).1)
  | .prev => some (s.moved (opNext s.t s.c true).1)
  | .rewind => some (s.moved (opRewind s.t s.c))
  | .last => some (s.moved (opLast s.t s.c))
  | .nullRow => some (s.moved (opNullRow s.c))
  | .recno v =>
    let r := opRecno s.t s.c v
    some { s with c := r.1, out := r.2 }
  | .newRecno draws rx res => (opNewRecno s draws rx res).map Prod.fst
  | .putIntKey key pTosI z => some { opPutIntKey s key pTosI z with out := .nothing }
  | .delete => some { opDelete s with out := .nothing }

/-- One turn of the loop of `__vdbe_exec`, which ends when `rc` is set. -/
def step (s : St) (l : Label) : Option St := if s.rc = .success then exec s l else none

/-- A table: every key is the key of a rowid. -/
def IsTable (t : Btree) : Prop := ∀ k ∈ t, ∃ r, k = ⟨rowidKey r⟩

/-- A cursor just opened on any table. -/
structure Opened (s : St) : Prop where
  table : IsTable s.t
  c : s.c = Cursor.opened
  rc : s.rc = .success

/-- Every sequence of cursor opcodes on one cursor of a table. -/
def cursorMachine : LTS St Label where
  init := Opened
  step s l s' := step s l = some s'

/-! ## What a step does to the table -/

theorem IsTable.insert {t : Btree} (h : IsTable t) (r : CInt) (z : Bytes) :
    IsTable (t.insert ⟨rowidKey r⟩ z) := by
  intro k hk
  rcases SortedMap.mem_insert.1 hk with rfl | hk
  · exact ⟨r, rfl⟩
  · exact h k hk

theorem IsTable.erase {t : Btree} (h : IsTable t) (k : Dbt) : IsTable (t.erase k) :=
  fun k' hk' => h k' (SortedMap.mem_erase.1 hk').1

theorem smDelete_t (t : Btree) (pos : Option Dbt) :
    (smDelete t pos).1 = t ∨ ∃ k, (smDelete t pos).1 = t.erase k := by
  unfold smDelete
  split
  · exact .inl rfl
  · rename_i k
    split
    · exact .inr ⟨k, rfl⟩
    · exact .inl rfl

theorem opDelete_t (s : St) : (opDelete s).t = s.t ∨ ∃ k, (opDelete s).t = s.t.erase k :=
  smDelete_t s.t (vdbeCursorMoveto s.t s.c).pos

theorem opNewRecno_t {s s' : St} {draws : List Draw} {rx : Rc} {res : Int} {looked : List CInt}
    (h : opNewRecno s draws rx res = some (s', looked)) : s'.t = s.t := by
  unfold opNewRecno at h
  simp only at h
  split at h
  · obtain ⟨r, -, hr⟩ := Option.map_eq_some_iff.1 h
    split at hr <;> cases hr <;> rfl
  · cases h
    rfl

/-- A step changes the table only by `OP_PutIntKey` and `OP_Delete`. -/
theorem step_t {s s' : St} {l : Label} (h : step s l = some s') :
    s.rc = .success ∧ exec s l = some s' ∧
      (s'.t = s.t ∨ (∃ k, s'.t = s.t.erase k) ∨ ∃ r z, s'.t = s.t.insert ⟨rowidKey r⟩ z) := by
  unfold step at h
  split at h
  · rename_i hrc
    refine ⟨hrc, h, ?_⟩
    cases l with
    | newRecno draws rx res =>
      obtain ⟨⟨s₁, looked⟩, hn, rfl⟩ := Option.map_eq_some_iff.1 h
      exact .inl (opNewRecno_t hn)
    | putIntKey key pTosI z =>
      cases h
      exact .inr (.inr ⟨key, z, rfl⟩)
    | delete =>
      cases h
      exact (opDelete_t s).imp id .inl
    | moveTo | moveLt | notExists | next | prev | rewind | last | nullRow | recno =>
      cases h
      exact .inl rfl
  · cases h

theorem IsTable.step {s s' : St} {l : Label} (h : IsTable s.t) (hs : L3.step s l = some s') :
    IsTable s'.t := by
  obtain ⟨-, -, ht | ⟨k, ht⟩ | ⟨r, z, ht⟩⟩ := step_t hs
  · exact ht ▸ h
  · exact ht ▸ h.erase k
  · exact ht ▸ h.insert r z

/-- `OP_Recno` moves the cursor only by a pending move. -/
theorem opRecno_c (t : Btree) (c : Cursor) (v : Bytes) : (opRecno t c v).1 = vdbeCursorMoveto t c := by
  unfold opRecno
  dsimp only
  split
  · rfl
  · split <;> rfl

/-- `__sm_key` under a cursor that stands on an entry reads that entry's key. -/
theorem smKey_on {t : Btree} {k : Dbt} (hk : k ∈ t) (offset len : Nat) :
    smKey t (some k) offset len = (k.data.drop offset).take len := by
  obtain ⟨e, he⟩ := Option.isSome_iff_exists.1 (SortedMap.find?_isSome.2 hk)
  obtain ⟨-, rfl⟩ := SortedMap.find?_some he
  simp only [smKey, cGet, he]

/-- On an entry of a table `OP_Recno` reads its rowid. -/
theorem readRowid_on {t : Btree} {r : CInt} (hk : ⟨rowidKey r⟩ ∈ t) (v : Bytes) (hv : v.length = 4) :
    readRowid t (some ⟨rowidKey r⟩) v = r := by
  have htake : (rowidKey r).take 4 = rowidKey r := List.take_of_length_le (rowidKey_length r).le
  simp only [readRowid, smKey_on hk, List.drop_zero, htake, rowidKey_length]
  rw [List.drop_of_length_le hv.le, List.append_nil, keyRowid_rowidKey]

end Dbsql.L3
