import Dbsql.Core.SortedMap
import Dbsql.L1Encoding.Codes
import Dbsql.L1Encoding.Memcmp
/-!
# The storage manager's cursors (sm.c:579-1131)

A Berkeley DB btree is a `Core.SortedMap` from DBTs ordered by `__sm_bt_compare`
to byte strings. A DBC holds the key it is on; the key stays there when the entry
is deleted under the cursor, and `DB_CURRENT` then answers `DB_KEYEMPTY`. A lookup
that finds nothing leaves the cursor where it was and returns no data.

`*result` is an argument and a result, as in the source: a path that does not
assign it hands back what the caller passed.

Results:
* `smMoveto_ceil`, `smMoveto_last`, `smMoveto_empty`: what `__sm_moveto` answers, by the
  position of the search key among the keys.
* `smMoveto_contract_iff`: it keeps its own contract exactly when the search key is
  present or above every key. For a key that falls below some entry it reports
  an exact hit on the next larger key.
-/
namespace Dbsql.L2
open Dbsql.Core Dbsql.L1

abbrev Btree := SortedMap Dbt Bytes

inductive DbFlag
  | setRange | set | first | last | next | prev | current
  deriving DecidableEq, Repr

/-- What a DBC method returns: 0, `DB_NOTFOUND`, `DB_KEYEMPTY` or `EINVAL`. -/
inductive DbRc
  | ok | notFound | keyEmpty | einval
  deriving DecidableEq, Repr

/-- The outcome of `DBC->c_get`: the cursor afterwards and the entry returned. -/
structure Got where
  rc : DbRc
  pos : Option Dbt
  entry : Option (Dbt × Bytes)
  deriving DecidableEq, Repr

/-- A lookup that moves the cursor on success and leaves it on `DB_NOTFOUND`. -/
def moved (pos : Option Dbt) : Option (Dbt × Bytes) → Got
  | some e => ⟨.ok, some e.1, some e⟩
  | none => ⟨.notFound, pos, none⟩

/-- `DBC->c_get` on a cursor at `pos`. `DB_NEXT` and `DB_PREV` of a cursor that was
never positioned are `DB_FIRST` and `DB_LAST`. -/
def cGet (t : Btree) (pos : Option Dbt) (key : Dbt) : DbFlag → Got
  | .setRange => moved pos (t.ceil key)
  | .set => moved pos (t.find? key)
  | .first => moved pos t.first
  | .last => moved pos t.last
  | .next => moved pos (match pos with | none => t.first | some k => t.succ k)
  | .prev => moved pos (match pos with | none => t.last | some k => t.pred k)
  | .current =>
    match pos with
    | none => ⟨.einval, pos, none⟩
    | some k =>
      match t.find? k with
      | some e => ⟨.ok, pos, some e⟩
      | none => ⟨.keyEmpty, pos, none⟩

/-- A return code, `*result`, and the cursor. -/
structure Moved where
  rc : Rc
  result : Int
  pos : Option Dbt
  deriving DecidableEq, Repr

/-- `__sm_moveto` (sm.c:606-665). -/
def smMoveto (t : Btree) (pos : Option Dbt) (item : Bytes) (result : Int) : Moved :=
  let key : Dbt := ⟨item⟩
  let got := cGet t pos key .setRange
  match got.rc with
  | .ok => ⟨.success, 0, got.pos⟩
  | .notFound =>
    if got.entry.isNone then
      -- there was no key >= item
      let got' := cGet t got.pos key .last
      match got'.rc with
      | .notFound | .ok => ⟨.success, -1, got'.pos⟩
      | _ => ⟨.internal, result, got'.pos⟩
    else
      -- there was a key > but != item
      let got' := cGet t got.pos key .set
      if got'.rc ≠ .ok then ⟨.internal, result, got'.pos⟩ else ⟨.success, 1, got'.pos⟩
  | _ => ⟨.internal, result, got.pos⟩

/-- The switch over `c_get` in `__sm_next`, `__sm_prev`, `__sm_first` and `__sm_last`. -/
def advanced (got : Got) (result : Int) : Moved :=
  match got.rc with
  | .ok => ⟨.success, 0, got.pos⟩
  | .notFound => ⟨.success, 1, got.pos⟩
  | _ => ⟨.internal, result, got.pos⟩

/-- `__sm_next` (sm.c:676-709). The code in `rc` is dropped by the `return`. -/
def smNext (t : Btree) (pos : Option Dbt) (result : Int) : Moved :=
  { advanced (cGet t pos ⟨[]⟩ .next) result with rc := .success }

/-- `__sm_prev` (sm.c:720-753). -/
def smPrev (t : Btree) (pos : Option Dbt) (result : Int) : Moved :=
  advanced (cGet t pos ⟨[]⟩ .prev) result

/-- `__sm_first` (sm.c:989-1020). -/
def smFirst (t : Btree) (pos : Option Dbt) (result : Int) : Moved :=
  advanced (cGet t pos ⟨[]⟩ .first) result

/-- `__sm_last` (sm.c:1030-1061). -/
def smLast (t : Btree) (pos : Option Dbt) (result : Int) : Moved :=
  advanced (cGet t pos ⟨[]⟩ .last) result

/-- `__sm_key_size` (sm.c:765-798): return code and `*size`. -/
def smKeySize (t : Btree) (pos : Option Dbt) (size : Nat) : Rc × Nat :=
  let got := cGet t pos ⟨[]⟩ .current
  match got.rc, got.entry with
  | .ok, some e => (.success, e.1.data.length)
  | .notFound, _ => (.success, 0)
  | _, _ => (.internal, size)

/-- `__sm_key_compare` (sm.c:859-896): return code and `*result`. A key shorter than
`ignore` sets `*result` and falls through to the error. -/
def smKeyCompare (t : Btree) (pos : Option Dbt) (value : Bytes) (ignore : Nat) (result : Int) :
    Rc × Int :=
  let got := cGet t pos ⟨[]⟩ .current
  match got.rc, got.entry with
  | .ok, some e =>
    let nlen : Int := e.1.data.length - ignore
    if nlen < 0 then (.internal, -1)
    else (.success, smCmpValues (e.1.data.take nlen.toNat) value)
  | _, _ => (.internal, result)

/-- `__sm_key` (sm.c:906-939): the bytes copied from `key.data[offset:offset+len]`,
none on an error. -/
def smKey (t : Btree) (pos : Option Dbt) (offset len : Nat) : Bytes :=
  let got := cGet t pos ⟨[]⟩ .current
  match got.rc, got.entry with
  | .ok, some e => (e.1.data.drop offset).take len
  | _, _ => []

/-- `__sm_insert` (sm.c:1073-1107): the put cannot fail here, and leaves the cursor
on the new entry. -/
def smInsert (t : Btree) (pos : Option Dbt) (k v : Bytes) : Btree × Rc × Option Dbt :=
  let t' := t.insert ⟨k⟩ v
  let got := cGet t' pos ⟨k⟩ .set
  (t', if got.rc ≠ .ok then .internal else .success, got.pos)

/-- `__sm_delete` (sm.c:1115-1131): `c_del` fails on an unpositioned cursor and on
an entry already deleted. -/
def smDelete (t : Btree) (pos : Option Dbt) : Btree × Rc :=
  match pos with
  | none => (t, .internal)
  | some k => if k ∈ t then (t.erase k, .success) else (t, .internal)

/-! ## `__sm_moveto` -/

variable {t : Btree} {pos : Option Dbt} {item : Bytes} {result : Int}

theorem smMoveto_ceil {e : Dbt × Bytes} (h : t.ceil ⟨item⟩ = some e) :
    smMoveto t pos item result = ⟨.success, 0, some e.1⟩ := by
  simp only [smMoveto, cGet, moved, h]

theorem smMoveto_last {e : Dbt × Bytes} (h : t.ceil ⟨item⟩ = none) (hl : t.last = some e) :
    smMoveto t pos item result = ⟨.success, -1, some e.1⟩ := by
  simp only [smMoveto, cGet, moved, h, hl, Option.isNone_none, if_true]

theorem smMoveto_empty (h : t.last = none) :
    smMoveto t pos item result = ⟨.success, -1, pos⟩ := by
  have hc : t.ceil ⟨item⟩ = none :=
    SortedMap.ceil_eq_none.2 fun k hk => absurd hk (SortedMap.last_eq_none.1 h k)
  simp only [smMoveto, cGet, moved, hc, h, Option.isNone_none, if_true]

/-- The three outcomes of `__sm_moveto`. -/
theorem smMoveto_cases (t : Btree) (pos : Option Dbt) (item : Bytes) (result : Int) :
    (∃ e, t.ceil ⟨item⟩ = some e ∧ smMoveto t pos item result = ⟨.success, 0, some e.1⟩) ∨
    (∃ e, (∀ k ∈ t, k < ⟨item⟩) ∧ t.last = some e ∧
      smMoveto t pos item result = ⟨.success, -1, some e.1⟩) ∨
    ((∀ k, k ∉ t) ∧ smMoveto t pos item result = ⟨.success, -1, pos⟩) := by
  cases hc : t.ceil ⟨item⟩ with
  | some e => exact .inl ⟨e, rfl, smMoveto_ceil hc⟩
  | none =>
    right
    cases hl : t.last with
    | some e => exact .inl ⟨e, SortedMap.ceil_eq_none.1 hc, rfl, smMoveto_last hc hl⟩
    | none => exact .inr ⟨SortedMap.last_eq_none.1 hl, smMoveto_empty hl⟩

theorem smMoveto_rc : (smMoveto t pos item result).rc = .success := by
  rcases smMoveto_cases t pos item result with ⟨_, _, h⟩ | ⟨_, _, _, h⟩ | ⟨_, h⟩ <;> rw [h]

/-- `*result` is 0 whenever some key is at or above the search key. -/
theorem smMoveto_result_eq_zero :
    (smMoveto t pos item result).result = 0 ↔ ∃ k ∈ t, ⟨item⟩ ≤ k := by
  rcases smMoveto_cases t pos item result with ⟨e, hc, h⟩ | ⟨e, hlt, _, h⟩ | ⟨hno, h⟩ <;> rw [h]
  · obtain ⟨he, hle, -⟩ := SortedMap.ceil_some hc
    simpa using ⟨e.1, SortedMap.mem_of_entry he, hle⟩
  · simpa using fun k hk => hlt k hk
  · simpa using fun k hk => absurd hk (hno k)

/-- A key that is present is found. -/
theorem smMoveto_mem (h : ⟨item⟩ ∈ t) :
    smMoveto t pos item result = ⟨.success, 0, some ⟨item⟩⟩ := by
  rcases smMoveto_cases t pos item result with ⟨e, hc, h'⟩ | ⟨e, hlt, _, -⟩ | ⟨hno, -⟩
  · rw [h', (SortedMap.ceil_key_eq_iff hc).2 h]
  · exact absurd (hlt _ h) (lt_irrefl _)
  · exact absurd h (hno _)

/-- `__sm_first` and `__sm_last`, and the `c_get` of `__sm_next` and `__sm_prev`. -/
theorem advanced_moved (o : Option (Dbt × Bytes)) :
    advanced (moved pos o) result =
      match o with
      | some e => ⟨.success, 0, some e.1⟩
      | none => ⟨.success, 1, pos⟩ := by
  cases o <;> rfl

theorem smLast_some {e : Dbt × Bytes} (h : t.last = some e) :
    smLast t pos result = ⟨.success, 0, some e.1⟩ := by
  rw [smLast, cGet, advanced_moved, h]

theorem smLast_none (h : t.last = none) : smLast t pos result = ⟨.success, 1, pos⟩ := by
  rw [smLast, cGet, advanced_moved, h]

theorem smFirst_some {e : Dbt × Bytes} (h : t.first = some e) :
    smFirst t pos result = ⟨.success, 0, some e.1⟩ := by
  rw [smFirst, cGet, advanced_moved, h]

theorem smFirst_none (h : t.first = none) : smFirst t pos result = ⟨.success, 1, pos⟩ := by
  rw [smFirst, cGet, advanced_moved, h]

/-- `__sm_next` of a cursor on a key goes to the next greater one, or stays. -/
theorem smNext_on (k : Dbt) : smNext t (some k) result =
    match t.succ k with
    | some e => ⟨.success, 0, some e.1⟩
    | none => ⟨.success, 1, some k⟩ := by
  simp only [smNext, cGet, advanced_moved]
  cases t.succ k <;> rfl

/-- `__sm_next` fails on an empty table. -/
theorem smNext_empty (h : ∀ k, k ∉ t) : (smNext t pos result).result = 1 := by
  cases pos with
  | none => simp only [smNext, cGet, advanced_moved, SortedMap.first_eq_none.2 h]
  | some k => rw [smNext_on, SortedMap.succ_eq_none.2 fun k' hk' => absurd hk' (h k')]

/-- The contract in the comment of `__sm_moveto` (sm.c:579-604): `*result` is 0
exactly on a hit and its sign otherwise tells on which side of the search key
the cursor stands. -/
structure MovetoContract (t : Btree) (item : Bytes) (m : Moved) : Prop where
  rc : m.rc = .success
  hit : m.result = 0 ↔ ⟨item⟩ ∈ t
  on : m.result = 0 → m.pos = some ⟨item⟩
  above : 0 < m.result → ∃ k ∈ t, m.pos = some k ∧ ⟨item⟩ < k
  below : m.result < 0 → (∃ k ∈ t, m.pos = some k ∧ k < ⟨item⟩) ∨ ∀ k, k ∉ t

/-- **When `__sm_moveto` keeps its contract.** Exactly when the search key is
present or every key is below it: `DB_SET_RANGE` also succeeds on a larger key,
and that success is reported as a hit. -/
theorem smMoveto_contract_iff (t : Btree) (pos : Option Dbt) (item : Bytes) (result : Int) :
    MovetoContract t item (smMoveto t pos item result) ↔
      ⟨item⟩ ∈ t ∨ ∀ k ∈ t, k < ⟨item⟩ := by
  refine ⟨fun h => ?_, fun h => ?_⟩
  · by_cases hr : (smMoveto t pos item result).result = 0
    · exact .inl (h.hit.1 hr)
    · right
      intro k hk
      exact not_le.1 fun hle => hr (smMoveto_result_eq_zero.2 ⟨k, hk, hle⟩)
  · by_cases hmem : ⟨item⟩ ∈ t
    · rw [smMoveto_mem hmem]
      exact ⟨rfl, by simpa using hmem, fun _ => rfl, by simp, by simp⟩
    · have hlt := h.resolve_left hmem
      rcases smMoveto_cases t pos item result with ⟨e, hc, h'⟩ | ⟨e, -, hl, h'⟩ | ⟨hno, h'⟩
      · obtain ⟨he, hle, -⟩ := SortedMap.ceil_some hc
        exact absurd (hlt _ (SortedMap.mem_of_entry he)) (not_lt.2 hle)
      · have he := SortedMap.mem_of_entry (SortedMap.last_some hl).1
        rw [h']
        exact ⟨rfl, by simpa using hmem, by simp, by simp, fun _ => .inl ⟨e.1, he, rfl, hlt _ he⟩⟩
      · rw [h']
        exact ⟨rfl, by simpa using hmem, by simp, by simp, fun _ => .inr hno⟩

/-- The table with the one key `"b"`, searched for `"a"`: `*result` is 0 on the
key `"b"`. -/
theorem smMoveto_between :
    ¬ ∀ (t : Btree) (pos : Option Dbt) (item : Bytes) (result : Int), item ≠ [] →
      MovetoContract t item (smMoveto t pos item result) := by
  intro h
  have hc := (h (SortedMap.empty.insert ⟨[98]⟩ []) none [97] 0 (by decide)).hit
  exact absurd (hc.1 (by decide)) (by decide)

end Dbsql.L2
