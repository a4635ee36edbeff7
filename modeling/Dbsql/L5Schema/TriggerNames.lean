import Mathlib.Data.List.TakeWhile
import Dbsql.Core.Lts
import Dbsql.L2Storage.HashMap
import Dbsql.L5Parse.Unquote
/-!
# The names of triggers (cg_trigger.c:76-330, 507-656)

A trigger is in the hash table of its database under its name, and on the list of its table. CREATE
TRIGGER looks its name up without quotes, but with the length of the token, and stores it with its own
length; so a trigger is not found by a name in quotes, and another with its name is made. It takes the
place of the first one in the hash table, and both are on a list.

A hash table is a map of canonical keys, as `hash_refines` says. Tables are told apart by their number
in the schema, which CREATE TRIGGER and DROP TRIGGER leave alone; a trigger by its address. A fault is
an assertion that fails, or the variable `trigger` of `__drop_trigger` used without a value.

Results:
* `create_exists_iff`: when CREATE TRIGGER is refused for its name as it is to be.
* `names_hold`: names are unique, and hash tables and lists agree, in runs where it is so.
-/
namespace Dbsql.L5.TrigNames
open Dbsql.Core Dbsql.L1 Dbsql.L2.HashTable
open Dbsql.L3 (cstr)
open Dbsql.L5.Parse (Delim Closed closing double)

/-! ## Names -/

/-- `strcasecmp(a, b) == 0`. -/
def sameName (a b : Bytes) : Bool := a.map strUpperToLower = b.map strUpperToLower

/-- The token of a name: it has no zero byte, and its length fits. -/
structure NameToken where
  z : Bytes
  noZero : 0 ∉ z
  short : z.length + 1 < 2 ^ 31

/-- The name without quotes. -/
def NameToken.name (tok : NameToken) : Bytes := Parse.strUnquote tok.z

/-- What `__str_unquote` leaves of the copy of the token and its terminator. -/
def NameToken.buffer (tok : NameToken) : Bytes :=
  tok.name ++ 0 :: (tok.z ++ [0]).drop (tok.name.length + 1)

/-- The key of `strlen(name) + 1` bytes. -/
def storedKey (name : Bytes) : CInt × Bytes :=
  canon .string (name ++ [0]) (BitVec.ofNat 32 (name.length + 1))

/-- The key of `trigger->n + 1` bytes. -/
def NameToken.lookedUp (tok : NameToken) : CInt × Bytes :=
  canon .string tok.buffer (BitVec.ofNat 32 (tok.z.length + 1))

/-- The name is as long as the token. -/
def NameToken.Kept (tok : NameToken) : Prop := tok.name.length = tok.z.length

instance (tok : NameToken) : Decidable tok.Kept :=
  inferInstanceAs (Decidable (tok.name.length = tok.z.length))

/-! ## The schema -/

/-- `table_t`, a table or a view. -/
structure TableDef where
  zName : Bytes
  iDb : Nat
  isView : Bool
  deriving DecidableEq

/-- The databases, main and temp first, whose names are different, and the tables. -/
structure Schema where
  aDb : List Bytes
  tables : List TableDef
  two : 2 ≤ aDb.length
  distinct : ∀ i j, i < aDb.length → j < aDb.length → sameName (aDb.getD i []) (aDb.getD j []) = true → i = j

namespace Schema
variable (sch : Schema)

def dbName (j : Nat) : Bytes := sch.aDb.getD j []

/-- The databases in the order of searches. -/
def searchOrder : List Nat := (List.range sch.aDb.length).map fun i => if i < 2 then i ^^^ 1 else i

/-- Those that a name of a database, or none, leaves. -/
def searched (database : Option Bytes) : List Nat :=
  sch.searchOrder.filter fun j => database.all (sameName · (sch.dbName j))

/-- The table of a name in a database. -/
def tableIn (j : Nat) (name : Bytes) : Option Nat :=
  sch.tables.findIdx? fun t => t.iDb = j && sameName t.zName name

/-- `__find_table` (cg_build.c:180-198). -/
def findTable (name : Bytes) (database : Option Bytes) : Option Nat :=
  (sch.searched database).findSome? (sch.tableIn · name)

end Schema

/-- `trigger_t`, of what its name and its place depend on. -/
structure Trig where
  name : Bytes
  table : Bytes
  iDb : Nat
  iTabDb : Nat
  deriving DecidableEq

/-- The triggers by address, `pTrigger` of each table and `trigHash` of each database. -/
structure State where
  trigger : Nat → Option Trig
  pTrigger : Nat → List Nat
  trigHash : Nat → Map Nat

/-- `__hash_insert` of one of the hash tables; no data removes the key. -/
def setHash (trigHash : Nat → Map Nat) (db : Nat) (key : CInt × Bytes) (data : Option Nat) : Nat → Map Nat :=
  fun db' key' => if db' = db ∧ key' = key then data else trigHash db' key'

/-- How a statement ends: the error "trigger %T already exists", another one, or none. -/
inductive Outcome
  | already | error | done
  deriving DecidableEq

/-! ## CREATE TRIGGER -/

/-- CREATE TRIGGER, with `tabDb` as `__ref_normalize_src_list` leaves it; the address of the new
`trigger_t`; and whether it is authorized and whether nothing is wrong with its program. -/
structure CreateTrigger where
  tok : NameToken
  temp : Bool
  instead : Bool
  tabName : Bytes
  tabDb : Option Bytes
  initFlag : Bool
  explain : Bool
  addr : Nat
  authorized : Bool
  bodyOk : Bool

/-- `strncasecmp(z, name, strlen(name)) == 0`. -/
def beginsWith (z name : Bytes) : Bool := sameName (z.take name.length) name

section
variable (sch : Schema)

/-- The table of the trigger, and the database where its name is looked up: none if it is refused
before. -/
def target (c : CreateTrigger) : Option (TableDef × Nat) :=
  ((sch.findTable c.tabName c.tabDb).bind (sch.tables[·]?)).bind fun table =>
    let dbIdx := if c.temp then 1 else table.iDb
    if dbIdx ≥ 2 ∧ ¬ c.initFlag then none else some (table, dbIdx)

/-- What else `__begin_trigger` checks (cg_trigger.c:131-172): no system table, BEFORE and AFTER for
tables and INSTEAD OF for views, and the authorizer. -/
def otherChecks (c : CreateTrigger) (table : TableDef) : Bool :=
  !beginsWith table.zName (ascii "master") && !beginsWith table.zName (ascii "temp_master") &&
    table.isView == c.instead && c.authorized

/-- `__begin_trigger` (cg_trigger.c:76-224). -/
def beginTrigger (s : State) (c : CreateTrigger) : Except Outcome Trig :=
  match target sch c with
  | none => .error .error
  | some (table, dbIdx) =>
    if (s.trigHash dbIdx c.tok.lookedUp).isSome then .error .already
    else if otherChecks c table then .ok ⟨c.tok.name, c.tabName, dbIdx, table.iDb⟩
    else .error .error

/-- `__finish_trigger` (cg_trigger.c:240-329), from the end of its program on. -/
def finishTrigger (s : State) (c : CreateTrigger) (nt : Trig) : Option (Outcome × State) :=
  if ¬ c.bodyOk then some (.error, s)
  else if c.explain then some (.done, s)
  else (sch.findTable nt.table (some (sch.dbName nt.iTabDb))).map fun k =>
    (.done, {
      trigger := Function.update s.trigger c.addr (some nt)
      pTrigger := Function.update s.pTrigger k (c.addr :: s.pTrigger k)
      trigHash := setHash s.trigHash nt.iDb (storedKey nt.name) (some c.addr) })

def createTrigger (s : State) (c : CreateTrigger) : Option (Outcome × State) :=
  match beginTrigger sch s c with
  | .error out => some (out, s)
  | .ok nt => finishTrigger sch s c nt

/-! ## DROP TRIGGER -/

structure DropTrigger where
  name : Bytes
  db : Option Bytes
  explain : Bool
  authorized : Bool

/-- `__drop_trigger_ptr` (cg_trigger.c:575-656). -/
def dropTriggerPtr (s : State) (d : DropTrigger) (p : Nat) : Option (Outcome × State) := do
  let t ← s.trigger p
  if t.iDb ≥ 2 then return (.error, s)
  let k ← sch.findTable t.table (some (sch.dbName t.iTabDb))
  let table ← sch.tables[k]?
  if ¬ (table.iDb = t.iDb ∨ t.iDb = 1) then none
  else if ¬ d.authorized then return (.error, s)
  else if d.explain then return (.done, s)
  else if p ∈ s.pTrigger k then
    return (.done, {
      trigger := Function.update s.trigger p none
      pTrigger := Function.update s.pTrigger k ((s.pTrigger k).erase p)
      trigHash := setHash s.trigHash t.iDb (storedKey t.name) none })
  else none

/-- `__drop_trigger` (cg_trigger.c:524-564). -/
def dropTrigger (s : State) (d : DropTrigger) : Option (Outcome × State) :=
  match (sch.searched d.db).findSome? (s.trigHash · (storedKey d.name)) with
  | some p => dropTriggerPtr sch s d p
  | none => if sch.searched d.db = [] then none else some (.error, s)

/-! ## Runs -/

inductive Cmd
  | create (c : CreateTrigger)
  | drop (d : DropTrigger)

def exec (s : State) : Cmd → Option (Outcome × State)
  | .create c => createTrigger sch s c
  | .drop d => dropTrigger sch s d

/-- A new trigger is at an address that is not in use. -/
def Fresh (s : State) : Cmd → Prop
  | .create c => s.trigger c.addr = none
  | .drop _ => True

def triggerLts : LTS State Cmd where
  init s := s = ⟨fun _ => none, fun _ => [], fun _ _ => none⟩
  step s cmd s' := Fresh s cmd ∧ ∃ out, exec sch s cmd = some (out, s')

/-- The database has a trigger of that name. -/
def HasTrigger (s : State) (db : Nat) (name : Bytes) : Prop :=
  ∃ k p t, p ∈ s.pTrigger k ∧ s.trigger p = some t ∧ t.iDb = db ∧ sameName t.name name = true

/-- A name to be created is not in quotes, or new; and DROP TRIGGER names no database that is not
there. -/
def Fits (s : State) : Cmd → Prop
  | .create c => ∀ table db, target sch c = some (table, db) → c.tok.Kept ∨ ¬ HasTrigger s db c.tok.name
  | .drop d => sch.searched d.db ≠ []

end

/-- Names are unique, and hash tables and lists have the same triggers, one of each. -/
structure Sound (s : State) : Prop where
  unique : ∀ k p t k' p' t', p ∈ s.pTrigger k → s.trigger p = some t → p' ∈ s.pTrigger k' →
    s.trigger p' = some t' → t.iDb = t'.iDb → sameName t.name t'.name = true → p = p'
  hashed : ∀ db key p, s.trigHash db key = some p → ∃! k, p ∈ s.pTrigger k
  once : ∀ k, (s.pTrigger k).Nodup
  listed : ∀ k p, p ∈ s.pTrigger k → ∃ t, s.trigger p = some t ∧
    s.trigHash t.iDb (storedKey t.name) = some p

/-! ## Keys -/

theorem sameName_comm (a b : Bytes) : sameName a b = sameName b a := by
  simp only [sameName, eq_comm]

theorem unquoteLoop_length (q : UInt8) (fuel : Nat) : ∀ (z : Bytes) (i j : Nat),
    (Parse.unquoteLoop q fuel z i j).length = z.length := by
  induction fuel with
  | zero => exact fun _ _ _ => rfl
  | succ fuel ih =>
    intro z i j
    rw [Parse.unquoteLoop]
    split
    · rfl
    · split
      · split
        · rw [ih, List.length_set]
        · exact List.length_set
      · rw [ih, List.length_set]

theorem strUnquote_plain {z : Bytes} (h0 : 0 ∉ z) :
    0 ∉ Parse.strUnquote z ∧ (Parse.strUnquote z).length ≤ z.length := by
  have hcstr : ∀ q, 0 ∉ cstr (Parse.unquoteLoop q z.length z 1 0) ∧
      (cstr (Parse.unquoteLoop q z.length z 1 0)).length ≤ z.length := by
    intro q
    refine ⟨fun hmem => ?_, ?_⟩
    · have hne := List.mem_takeWhile_imp hmem
      simp at hne
    · exact (List.takeWhile_prefix _).length_le.trans_eq (unquoteLoop_length q _ z 1 0)
  unfold Parse.strUnquote
  split
  · exact hcstr 39
  · exact hcstr 34
  · exact hcstr 93
  · exact ⟨h0, Nat.le_refl _⟩

/-- A canonical key ends at the first zero. -/
theorem canon_name {name rest : Bytes} {len : Nat} (h0 : 0 ∉ name) (hle : name.length < len)
    (hlen : len < 2 ^ 31) : canon .string (name ++ 0 :: rest) (BitVec.ofNat 32 len) =
      (BitVec.ofNat 32 len, name.map strUpperToLower ++ [0]) := by
  have hnat : (BitVec.ofNat 32 len).toNat = len := by
    rw [BitVec.toNat_ofNat]
    omega
  have hzero : strUpperToLower 0 = 0 := by decide
  have hcut : ∀ (z r : Bytes), 0 ∉ z → cut ((z ++ 0 :: r).map strUpperToLower) =
      z.map strUpperToLower ++ [0] := by
    intro z r hz
    induction z with
    | nil => simp [cut, hzero]
    | cons c z ih =>
      rw [List.mem_cons, not_or] at hz
      have hc : strUpperToLower c ≠ 0 := fun h => hz.1 ((strUpperToLower_eq_zero c).1 h).symm
      rw [List.cons_append, List.map_cons, cut, if_neg hc, ih hz.2]
      rfl
  obtain ⟨k, rfl⟩ : ∃ k, len = name.length + 1 + k := ⟨len - (name.length + 1), by omega⟩
  have htake : (name ++ 0 :: rest).take (name.length + 1 + k) = name ++ 0 :: rest.take k := by
    rw [List.take_append, List.take_of_length_le (by omega),
      show name.length + 1 + k - name.length = k + 1 by omega, List.take_succ_cons]
  show (_, cut (((name ++ 0 :: rest).take _).map strUpperToLower)) = _
  rw [hnat, htake, hcut _ _ h0]

theorem ofNat_inj {m n : Nat} (hm : m < 2 ^ 31) (hn : n < 2 ^ 31)
    (h : BitVec.ofNat 32 m = BitVec.ofNat 32 n) : m = n := by
  have hnat := congrArg BitVec.toNat h
  rw [BitVec.toNat_ofNat, BitVec.toNat_ofNat] at hnat
  omega

/-- A name that a token may have. -/
def Plain (name : Bytes) : Prop := 0 ∉ name ∧ name.length + 1 < 2 ^ 31

theorem NameToken.plain (tok : NameToken) : Plain tok.name := by
  obtain ⟨h0, hle⟩ := strUnquote_plain tok.noZero
  have hshort := tok.short
  exact ⟨h0, by unfold NameToken.name; omega⟩

/-- Two names have one key just when they are the same. -/
theorem storedKey_inj {a b : Bytes} (ha : Plain a) (hb : Plain b) :
    storedKey a = storedKey b ↔ sameName a b = true := by
  rw [storedKey, storedKey, canon_name ha.1 (Nat.lt_succ_self _) ha.2,
    canon_name hb.1 (Nat.lt_succ_self _) hb.2, Prod.mk.injEq, sameName, decide_eq_true_eq,
    List.append_cancel_right_eq]
  refine ⟨fun h => h.2, fun h => ⟨?_, h⟩⟩
  have hlen := congrArg List.length h
  rw [List.length_map, List.length_map] at hlen
  rw [hlen]

/-- A name is found by a token just when it is the same and as long as the token. -/
theorem lookedUp_iff (tok : NameToken) {b : Bytes} (hb : Plain b) :
    tok.lookedUp = storedKey b ↔ tok.Kept ∧ sameName tok.name b = true := by
  obtain ⟨-, hle⟩ := strUnquote_plain tok.noZero
  have hshort := tok.short
  have hname : tok.name.length < tok.z.length + 1 := Nat.lt_succ_iff.2 hle
  rw [NameToken.lookedUp, NameToken.buffer, storedKey, canon_name tok.plain.1 hname hshort,
    canon_name hb.1 (Nat.lt_succ_self _) hb.2, Prod.mk.injEq, sameName, decide_eq_true_eq,
    List.append_cancel_right_eq, NameToken.Kept]
  constructor
  · intro h
    have hlen := ofNat_inj hshort hb.2 h.1
    have hmap := congrArg List.length h.2
    rw [List.length_map, List.length_map] at hmap
    exact ⟨by omega, h.2⟩
  · intro h
    have hmap := congrArg List.length h.2
    rw [List.length_map, List.length_map] at hmap
    exact ⟨by rw [← h.1, hmap], h.2⟩

/-- A name without quotes is kept. -/
theorem kept_of_unquoted {tok : NameToken} (h : tok.name = tok.z) : tok.Kept := congrArg List.length h

/-! ## Tables -/

namespace Schema
variable {sch : Schema}

theorem lt_of_mem_searchOrder {j : Nat} (h : j ∈ sch.searchOrder) : j < sch.aDb.length := by
  obtain ⟨i, hi, rfl⟩ := List.mem_map.1 h
  have hlt := List.mem_range.1 hi
  have htwo := sch.two
  split
  · next hsmall =>
    obtain rfl | rfl : i = 0 ∨ i = 1 := by omega
    · show 1 < _
      omega
    · show 0 < _
      omega
  · exact hlt

/-- With the name of its database a table is looked up there only. -/
theorem findTable_in {j : Nat} (hj : j ∈ sch.searchOrder) (name : Bytes) :
    sch.findTable name (some (sch.dbName j)) = sch.tableIn j name := by
  have hmem : j ∈ sch.searched (some (sch.dbName j)) := by
    rw [searched, List.mem_filter]
    exact ⟨hj, by simp [sameName]⟩
  have honly : ∀ i ∈ sch.searched (some (sch.dbName j)), i = j := by
    intro i hi
    rw [searched, List.mem_filter] at hi
    have hsame : sameName (sch.dbName j) (sch.dbName i) = true := hi.2
    exact (sch.distinct j i (lt_of_mem_searchOrder hj) (lt_of_mem_searchOrder hi.1) hsame).symm
  unfold findTable
  cases hf : (sch.searched (some (sch.dbName j))).findSome? (sch.tableIn · name) with
  | none => exact (List.findSome?_eq_none_iff.1 hf j hmem).symm
  | some k =>
    obtain ⟨i, hi, hk⟩ := List.exists_of_findSome?_eq_some hf
    rw [← honly i hi, hk]

/-- The table that is found is in the schema, and is found again in its database. -/
theorem findTable_again {name : Bytes} {database : Option Bytes} {k : Nat}
    (h : sch.findTable name database = some k) : ∃ table, sch.tables[k]? = some table ∧
      sch.findTable name (some (sch.dbName table.iDb)) = some k := by
  obtain ⟨j, hj, hk⟩ := List.exists_of_findSome?_eq_some h
  rw [searched, List.mem_filter] at hj
  obtain ⟨hlt, hp, -⟩ := List.findIdx?_eq_some_iff_getElem.1 hk
  refine ⟨sch.tables[k], List.getElem?_eq_getElem hlt, ?_⟩
  have hdb : sch.tables[k].iDb = j := by
    rw [Bool.and_eq_true, decide_eq_true_eq] at hp
    exact hp.1
  rw [hdb, findTable_in hj.1, hk]

end Schema

/-! ## One statement -/

theorem setHash_self (H : Nat → Map Nat) (db : Nat) (key : CInt × Bytes) (data : Option Nat) :
    setHash H db key data db key = data := if_pos ⟨rfl, rfl⟩

theorem setHash_other {H : Nat → Map Nat} {db db' : Nat} {key key' : CInt × Bytes} {data : Option Nat}
    (h : ¬ (db' = db ∧ key' = key)) : setHash H db key data db' key' = H db' key' := if_neg h

/-- The table `k` is found by the name that the trigger keeps, and is where the trigger says. -/
def Schema.HasTable (sch : Schema) (t : Trig) (k : Nat) : Prop :=
  sch.findTable t.table (some (sch.dbName t.iTabDb)) = some k ∧
    (sch.tables[k]?).map (·.iDb) = some t.iTabDb

/-- What hash tables, lists and triggers have to do with each other. -/
structure Consistent (sch : Schema) (s : State) : Prop where
  hashed : ∀ db key p, s.trigHash db key = some p → ∃ t k, s.trigger p = some t ∧ t.iDb = db ∧
    key = storedKey t.name ∧ p ∈ s.pTrigger k
  listed : ∀ k p, p ∈ s.pTrigger k → ∃ t, s.trigger p = some t ∧
    s.trigHash t.iDb (storedKey t.name) = some p ∧ sch.HasTable t k
  once : ∀ k, (s.pTrigger k).Nodup
  named : ∀ p t, s.trigger p = some t → Plain t.name
  home : ∀ p t, s.trigger p = some t → t.iDb = t.iTabDb ∨ t.iDb = 1

section
variable {sch : Schema} {s : State}

theorem Consistent.table_unique (h : Consistent sch s) {k k' p : Nat} (hk : p ∈ s.pTrigger k)
    (hk' : p ∈ s.pTrigger k') : k = k' := by
  obtain ⟨t, ht, -, hf⟩ := h.listed k p hk
  obtain ⟨t', ht', -, hf'⟩ := h.listed k' p hk'
  obtain rfl : t = t' := Option.some.inj (ht.symm.trans ht')
  exact Option.some.inj (hf.1.symm.trans hf'.1)

theorem Consistent.sound (h : Consistent sch s) : Sound s where
  unique k p t k' p' t' hp ht hp' ht' hdb hsame := by
    obtain ⟨u, hu, hh, -⟩ := h.listed k p hp
    obtain ⟨u', hu', hh', -⟩ := h.listed k' p' hp'
    obtain rfl : t = u := Option.some.inj (ht.symm.trans hu)
    obtain rfl : t' = u' := Option.some.inj (ht'.symm.trans hu')
    have hkey := (storedKey_inj (h.named p t ht) (h.named p' t' ht')).2 hsame
    rw [hkey, hdb, hh'] at hh
    exact (Option.some.inj hh).symm
  hashed db key p hp := by
    obtain ⟨t, k, -, -, -, hk⟩ := h.hashed db key p hp
    exact ⟨k, hk, fun k' hk' => h.table_unique hk' hk⟩
  once := h.once
  listed k p hp := by
    obtain ⟨t, ht, hh, -⟩ := h.listed k p hp
    exact ⟨t, ht, hh⟩

/-- A trigger is in the hash table under a name just when the database has one of that name. -/
theorem Consistent.stored_iff (h : Consistent sch s) {db : Nat} {name : Bytes} (hn : Plain name) :
    (s.trigHash db (storedKey name)).isSome = true ↔ HasTrigger s db name := by
  rw [Option.isSome_iff_exists]
  constructor
  · intro hex
    obtain ⟨p, hp⟩ := hex
    obtain ⟨t, k, ht, hdb, hkey, hk⟩ := h.hashed db _ p hp
    refine ⟨k, p, t, hk, ht, hdb, ?_⟩
    rw [sameName_comm]
    exact (storedKey_inj hn (h.named p t ht)).1 hkey
  · intro hex
    obtain ⟨k, p, t, hk, ht, rfl, hsame⟩ := hex
    obtain ⟨u, hu, hh, -⟩ := h.listed k p hk
    obtain rfl : t = u := Option.some.inj (ht.symm.trans hu)
    exact ⟨p, (storedKey_inj (h.named p t ht) hn).2 hsame ▸ hh⟩

/-- A token finds a trigger just when it is as long as its name and the database has one of that
name. -/
theorem Consistent.lookedUp_iff (h : Consistent sch s) {db : Nat} (tok : NameToken) :
    (s.trigHash db tok.lookedUp).isSome = true ↔ tok.Kept ∧ HasTrigger s db tok.name := by
  rw [Option.isSome_iff_exists]
  constructor
  · intro hex
    obtain ⟨p, hp⟩ := hex
    obtain ⟨t, k, ht, hdb, hkey, hk⟩ := h.hashed db _ p hp
    obtain ⟨hkept, hsame⟩ := (TrigNames.lookedUp_iff tok (h.named p t ht)).1 hkey
    exact ⟨hkept, k, p, t, hk, ht, hdb, sameName_comm _ _ ▸ hsame⟩
  · intro hex
    obtain ⟨hkept, k, p, t, hk, ht, rfl, hsame⟩ := hex
    obtain ⟨u, hu, hh, -⟩ := h.listed k p hk
    obtain rfl : t = u := Option.some.inj (ht.symm.trans hu)
    rw [sameName_comm] at hsame
    exact ⟨p, (TrigNames.lookedUp_iff tok (h.named p t ht)).2 ⟨hkept, hsame⟩ ▸ hh⟩

/-- Adding a trigger whose name is new in its database. -/
theorem Consistent.add (h : Consistent sch s) {addr k : Nat} {nt : Trig} (hfresh : s.trigger addr = none)
    (hfree : s.trigHash nt.iDb (storedKey nt.name) = none) (hname : Plain nt.name)
    (hhome : nt.iDb = nt.iTabDb ∨ nt.iDb = 1)
    (hk : sch.HasTable nt k) :
    Consistent sch ⟨Function.update s.trigger addr (some nt),
      Function.update s.pTrigger k (addr :: s.pTrigger k),
      setHash s.trigHash nt.iDb (storedKey nt.name) (some addr)⟩ := by
  have hother : ∀ {p t}, s.trigger p = some t → p ≠ addr := by
    rintro p t ht rfl
    rw [hfresh] at ht
    cases ht
  have hkeep : ∀ {p t}, s.trigger p = some t → Function.update s.trigger addr (some nt) p = some t :=
    fun ht => by rw [Function.update_of_ne (hother ht), ht]
  have hmem : ∀ {p k'}, p ∈ Function.update s.pTrigger k (addr :: s.pTrigger k) k' ↔
      p = addr ∧ k' = k ∨ p ∈ s.pTrigger k' := by
    intro p k'
    by_cases hkk : k' = k
    · subst hkk
      simp
    · simp [hkk]
  have hget : ∀ {p t}, Function.update s.trigger addr (some nt) p = some t →
      t = nt ∨ s.trigger p = some t := by
    intro p t ht
    by_cases hp : p = addr
    · subst hp
      rw [Function.update_self] at ht
      exact .inl (Option.some.inj ht).symm
    · rw [Function.update_of_ne hp] at ht
      exact .inr ht
  refine ⟨fun db key p hp => ?_, fun k' p hp => ?_, fun k' => ?_, fun p t ht => ?_, fun p t ht => ?_⟩
  · by_cases hsame : db = nt.iDb ∧ key = storedKey nt.name
    · obtain ⟨rfl, rfl⟩ := hsame
      obtain rfl : addr = p := Option.some.inj ((setHash_self ..).symm.trans hp)
      exact ⟨nt, k, Function.update_self .., rfl, rfl, hmem.2 (.inl ⟨rfl, rfl⟩)⟩
    · have hp' : s.trigHash db key = some p := (setHash_other hsame).symm.trans hp
      obtain ⟨t, k', ht, hdb, hkey, hk'⟩ := h.hashed db key p hp'
      exact ⟨t, k', hkeep ht, hdb, hkey, hmem.2 (.inr hk')⟩
  · rcases hmem.1 hp with ⟨rfl, rfl⟩ | hold
    · exact ⟨nt, Function.update_self .., setHash_self .., hk⟩
    · obtain ⟨t, ht, hh, hf⟩ := h.listed k' p hold
      refine ⟨t, hkeep ht, ?_, hf⟩
      refine (setHash_other fun hsame => ?_).trans hh
      rw [hsame.1, hsame.2, hfree] at hh
      cases hh
  · by_cases hkk : k' = k
    · subst hkk
      show (Function.update s.pTrigger k' (addr :: s.pTrigger k') k').Nodup
      rw [Function.update_self, List.nodup_cons]
      refine ⟨fun hin => ?_, h.once k'⟩
      obtain ⟨t, ht, -, -⟩ := h.listed k' addr hin
      exact hother ht rfl
    · show (Function.update s.pTrigger k (addr :: s.pTrigger k) k').Nodup
      rw [Function.update_of_ne hkk]
      exact h.once k'
  · rcases hget ht with rfl | hold
    · exact hname
    · exact h.named p t hold
  · rcases hget ht with rfl | hold
    · exact hhome
    · exact h.home p t hold

/-- Removing a trigger. -/
theorem Consistent.remove (h : Consistent sch s) {p k : Nat} {t : Trig} (ht : s.trigger p = some t)
    (hk : p ∈ s.pTrigger k) (hh : s.trigHash t.iDb (storedKey t.name) = some p) :
    Consistent sch ⟨Function.update s.trigger p none,
      Function.update s.pTrigger k ((s.pTrigger k).erase p),
      setHash s.trigHash t.iDb (storedKey t.name) none⟩ := by
  have hmem : ∀ {q k'}, q ∈ Function.update s.pTrigger k ((s.pTrigger k).erase p) k' ↔
      q ≠ p ∧ q ∈ s.pTrigger k' := by
    intro q k'
    by_cases hkk : k' = k
    · subst hkk
      rw [Function.update_self, (h.once k').mem_erase_iff]
    · rw [Function.update_of_ne hkk]
      refine ⟨fun hq => ⟨?_, hq⟩, fun hq => hq.2⟩
      rintro rfl
      exact hkk (h.table_unique hq hk)
  have hget : ∀ {q u}, Function.update s.trigger p none q = some u → s.trigger q = some u := by
    intro q u hu
    by_cases hq : q = p
    · subst hq
      rw [Function.update_self] at hu
      cases hu
    · rwa [Function.update_of_ne hq] at hu
  refine ⟨fun db key q hq => ?_, fun k' q hq => ?_, fun k' => ?_, fun q u hu => h.named q u (hget hu),
    fun q u hu => h.home q u (hget hu)⟩
  · have hne : ¬ (db = t.iDb ∧ key = storedKey t.name) := by
      rintro ⟨rfl, rfl⟩
      have hnone := (setHash_self s.trigHash t.iDb (storedKey t.name) none).symm.trans hq
      cases hnone
    have hq' : s.trigHash db key = some q := (setHash_other hne).symm.trans hq
    obtain ⟨u, k', hu, hdb, hkey, hk'⟩ := h.hashed db key q hq'
    have hqp : q ≠ p := by
      rintro rfl
      obtain rfl : t = u := Option.some.inj (ht.symm.trans hu)
      exact hne ⟨hdb.symm, hkey⟩
    exact ⟨u, k', (Function.update_of_ne hqp _ _).trans hu, hdb, hkey, hmem.2 ⟨hqp, hk'⟩⟩
  · obtain ⟨hqp, hq'⟩ := hmem.1 hq
    obtain ⟨u, hu, huh, hf⟩ := h.listed k' q hq'
    refine ⟨u, (Function.update_of_ne hqp _ _).trans hu, ?_, hf⟩
    refine (setHash_other fun hsame => ?_).trans huh
    rw [hsame.1, hsame.2, hh] at huh
    exact hqp (Option.some.inj huh).symm
  · by_cases hkk : k' = k
    · subst hkk
      show (Function.update s.pTrigger k' ((s.pTrigger k').erase p) k').Nodup
      rw [Function.update_self]
      exact (h.once k').erase p
    · show (Function.update s.pTrigger k ((s.pTrigger k).erase p) k').Nodup
      rw [Function.update_of_ne hkk]
      exact h.once k'

/-! ## CREATE TRIGGER in a consistent state -/

/-- The table of CREATE TRIGGER is found again by its name in its database. -/
theorem target_spec {c : CreateTrigger} {table : TableDef} {db : Nat} (h : target sch c = some (table, db)) :
    (db = table.iDb ∨ db = 1) ∧ ∃ k, sch.HasTable ⟨c.tok.name, c.tabName, db, table.iDb⟩ k := by
  unfold target at h
  obtain ⟨table', htab, h⟩ := Option.bind_eq_some_iff.1 h
  obtain ⟨k, hk, hget⟩ := Option.bind_eq_some_iff.1 htab
  obtain ⟨table'', hget', hagain⟩ := Schema.findTable_again hk
  obtain rfl : table' = table'' := Option.some.inj (hget.symm.trans hget')
  obtain ⟨-, heq⟩ := Option.ite_none_left_eq_some.1 h
  obtain ⟨rfl, rfl⟩ := Prod.mk.inj (Option.some.inj heq)
  refine ⟨?_, k, hagain, by rw [hget, Option.map_some]⟩
  cases c.temp
  · exact .inl rfl
  · exact .inr rfl

/-- The state with a new trigger. -/
def State.withTrigger (s : State) (c : CreateTrigger) (table : TableDef) (db k : Nat) : State :=
  ⟨Function.update s.trigger c.addr (some ⟨c.tok.name, c.tabName, db, table.iDb⟩),
    Function.update s.pTrigger k (c.addr :: s.pTrigger k),
    setHash s.trigHash db (storedKey c.tok.name) (some c.addr)⟩

/-- Without a target CREATE TRIGGER is an error. -/
theorem createTrigger_untargeted {c : CreateTrigger} (h : target sch c = none) :
    createTrigger sch s c = some (.error, s) := by
  rw [createTrigger, beginTrigger, h]

/-- CREATE TRIGGER is refused where the token finds a trigger. -/
theorem createTrigger_found {c : CreateTrigger} {table : TableDef} {db : Nat}
    (h : target sch c = some (table, db)) (hs : (s.trigHash db c.tok.lookedUp).isSome = true) :
    createTrigger sch s c = some (.already, s) := by
  rw [createTrigger, beginTrigger, h]
  simp only [if_pos hs]

/-- Else it leaves the schema alone, or adds the trigger. -/
theorem createTrigger_new {c : CreateTrigger} {table : TableDef} {db : Nat}
    (h : target sch c = some (table, db)) (hs : ¬ (s.trigHash db c.tok.lookedUp).isSome = true) :
    ∃ out s', createTrigger sch s c = some (out, s') ∧ out ≠ .already ∧
      (s' = s ∨ ∃ k, sch.HasTable ⟨c.tok.name, c.tabName, db, table.iDb⟩ k ∧
        s' = s.withTrigger c table db k) := by
  obtain ⟨-, k, hk⟩ := target_spec h
  rw [createTrigger, beginTrigger, h]
  simp only [if_neg hs]
  by_cases hother : otherChecks c table = true
  · simp only [if_pos hother, finishTrigger]
    by_cases hbody : c.bodyOk = true
    · by_cases hexp : c.explain = true
      · exact ⟨.done, s, by simp [hbody, hexp], nofun, .inl rfl⟩
      · refine ⟨.done, s.withTrigger c table db k, ?_, nofun, .inr ⟨k, hk, rfl⟩⟩
        simp only [hbody, hexp, hk.1]
        rfl
    · exact ⟨.error, s, by simp [hbody], nofun, .inl rfl⟩
  · exact ⟨.error, s, by simp only [if_neg hother], nofun, .inl rfl⟩

/-- In a consistent state CREATE TRIGGER is refused for its name just when the database has a trigger
of that name, if the name is as long as its token or the database has none. -/
theorem create_exists_iff (h : Consistent sch s) {c : CreateTrigger} {table : TableDef} {db : Nat}
    (ht : target sch c = some (table, db)) :
    ((∃ s', createTrigger sch s c = some (.already, s')) ↔ HasTrigger s db c.tok.name) ↔
      c.tok.Kept ∨ ¬ HasTrigger s db c.tok.name := by
  have hfound : (∃ s', createTrigger sch s c = some (.already, s')) ↔
      c.tok.Kept ∧ HasTrigger s db c.tok.name := by
    rw [← h.lookedUp_iff c.tok]
    constructor
    · intro hex
      obtain ⟨s', hs'⟩ := hex
      by_contra hs
      obtain ⟨out, s'', hrun, hne, -⟩ := createTrigger_new ht hs
      rw [hrun, Option.some.injEq, Prod.mk.injEq] at hs'
      exact hne hs'.1
    · exact fun hs => ⟨s, createTrigger_found ht hs⟩
  rw [hfound]
  tauto

/-- CREATE TRIGGER keeps a state consistent where it fits. -/
theorem Consistent.create (h : Consistent sch s) {c : CreateTrigger} (hfresh : s.trigger c.addr = none)
    (hfits : Fits sch s (.create c)) : ∃ out s', createTrigger sch s c = some (out, s') ∧
      Consistent sch s' ∧
      (out = .already ↔ ∃ table db, target sch c = some (table, db) ∧ HasTrigger s db c.tok.name) := by
  cases ht : target sch c with
  | none => exact ⟨.error, s, createTrigger_untargeted ht, h, by simp⟩
  | some td =>
    obtain ⟨table, db⟩ := td
    have hfits' := hfits table db ht
    by_cases hs : (s.trigHash db c.tok.lookedUp).isSome = true
    · have hhas := ((h.lookedUp_iff c.tok).1 hs).2
      exact ⟨.already, s, createTrigger_found ht hs, h, iff_of_true rfl ⟨table, db, rfl, hhas⟩⟩
    · have hno : ¬ HasTrigger s db c.tok.name := by
        rw [h.lookedUp_iff c.tok] at hs
        tauto
      have hnone : ¬ ∃ table' db', some (table, db) = some (table', db') ∧ HasTrigger s db' c.tok.name := by
        rintro ⟨table', db', heq, hhas⟩
        obtain ⟨rfl, rfl⟩ := Prod.mk.inj (Option.some.inj heq)
        exact hno hhas
      obtain ⟨out, s', hrun, hne, rfl | ⟨k, hk, rfl⟩⟩ := createTrigger_new ht hs
      · exact ⟨out, s', hrun, h, iff_of_false hne hnone⟩
      · refine ⟨out, _, hrun, ?_, iff_of_false hne hnone⟩
        have hfree : s.trigHash db (storedKey c.tok.name) = none := by
          rw [← h.stored_iff c.tok.plain, Bool.not_eq_true, Option.isSome_eq_false_iff,
            Option.isNone_iff_eq_none] at hno
          exact hno
        exact @Consistent.add sch s h c.addr k ⟨c.tok.name, c.tabName, db, table.iDb⟩ hfresh hfree
          c.tok.plain (target_spec ht).1 hk

/-! ## DROP TRIGGER in a consistent state -/

/-- What `__drop_trigger_ptr` does with a trigger whose table is where it is to be. -/
theorem dropTriggerPtr_of_home {d : DropTrigger} {p k : Nat} {t : Trig} {table : TableDef}
    (ht : s.trigger p = some t) (htwo : ¬ t.iDb ≥ 2)
    (hfind : sch.findTable t.table (some (sch.dbName t.iTabDb)) = some k)
    (hget : sch.tables[k]? = some table) (hhome : table.iDb = t.iDb ∨ t.iDb = 1) :
    dropTriggerPtr sch s d p =
      if ¬ d.authorized = true then some (.error, s)
      else if d.explain = true then some (.done, s)
      else if p ∈ s.pTrigger k then
        some (.done, ⟨Function.update s.trigger p none,
          Function.update s.pTrigger k ((s.pTrigger k).erase p),
          setHash s.trigHash t.iDb (storedKey t.name) none⟩)
      else none := by
  simp only [dropTriggerPtr, ht, hfind, hget, Option.bind_eq_bind, Option.bind_some, if_neg htwo,
    if_neg (not_not.2 hhome)]
  rfl

/-- DROP TRIGGER keeps a state consistent where it fits. -/
theorem Consistent.drop (h : Consistent sch s) {d : DropTrigger} (hfits : sch.searched d.db ≠ []) :
    ∃ out s', dropTrigger sch s d = some (out, s') ∧ Consistent sch s' := by
  unfold dropTrigger
  cases hf : (sch.searched d.db).findSome? (s.trigHash · (storedKey d.name)) with
  | none => exact ⟨.error, s, if_neg hfits, h⟩
  | some p =>
    obtain ⟨j, -, hj⟩ := List.exists_of_findSome?_eq_some hf
    obtain ⟨t, k, ht, -, -, hk⟩ := h.hashed j _ p hj
    obtain ⟨t', ht', hh, hfind, hplace⟩ := h.listed k p hk
    obtain rfl : t = t' := Option.some.inj (ht.symm.trans ht')
    obtain ⟨table, hget, hdb⟩ := Option.map_eq_some_iff.1 hplace
    by_cases htwo : t.iDb ≥ 2
    · exact ⟨.error, s, by simp [dropTriggerPtr, ht, htwo], h⟩
    · have hhome : table.iDb = t.iDb ∨ t.iDb = 1 := (h.home p t ht).imp_left fun heq => hdb.trans heq.symm
      have hptr := @dropTriggerPtr_of_home sch s d p k t table ht htwo hfind hget hhome
      show ∃ out s', dropTriggerPtr sch s d p = some (out, s') ∧ Consistent sch s'
      rw [hptr]
      by_cases hauth : d.authorized = true
      · by_cases hexp : d.explain = true
        · exact ⟨.done, s, by simp [hauth, hexp], h⟩
        · exact ⟨.done, _, by simp only [hauth, hexp, hk]; rfl, h.remove ht hk hh⟩
      · exact ⟨.error, s, by simp [hauth], h⟩

/-! ## Runs -/

/-- A statement that fits keeps a state consistent. -/
theorem Consistent.exec (h : Consistent sch s) {cmd : Cmd} (hfresh : Fresh s cmd) (hfits : Fits sch s cmd) :
    ∃ out s', exec sch s cmd = some (out, s') ∧ Consistent sch s' ∧ ∀ c, cmd = .create c →
      (out = .already ↔ ∃ table db, target sch c = some (table, db) ∧ HasTrigger s db c.tok.name) := by
  cases cmd with
  | create c =>
    obtain ⟨out, s', hrun, hcons, hiff⟩ := h.create hfresh hfits
    refine ⟨out, s', hrun, hcons, fun c' heq => ?_⟩
    cases heq
    exact hiff
  | drop d =>
    obtain ⟨out, s', hrun, hcons⟩ := h.drop hfits
    exact ⟨out, s', hrun, hcons, fun c heq => by cases heq⟩

theorem consistent_init (sch : Schema) : Consistent sch ⟨fun _ => none, fun _ => [], fun _ _ => none⟩ :=
  ⟨fun _ _ _ h => (Option.some_ne_none _ h.symm).elim, fun _ _ h => absurd h List.not_mem_nil,
    fun _ => List.nodup_nil, fun _ _ h => (Option.some_ne_none _ h.symm).elim,
    fun _ _ h => (Option.some_ne_none _ h.symm).elim⟩

theorem consistent_inductive (sch : Schema) :
    ((triggerLts sch).restrict (Fits sch)).Inductive (Consistent sch) where
  init s hs := by
    obtain rfl : s = _ := hs
    exact consistent_init sch
  step s cmd s' h hstep := by
    obtain ⟨hfits, hfresh, out, hrun⟩ := hstep
    obtain ⟨out', s'', hrun', hcons, -⟩ := h.exec hfresh hfits
    rw [hrun, Option.some.injEq, Prod.mk.injEq] at hrun'
    exact hrun'.2 ▸ hcons

end

/-- In runs whose statements fit names are unique, hash tables and lists have the same triggers, and the
next statement that fits comes to an end; CREATE TRIGGER is refused for its name just when the database
has a trigger of that name. -/
theorem names_hold (sch : Schema) (s : State) (h : ((triggerLts sch).restrict (Fits sch)).Reachable s) :
    Sound s ∧ ∀ cmd, Fresh s cmd → Fits sch s cmd → ∃ out s', exec sch s cmd = some (out, s') ∧
      ∀ c, cmd = .create c →
        (out = .already ↔ ∃ table db, target sch c = some (table, db) ∧ HasTrigger s db c.tok.name) := by
  have hcons := (consistent_inductive sch).reachable h
  refine ⟨hcons.sound, fun cmd hfresh hfits => ?_⟩
  obtain ⟨out, s', hrun, -, hiff⟩ := hcons.exec hfresh hfits
  exact ⟨out, s', hrun, hiff⟩

/-! ## One table -/

/-- The table `t` in the main database. -/
def oneTable : Schema where
  aDb := [ascii "main", ascii "temp"]
  tables := [⟨ascii "t", 0, false⟩]
  two := by decide
  distinct i j hi hj := by
    have hcases : ∀ i < 2, ∀ j < 2,
      sameName ([ascii "main", ascii "temp"].getD i []) ([ascii "main", ascii "temp"].getD j []) = true →
        i = j := by decide
    exact hcases i hi j hj

/-- `CREATE TRIGGER name ... ON t`. -/
def createOnT (addr : Nat) (z : Bytes) (h0 : 0 ∉ z) (hz : z.length + 1 < 2 ^ 31) : CreateTrigger where
  tok := ⟨z, h0, hz⟩
  temp := false
  instead := false
  tabName := ascii "t"
  tabDb := none
  initFlag := false
  explain := false
  addr := addr
  authorized := true
  bodyOk := true

def createTr : CreateTrigger := createOnT 1 (ascii "tr") (by decide) (by decide)

def createQuotedTr : CreateTrigger := createOnT 2 (ascii "'tr'") (by decide) (by decide)

/-- The state with the trigger `tr`. -/
def withTr : State :=
  State.withTrigger ⟨fun _ => none, fun _ => [], fun _ _ => none⟩ createTr ⟨ascii "t", 0, false⟩ 0 0

theorem step_withTr : (triggerLts oneTable).step ⟨fun _ => none, fun _ => [], fun _ _ => none⟩
    (.create createTr) withTr := ⟨rfl, .done, rfl⟩

theorem names_hold_withTr : Sound withTr := by
  refine (names_hold oneTable withTr ⟨_, [.create createTr], rfl, .cons ⟨?_, step_withTr⟩ (.nil _)⟩).1
  exact fun _ _ _ => .inl (by decide)

/-- CREATE TRIGGER 'tr' makes another trigger of that name. -/
theorem duplicate_name : ∃ s, (triggerLts oneTable).Reachable s ∧ ¬ Sound s := by
  refine ⟨withTr.withTrigger createQuotedTr ⟨ascii "t", 0, false⟩ 0 0,
    ⟨_, [.create createTr, .create createQuotedTr], rfl,
      .cons step_withTr (.cons ⟨rfl, .done, rfl⟩ (.nil _))⟩, fun h => ?_⟩
  have hsame := h.unique 0 2 _ 0 1 _ (by decide) rfl (by decide) rfl rfl (by decide)
  exact absurd hsame (by decide)

end Dbsql.L5.TrigNames
