import Dbsql.Core.Lts
import Dbsql.L5Parse.Tokenize
/-!
# ATTACH and DETACH (cg_attach.c:40-183, cg_build.c:338-396, api.c:60-347)

The databases of a handle are the entries of `aDb`: "main", "temp" and what is attached. The schema
of an entry is read from its file into the hash tables when the handle is not initialized, by running
each CREATE statement with `initFlag`; a table or index has the number of its entry in eight bits. A
function gives none where the code calls through a null pointer.

What the files hold, whether one opens, what the authorizer says and what an uninitialized
variable is come from outside (`Env`).

Results:
* `createTable_reads`, `createIndex_reads`: what is read goes to the entry whose number it carries.
* `Base.resetAll`, `Base.resetOne`: a schema is forgotten, and entries that were closed go away.
* `attach_spec`, `detach_spec`: one statement keeps the invariant, if it meets no defect.
* `attach_run`: every run of such statements keeps it.
-/
namespace Dbsql.L5.Schema
open Dbsql.L1
open Dbsql.L5.Parse (fold)

/-- A storage manager. -/
abbrev Sm := Nat

/-- `index_t`. -/
structure IndexT where
  zName : Bytes
  iDb : UInt8
  deriving DecidableEq

/-- `table_t`. -/
structure TableT where
  zName : Bytes
  iDb : UInt8
  readOnly : Bool
  /-- `pSelect` is set. -/
  view : Bool
  pIndex : List IndexT
  deriving DecidableEq

/-- `dbsql_db_t`. -/
structure Db where
  zName : Bytes
  pBt : Option Sm
  tblHash : List TableT
  idxHash : List IndexT
  /-- DBSQL_SCHEMA_LOADED. -/
  schemaLoaded : Bool

/-- `DBSQL`. -/
structure Handle where
  aDb : List Db
  /-- DBSQL_Initialized. -/
  initialized : Bool
  formatVersion : Int

def masterName : Bytes := ascii "dbsql_master"

def tempMasterName : Bytes := ascii "dbsql_temp_master"

/-- `strcasecmp(a, b) == 0`. -/
def same (a b : Bytes) : Bool := fold a = fold b

/-- A change of an entry. -/
def Handle.setDb (h : Handle) (i : Nat) (f : Db → Db) : Handle := { h with aDb := h.aDb.modify i f }

/-! ## Lookups -/

/-- The entries with their numbers, TEMP before MAIN. -/
def Handle.order (h : Handle) : List (Nat × Db) :=
  match h.aDb.zipIdx.map Prod.swap with
  | d0 :: d1 :: ds => d1 :: d0 :: ds
  | ds => ds

/-- `__find_table` (cg_build.c:182-203), and the entry it is found in. -/
def findTable (h : Handle) (name : Bytes) (database : Option Bytes) : Option (Nat × TableT) :=
  h.order.findSome? fun d =>
    if database.all (same · d.2.zName) then
      (d.2.tblHash.find? fun t => same t.zName name).map (d.1, ·)
    else none

/-- `__find_index` (cg_build.c:256-277). -/
def findIndex (h : Handle) (name : Bytes) (database : Option Bytes) : Option IndexT :=
  h.order.findSome? fun d =>
    if database.all (same · d.2.zName) then d.2.idxHash.find? fun x => same x.zName name else none

/-- `__hash_insert` of a table. -/
def insertTable (t : TableT) (l : List TableT) : List TableT :=
  if l.any (same ·.zName t.zName) then l.map fun u => if same u.zName t.zName then t else u else t :: l

/-- `__hash_insert` of an index. -/
def insertIndex (x : IndexT) (l : List IndexT) : List IndexT :=
  if l.any (same ·.zName x.zName) then l.map fun y => if same y.zName x.zName then x else y else x :: l

/-! ## Reading a schema -/

/-- The statement in a row of a schema table. With `ok` the rest of it has no error. -/
inductive Row
  | table (name : Bytes) (temp view : Bool) (auto : List Bytes) (ok : Bool)
  | index (name : Bytes) (database : Option Bytes) (table : Bytes) (ok : Bool)
  /-- A trigger, or an index without a statement. -/
  | other

/-- What a statement meets. -/
structure Env where
  /-- `__sm_create` for the temporary database. -/
  openTemp : Option Sm
  /-- The rows of the SELECT from the schema table of an entry, each with its last column, and the
  result code. -/
  select : Nat → List (Nat × Row) × Int
  /-- Out of memory in that SELECT. -/
  noMem : Nat → Bool
  /-- `__sm_get_format_version`. -/
  formatVersion : Int

def addIndex (h : Handle) (x : IndexT) : Handle :=
  h.setDb x.iDb.toNat fun d => { d with idxHash := insertIndex x d.idxHash }

/-- `__start_table` (cg_build.c:594-712) to `__ending_create_table_paren` (cg_build.c:1196-1326),
with `initFlag`. -/
def createTable (env : Env) (h : Handle) (iDb : UInt8) (name : Bytes) (temp view : Bool)
    (auto : List Bytes) (ok : Bool) : Handle :=
  let temp := temp || iDb = 1
  let temp_closed := temp && h.aDb[1]?.any (·.pBt.isNone)
  if temp_closed && env.openTemp.isNone then h
  else
    let h := if temp_closed then h.setDb 1 fun d => { d with pBt := env.openTemp } else h
    let idb : UInt8 := if temp then 1 else iDb
    if (findTable h name none).any (·.2.iDb = idb) then h
    else if (findIndex h name none).any (·.iDb = 0) then h
    else
      -- the indices of PRIMARY KEY and UNIQUE come while the table is parsed
      let h := auto.foldl (fun h x => addIndex h ⟨x, idb⟩) h
      if ok then
        h.setDb idb.toNat fun d =>
          { d with tblHash := insertTable ⟨name, idb, false, view, auto.map (⟨·, idb⟩)⟩ d.tblHash }
      else h

/-- `__ref_normalize_src_list` (cg_attach.c:240-270) for a table: its database, or none for an error. -/
def normalize (h : Handle) (iDb : UInt8) (database : Option Bytes) : Option (Option Bytes) :=
  if iDb = 1 then some database
  else
    match h.aDb[iDb.toNat]?, database with
    | some d, none => some (some d.zName)
    | some d, some z => if same z d.zName then some (some z) else none
    | none, _ => none

/-- `__create_index` (cg_build.c:1957-2245) with `initFlag`. -/
def createIndex (h : Handle) (iDb : UInt8) (name : Bytes) (database : Option Bytes) (table : Bytes)
    (ok : Bool) : Handle :=
  match normalize h iDb database with
  | none => h
  | some database =>
    match findTable h table database with
    | none => h
    | some (i, t) =>
      if t.readOnly || t.view || !ok then h
      else
        let x : IndexT := ⟨name, if t.iDb = 1 then 1 else iDb⟩
        (addIndex h x).setDb i fun d =>
          { d with tblHash := d.tblHash.map fun u =>
              if same u.zName table then { u with pIndex := x :: u.pIndex } else u }

/-- `__init_callback` (api.c:78-152): `n` is the last column. -/
def initCallback (env : Env) (h : Handle) (n : Nat) : Row → Handle
  | .table name temp view auto ok => createTable env h (UInt8.ofNat n) name temp view auto ok
  | .index name database table ok => createIndex h (UInt8.ofNat n) name database table ok
  | .other => h

/-- `readOnly` of a schema table. -/
def setReadOnly (h : Handle) (name database : Bytes) : Handle :=
  match findTable h name (some database) with
  | none => h
  | some (i, _) =>
    h.setDb i fun d =>
      { d with tblHash := d.tblHash.map fun u => if same u.zName name then { u with readOnly := true } else u }

/-! ## Forgetting a schema -/

/-- `__delete_index` (cg_build.c:280-299). An entry that is not there has a hash table of zeros, with
no hash function. -/
def deleteIndex (h : Handle) (x : IndexT) : Option Handle :=
  if x.iDb.toNat < h.aDb.length then
    some (h.setDb x.iDb.toNat fun d => { d with idxHash := d.idxHash.erase x })
  else none

/-- `__vdbe_delete_table` (cg_build.c:447-487). -/
def deleteTable (h : Handle) (t : TableT) : Option Handle := t.pIndex.foldlM deleteIndex h

/-- A round of the loop of `__reset_internal_schema`. -/
def resetDb (h : Handle) (i : Nat) : Option Handle :=
  match h.aDb[i]? with
  | none => some h
  | some d =>
    (d.tblHash.foldlM deleteTable (h.setDb i fun d => { d with tblHash := [], idxHash := [] })).map
      (·.setDb i fun d => { d with schemaLoaded := false })

/-- `__reset_internal_schema` (cg_build.c:338-396). -/
def resetInternalSchema (h : Handle) (idb : Nat) : Option Handle :=
  let h := { h with initialized := false }
  if 0 < idb then resetDb h idb
  else
    ((List.range h.aDb.length).foldlM resetDb h).map fun h =>
      { h with aDb := h.aDb.take 2 ++ (h.aDb.drop 2).filter (·.pBt.isSome) }

/-! ## The databases of a handle -/

/-- The result codes. -/
def success : Int := 0

def error : Int := 1

/-- The SELECT from the schema table of an entry: its rows and the result code. The text of the
statement has the name of the entry between quotes, and a quote in it ends the name. -/
def selectSchema (env : Env) (h : Handle) (dbi : Nat) (zName : Bytes) : List (Nat × Row) × Int :=
  if dbi = 0 then
    if (findTable h tempMasterName none).isNone || (findTable h masterName none).isNone then ([], error)
    else env.select 0
  else if 34 ∉ zName ∧ (findTable h masterName (some zName)).isNone then ([], error)
  else env.select dbi

/-- The end of `__init_db_file` (api.c:236-276): the rows of the schema table. -/
def readSchema (env : Env) (h : Handle) (dbi : Nat) (zName : Bytes) : Option (Int × Handle) :=
  let (rows, rc) := selectSchema env h dbi zName
  let h := rows.foldl (fun h r => initCallback env h r.1 r.2) h
  if rc = success then
    let h := h.setDb dbi fun d => { d with schemaLoaded := true }
    some (rc, if dbi = 0 then h.setDb 1 fun d => { d with schemaLoaded := true } else h)
  else
    ((if env.noMem dbi then resetInternalSchema h 0 else some h).bind (resetInternalSchema · dbi)).map (rc, ·)

/-- The schema tables of an entry (api.c:206-227). -/
def schemaTables (env : Env) (h : Handle) (dbi : Nat) : Handle :=
  let h := createTable env h (UInt8.ofNat dbi) masterName false false [] true
  let h := setReadOnly h masterName (ascii "main")
  if dbi = 0 then
    setReadOnly (createTable env h 1 tempMasterName true false [] true) tempMasterName (ascii "temp")
  else h

/-- The format version is that of the main database (api.c:231-239). -/
def getFormatVersion (env : Env) (h : Handle) (dbi : Nat) : Handle :=
  if dbi = 0 then { h with formatVersion := if env.formatVersion = 0 then 1 else env.formatVersion } else h

/-- `__init_db_file` (api.c:166-276). -/
def initDbFile (env : Env) (h : Handle) (dbi : Nat) : Option (Int × Handle) :=
  let h := schemaTables env h dbi
  match h.aDb[dbi]? with
  | none => none
  | some d =>
    -- `__sm_get_schema_sig`
    if d.pBt = none then none else readSchema env (getFormatVersion env h dbi) dbi d.zName

/-- The loop of `__init_databases`, from the entry `i` on. -/
def initLoop (env : Env) : Nat → Nat → Handle → Option (Int × Handle)
  | 0, _, h => some (success, h)
  | n + 1, i, h =>
    match h.aDb[i]? with
    | none => some (success, h)
    | some d =>
      if d.schemaLoaded then initLoop env n (i + 1) h
      else if i = 1 then none
      else do
        let (rc, h) ← initDbFile env h i
        if rc = success then initLoop env n (i + 1) h else some (rc, h)

/-- `__init_databases` (api.c:292-317). -/
def initDatabases (env : Env) (h : Handle) : Option (Int × Handle) := do
  let (rc, h) ← initLoop env h.aDb.length 0 h
  if rc = success then some (rc, { h with initialized := true })
  else some (rc, { h with initialized := false })

/-- `__parse_begin` (cg_build.c:58-82), and whether the statement goes on. -/
def parseBegin (env : Env) (h : Handle) : Option (Handle × Bool) :=
  if h.initialized then some (h, true)
  else (initDatabases env h).map fun r => (r.2, r.1 = success)

/-! ## The rows that are read -/

/-- The calls of `__init_callback` for some rows, each with the handle it finds. -/
def rowCalls (env : Env) : Handle → List (Nat × Row) → List (Handle × Nat × Row)
  | _, [] => []
  | h, r :: rows => (h, r) :: rowCalls env (initCallback env h r.1 r.2) rows

/-- The calls for the rows of an entry. -/
def fileCalls (env : Env) (h : Handle) (dbi : Nat) : List (Handle × Nat × Row) :=
  let h := schemaTables env h dbi
  match h.aDb[dbi]? with
  | none => []
  | some d =>
    let h := getFormatVersion env h dbi
    rowCalls env h (selectSchema env h dbi d.zName).1

/-- The calls that `initLoop` comes to. -/
def loopCalls (env : Env) : Nat → Nat → Handle → List (Handle × Nat × Row)
  | 0, _, _ => []
  | n + 1, i, h =>
    match h.aDb[i]? with
    | none => []
    | some d =>
      if d.schemaLoaded then loopCalls env n (i + 1) h
      else if i = 1 then []
      else
        fileCalls env h i ++
          match initDbFile env h i with
          | none => []
          | some (rc, h) => if rc = success then loopCalls env n (i + 1) h else []

/-- A row of the schema table of the temporary database makes no index on a table of another one. -/
def OwnRow (h : Handle) (n : Nat) : Row → Prop
  | .index _ database table ok => UInt8.ofNat n = 1 → ok = true → ∀ i t,
      findTable h table database = some (i, t) → t.readOnly = false → t.view = false → i = 1
  | _ => True

/-- The same, of all the rows that `__init_databases` comes to. -/
def OwnRows (env : Env) (h : Handle) : Prop :=
  ∀ c ∈ loopCalls env h.aDb.length 0 h, OwnRow c.1 c.2.1 c.2.2

/-! ## ATTACH and DETACH -/

/-- What an ATTACH meets. -/
structure AttachEnv extends Env where
  explain : Bool
  /-- Whether memory for the file name, the database name and the entry could be had. -/
  allocFile : Bool
  allocName : Bool
  allocDb : Bool
  /-- `__auth_check`. -/
  auth : Bool
  /-- `__sm_create`. -/
  opened : Option Sm
  /-- The variable `rc` has no value. -/
  rc : Int

/-- What came of an ATTACH. -/
inductive Outcome
  | attached
  | failed
  /-- EXPLAIN, or no memory. -/
  | nothing
  deriving DecidableEq

/-- The entries with a new one at their end. -/
def Handle.push (h : Handle) (name : Bytes) (pBt : Option Sm) : Handle :=
  { h with aDb := h.aDb ++ [⟨name, pBt, [], [], false⟩], initialized := false }

/-- The end of `__attach` (cg_attach.c:110-126), after the open. -/
def finishAttach (env : AttachEnv) (h : Handle) : Option (Handle × Outcome) :=
  (if env.rc = success then initDatabases env.toEnv h else some (env.rc, h)).bind fun r =>
    if r.1 = success then some (r.2, .attached)
    else
      (resetInternalSchema (r.2.setDb (r.2.aDb.length - 1) fun d => { d with pBt := none }) 0).map (·, .failed)

/-- `__attach` (cg_attach.c:40-126). -/
def attach (env : AttachEnv) (h : Handle) (databasename : Bytes) : Option (Handle × Outcome) :=
  if env.explain then some (h, .nothing)
  else if h.formatVersion < 1 then some (h, .failed)
  else if h.aDb.length ≥ 255 + 2 then some (h, .failed)
  else if !env.allocFile then some (h, .nothing)
  else if !env.auth then some (h, .failed)
  else if !env.allocName then some (h, .nothing)
  else if h.aDb.any (same ·.zName databasename) then some (h, .failed)
  else if !env.allocDb then some (h, .nothing)
  else if env.opened = none then some (h.push databasename none, .failed)
  else finishAttach env (h.push databasename env.opened)

/-- The entry that DETACH names. -/
def detachIdx (h : Handle) (db : Bytes) : Nat := h.aDb.findIdx fun d => d.pBt.isSome && same d.zName db

/-- `__detach` (cg_attach.c:138-183). -/
def detach (explain auth : Bool) (h : Handle) (db : Bytes) : Option Handle :=
  let i := detachIdx h db
  if explain then some h
  else if i ≥ h.aDb.length then some h
  else if i < 2 then some h
  else if !auth then some h
  else do
    let h ← resetInternalSchema (h.setDb i fun d => { d with pBt := none }) i
    let last := h.aDb.length - 1
    if i < last then
      let d ← h.aDb[last]?
      resetInternalSchema { h with aDb := (h.aDb.take last).set i d } i
    else some { h with aDb := h.aDb.take last }

/-! ## What the functions keep -/

/-- Every table and index of an entry, in the hash tables and on the lists of the tables, carries
`i`. -/
structure Db.Carries (d : Db) (i : Nat) : Prop where
  tables : ∀ t ∈ d.tblHash, t.iDb.toNat = i
  lists : ∀ t ∈ d.tblHash, ∀ x ∈ t.pIndex, x.iDb.toNat = i
  indices : ∀ x ∈ d.idxHash, x.iDb.toNat = i

/-- Every table and index reachable from an entry carries its number. -/
def Carries (h : Handle) : Prop := ∀ (i : Nat) (d : Db), h.aDb[i]? = some d → d.Carries i

/-- The entries of two handles, one by one. -/
structure Related (R : Nat → Db → Db → Prop) (h h' : Handle) : Prop where
  length : h'.aDb.length = h.aDb.length
  entry : ∀ i d', h'.aDb[i]? = some d' → ∃ d, h.aDb[i]? = some d ∧ R i d d'

section
variable {R : Nat → Db → Db → Prop} {h h' h'' : Handle}

theorem Related.refl (hR : ∀ i d, R i d d) (h : Handle) : Related R h h :=
  ⟨rfl, fun i d hd => ⟨d, hd, hR i d⟩⟩

theorem Related.trans (hR : ∀ i a b c, R i a b → R i b c → R i a c) (h1 : Related R h h')
    (h2 : Related R h' h'') : Related R h h'' := by
  refine ⟨h2.length.trans h1.length, fun i d'' hd'' => ?_⟩
  obtain ⟨d', hd', hr'⟩ := h2.entry i d'' hd''
  obtain ⟨d, hd, hr⟩ := h1.entry i d' hd'
  exact ⟨d, hd, hR i d d' d'' hr hr'⟩

theorem setDb_getElem? (h : Handle) (i : Nat) (f : Db → Db) (j : Nat) :
    (h.setDb i f).aDb[j]? = if i = j then h.aDb[j]?.map f else h.aDb[j]? := by
  unfold Handle.setDb
  rw [List.getElem?_modify]
  cases h.aDb[j]? <;> split <;> rfl

theorem setDb_length (h : Handle) (i : Nat) (f : Db → Db) : (h.setDb i f).aDb.length = h.aDb.length :=
  List.length_modify ..

theorem Related.setDb (hR : ∀ i d, R i d d) {i : Nat} {f : Db → Db} (hf : ∀ d, h.aDb[i]? = some d →
    R i d (f d)) :
    Related R h (h.setDb i f) := by
  refine ⟨setDb_length h i f, fun j d' hd' => ?_⟩
  rw [setDb_getElem?] at hd'
  split at hd'
  · rename_i hij
    subst hij
    obtain ⟨d, hd, rfl⟩ := Option.map_eq_some_iff.1 hd'
    exact ⟨d, hd, hf d hd⟩
  · exact ⟨d', hd', hR j d'⟩

end

theorem Carries.setDb {h : Handle} (hc : Carries h) {i : Nat} {f : Db → Db}
    (hf : ∀ d, h.aDb[i]? = some d → d.Carries i → (f d).Carries i) : Carries (h.setDb i f) := by
  intro j d' hd'
  rw [setDb_getElem?] at hd'
  split at hd'
  · rename_i hij
    subst hij
    obtain ⟨d, hd, rfl⟩ := Option.map_eq_some_iff.1 hd'
    exact hf d hd (hc i d hd)
  · exact hc j d' hd'

/-- An entry while schemas are read: only the temporary database may be opened. -/
def Keeps (i : Nat) (d d' : Db) : Prop :=
  d'.zName = d.zName ∧ (d'.pBt = d.pBt ∨ i = 1 ∧ d.pBt = none) ∧ d'.schemaLoaded = d.schemaLoaded

theorem Keeps.refl (i : Nat) (d : Db) : Keeps i d d := ⟨rfl, .inl rfl, rfl⟩

theorem Keeps.trans (i : Nat) (a b c : Db) (h1 : Keeps i a b) (h2 : Keeps i b c) : Keeps i a c := by
  obtain ⟨n1, p1, l1⟩ := h1
  obtain ⟨n2, p2, l2⟩ := h2
  refine ⟨n2.trans n1, ?_, l2.trans l1⟩
  rcases p1 with p1 | p1
  · rw [← p1]
    exact p2
  · exact .inr p1

/-- No two entries have one name. -/
def Distinct (h : Handle) : Prop := ∀ (i j : Nat) (d d' : Db), h.aDb[i]? = some d → h.aDb[j]? = some d' →
  same d.zName d'.zName = true → i = j

/-- Reading a statement of a schema. -/
structure Reads (h h' : Handle) : Prop where
  keeps : Related Keeps h h'
  carries : Distinct h → Carries h → Carries h'
  initialized : h'.initialized = h.initialized

theorem Reads.refl (h : Handle) : Reads h h := ⟨.refl Keeps.refl h, fun _ hc => hc, rfl⟩

theorem Related.distinct {R : Nat → Db → Db → Prop} {h h' : Handle} (hr : Related R h h')
    (hR : ∀ i d d', R i d d' → d'.zName = d.zName) (hd : Distinct h) : Distinct h' := by
  intro i j d1 d2 h1 h2 heq
  obtain ⟨e1, he1, hr1⟩ := hr.entry i d1 h1
  obtain ⟨e2, he2, hr2⟩ := hr.entry j d2 h2
  rw [hR i e1 d1 hr1, hR j e2 d2 hr2] at heq
  exact hd i j e1 e2 he1 he2 heq

theorem Reads.distinct {h h' : Handle} (hr : Reads h h') (hd : Distinct h) : Distinct h' :=
  hr.keeps.distinct (fun _ _ _ hk => hk.1) hd

theorem Reads.trans {h h' h'' : Handle} (h1 : Reads h h') (h2 : Reads h' h'') : Reads h h'' :=
  ⟨h1.keeps.trans Keeps.trans h2.keeps, fun hd hc => h2.carries (h1.distinct hd) (h1.carries hd hc),
    h2.initialized.trans h1.initialized⟩

theorem Reads.foldl {α : Type} {f : Handle → α → Handle} (hf : ∀ h a, Reads h (f h a)) (l : List α) :
    ∀ h, Reads h (l.foldl f h) := by
  induction l with
  | nil => exact Reads.refl
  | cons a l ih => exact fun h => (hf h a).trans (ih _)

theorem Reads.setDb {h : Handle} {i : Nat} {f : Db → Db} (hk : ∀ d, Keeps i d (f d))
    (hc : ∀ d, h.aDb[i]? = some d → d.Carries i → (f d).Carries i) : Reads h (h.setDb i f) :=
  ⟨.setDb Keeps.refl fun d _ => hk d, fun _ hC => hC.setDb hc, rfl⟩

theorem mem_insertTable {t u : TableT} {l : List TableT} (h : u ∈ insertTable t l) : u = t ∨ u ∈ l := by
  unfold insertTable at h
  split at h
  · obtain ⟨v, hv, rfl⟩ := List.mem_map.1 h
    split
    · exact .inl rfl
    · exact .inr hv
  · exact List.mem_cons.1 h

theorem mem_insertIndex {x y : IndexT} {l : List IndexT} (h : y ∈ insertIndex x l) : y = x ∨ y ∈ l := by
  unfold insertIndex at h
  split at h
  · obtain ⟨v, hv, rfl⟩ := List.mem_map.1 h
    split
    · exact .inl rfl
    · exact .inr hv
  · exact List.mem_cons.1 h

theorem addIndex_reads (h : Handle) (x : IndexT) : Reads h (addIndex h x) := by
  refine .setDb (fun d => ⟨rfl, .inl rfl, rfl⟩) fun d _ hd => ⟨hd.tables, hd.lists, fun y hy => ?_⟩
  rcases mem_insertIndex hy with rfl | hy
  · rfl
  · exact hd.indices y hy

theorem createTable_reads (env : Env) (h : Handle) (iDb : UInt8) (name : Bytes) (temp view : Bool)
    (auto : List Bytes) (ok : Bool) : Reads h (createTable env h iDb name temp view auto ok) := by
  unfold createTable
  dsimp only
  generalize (temp || decide (iDb = 1)) = temp
  split
  · exact .refl h
  · have hopen : Reads h (if (temp && h.aDb[1]?.any (·.pBt.isNone)) = true then
        h.setDb 1 fun d => { d with pBt := env.openTemp } else h) := by
      split
      · rename_i hclosed
        refine ⟨.setDb Keeps.refl fun d hd => ⟨rfl, .inr ⟨rfl, ?_⟩, rfl⟩,
          fun _ hC => hC.setDb fun d _ hd => ⟨hd.tables, hd.lists, hd.indices⟩, rfl⟩
        rw [hd, Bool.and_eq_true] at hclosed
        simpa using hclosed.2
      · exact .refl h
    refine hopen.trans ?_
    generalize (if (temp && h.aDb[1]?.any (·.pBt.isNone)) = true then
      h.setDb 1 fun d => { d with pBt := env.openTemp } else h) = h1
    generalize (if temp = true then (1 : UInt8) else iDb) = idb
    split
    · exact .refl h1
    split
    · exact .refl h1
    have hauto : Reads h1 (auto.foldl (fun h x => addIndex h ⟨x, idb⟩) h1) :=
      .foldl (fun h x => addIndex_reads h ⟨x, idb⟩) auto h1
    split
    · refine hauto.trans (.setDb (fun d => ⟨rfl, .inl rfl, rfl⟩) fun d _ hd => ?_)
      refine ⟨fun t ht => ?_, fun t ht x hx => ?_, hd.indices⟩
      · rcases mem_insertTable ht with rfl | ht
        · rfl
        · exact hd.tables t ht
      · rcases mem_insertTable ht with rfl | ht
        · obtain ⟨z, -, rfl⟩ := List.mem_map.1 hx
          rfl
        · exact hd.lists t ht x hx
    · exact hauto

theorem mem_order {h : Handle} {i : Nat} {d : Db} : (i, d) ∈ h.order ↔ h.aDb[i]? = some d := by
  have hzip : (i, d) ∈ h.aDb.zipIdx.map Prod.swap ↔ h.aDb[i]? = some d := by
    rw [List.mem_map]
    constructor
    · rintro ⟨⟨d', j⟩, hmem, heq⟩
      cases heq
      exact List.mem_zipIdx_iff_getElem?.1 hmem
    · exact fun hd => ⟨(d, i), List.mem_zipIdx_iff_getElem?.2 hd, rfl⟩
  rw [← hzip]
  unfold Handle.order
  split
  · rename_i heq
    rw [heq]
    simp only [List.mem_cons]
    tauto
  · exact Iff.rfl

/-- A table that is found. -/
theorem findTable_some {h : Handle} {name : Bytes} {database : Option Bytes} {i : Nat} {t : TableT}
    (hf : findTable h name database = some (i, t)) : ∃ d, h.aDb[i]? = some d ∧ t ∈ d.tblHash ∧
      database.all (same · d.zName) = true := by
  obtain ⟨⟨j, d⟩, hmem, hd⟩ := List.exists_of_findSome?_eq_some hf
  split at hd
  · rename_i hall
    obtain ⟨u, hu, heq⟩ := Option.map_eq_some_iff.1 hd
    cases heq
    exact ⟨d, mem_order.1 hmem, List.mem_of_find?_eq_some hu, hall⟩
  · cases hd

theorem same_iff {a b : Bytes} : same a b = true ↔ fold a = fold b := by
  unfold same
  rw [decide_eq_true_iff]

/-- A table of another database than "temp" is looked for there. -/
theorem normalize_some {h : Handle} {iDb : UInt8} {database database' : Option Bytes} (hd : Distinct h)
    (hn : normalize h iDb database = some database') {i : Nat} {d : Db} (hi : h.aDb[i]? = some d)
    (hall : database'.all (same · d.zName) = true) : i = iDb.toNat ∨ iDb = 1 := by
  unfold normalize at hn
  split at hn
  · exact .inr ‹_›
  · left
    split at hn
    · rename_i e he
      cases hn
      exact (hd _ _ e d he hi hall).symm
    · rename_i e z he
      split at hn
      · rename_i hz
        cases hn
        refine (hd _ _ e d he hi ?_).symm
        rw [Option.all_some, same_iff] at hall
        rw [same_iff] at hz ⊢
        exact hz.symm.trans hall
      · cases hn
    · cases hn

theorem createIndex_reads {h : Handle} {n : Nat} {name : Bytes} {database : Option Bytes}
    {table : Bytes} {ok : Bool} (hown : OwnRow h n (.index name database table ok)) :
    Reads h (createIndex h (UInt8.ofNat n) name database table ok) := by
  unfold OwnRow at hown
  dsimp only at hown
  generalize UInt8.ofNat n = iDb at hown ⊢
  unfold createIndex
  split
  · exact .refl h
  rename_i database' hnorm
  split
  · exact .refl h
  rename_i i t hfind
  split
  · exact .refl h
  rename_i hmade
  simp only [Bool.or_eq_true, Bool.not_eq_true', not_or, Bool.not_eq_true, Bool.not_eq_false] at hmade
  obtain ⟨⟨hread, hview⟩, hok⟩ := hmade
  dsimp only
  generalize hx : (⟨name, if t.iDb = 1 then 1 else iDb⟩ : IndexT) = x
  have hadd := addIndex_reads h x
  refine ⟨hadd.keeps.trans Keeps.trans (.setDb Keeps.refl fun d _ => ⟨rfl, .inl rfl, rfl⟩),
    fun hd hC => (hadd.carries hd hC).setDb fun d _ hdc => ?_, rfl⟩
  obtain ⟨d0, hd0, ht, hall⟩ := findTable_some hfind
  have hxi : x.iDb.toNat = i := by
    subst hx
    dsimp only
    split
    · rename_i h1
      rw [← (hC i d0 hd0).tables t ht, h1]
    · rcases normalize_some hd hnorm hd0 hall with hi | h1
      · exact hi.symm
      · -- the table of a row of "temp" is found as the statement names it
        subst h1
        cases hnorm
        rw [hown rfl hok i t hfind hread hview]
        rfl
  refine ⟨fun u hu => ?_, fun u hu y hy => ?_, hdc.indices⟩
  · obtain ⟨v, hv, rfl⟩ := List.mem_map.1 hu
    split
    · exact hdc.tables v hv
    · exact hdc.tables v hv
  · obtain ⟨v, hv, rfl⟩ := List.mem_map.1 hu
    split at hy
    · rcases List.mem_cons.1 hy with rfl | hy
      · exact hxi
      · exact hdc.lists v hv y hy
    · exact hdc.lists v hv y hy

theorem setReadOnly_reads (h : Handle) (name database : Bytes) :
    Reads h (setReadOnly h name database) := by
  unfold setReadOnly
  split
  · exact .refl h
  · refine .setDb (fun d => ⟨rfl, .inl rfl, rfl⟩) fun d _ hd =>
      ⟨fun t ht => ?_, fun t ht x hx => ?_, hd.indices⟩
    · obtain ⟨u, hu, rfl⟩ := List.mem_map.1 ht
      split
      · exact hd.tables u hu
      · exact hd.tables u hu
    · obtain ⟨u, hu, rfl⟩ := List.mem_map.1 ht
      split at hx
      · exact hd.lists u hu x hx
      · exact hd.lists u hu x hx

theorem initCallback_reads (env : Env) {h : Handle} {n : Nat} {r : Row} (hown : OwnRow h n r) :
    Reads h (initCallback env h n r) := by
  cases r with
  | table name temp view auto ok => exact createTable_reads ..
  | index name database table ok => exact createIndex_reads hown
  | other => exact .refl h

theorem rows_reads (env : Env) (rows : List (Nat × Row)) : ∀ {h : Handle},
    (∀ c ∈ rowCalls env h rows, OwnRow c.1 c.2.1 c.2.2) →
    Reads h (rows.foldl (fun h r => initCallback env h r.1 r.2) h) := by
  induction rows with
  | nil => exact fun _ => .refl _
  | cons r rows ih =>
    intro h hown
    rw [rowCalls, List.forall_mem_cons] at hown
    exact (initCallback_reads env hown.1).trans (ih hown.2)

theorem schemaTables_reads (env : Env) (h : Handle) (dbi : Nat) : Reads h (schemaTables env h dbi) := by
  have hmaster : Reads h (setReadOnly
      (createTable env h (UInt8.ofNat dbi) masterName false false [] true) masterName (ascii "main")) :=
    (createTable_reads ..).trans (setReadOnly_reads ..)
  unfold schemaTables
  dsimp only
  split
  · exact hmaster.trans ((createTable_reads ..).trans (setReadOnly_reads ..))
  · exact hmaster

@[simp] theorem getFormatVersion_aDb (env : Env) (h : Handle) (dbi : Nat) :
    (getFormatVersion env h dbi).aDb = h.aDb := by
  unfold getFormatVersion
  split <;> rfl

theorem getFormatVersion_reads (env : Env) (h : Handle) (dbi : Nat) :
    Reads h (getFormatVersion env h dbi) := by
  unfold getFormatVersion
  split
  · exact ⟨⟨rfl, fun i d hd => ⟨d, hd, Keeps.refl i d⟩⟩, fun _ hC => hC, rfl⟩
  · exact .refl h

theorem rowCalls_mem (env : Env) (rows : List (Nat × Row)) : ∀ {h : Handle} {c : Handle × Nat × Row},
    c ∈ rowCalls env h rows → c.2 ∈ rows := by
  induction rows with
  | nil =>
    intro h c hc
    cases hc
  | cons r rows ih =>
    intro h c hc
    rw [rowCalls, List.mem_cons] at hc
    rcases hc with rfl | hc
    · exact List.mem_cons_self ..
    · exact List.mem_cons_of_mem _ (ih hc)

theorem fileCalls_mem {env : Env} {h : Handle} {dbi : Nat} {c : Handle × Nat × Row}
    (hc : c ∈ fileCalls env h dbi) : ∃ i, c.2 ∈ (env.select i).1 := by
  unfold fileCalls at hc
  dsimp only at hc
  split at hc
  · cases hc
  · have hrow := rowCalls_mem env _ hc
    unfold selectSchema at hrow
    split at hrow
    · split at hrow
      · cases hrow
      · exact ⟨0, hrow⟩
    · split at hrow
      · cases hrow
      · exact ⟨dbi, hrow⟩

theorem loopCalls_mem (env : Env) (n : Nat) : ∀ {i : Nat} {h : Handle} {c : Handle × Nat × Row},
    c ∈ loopCalls env n i h → ∃ i, c.2 ∈ (env.select i).1 := by
  induction n with
  | zero =>
    intro i h c hc
    cases hc
  | succ n ih =>
    intro i h c hc
    rw [loopCalls] at hc
    split at hc
    · cases hc
    split at hc
    · exact ih hc
    split at hc
    · cases hc
    rw [List.mem_append] at hc
    rcases hc with hc | hc
    · exact fileCalls_mem hc
    · split at hc
      · cases hc
      split at hc
      · exact ih hc
      · cases hc

/-- Only a row of the schema table of the temporary database can make an index on another one's
table. -/
theorem ownRows_of_other {env : Env} (hother : ∀ i, ∀ r ∈ (env.select i).1, UInt8.ofNat r.1 ≠ 1)
    (h : Handle) : OwnRows env h := by
  intro c hc
  obtain ⟨i, hi⟩ := loopCalls_mem env _ hc
  unfold OwnRow
  split
  · exact fun h1 => absurd h1 (hother i c.2 hi)
  · trivial

/-! ## Forgetting schemas -/

/-- The entry without its schema. -/
def Db.clear (d : Db) : Db := { d with tblHash := [], idxHash := [], schemaLoaded := false }

/-- An entry while indices are deleted. -/
def Forgets (_ : Nat) (d d' : Db) : Prop := ∃ l, l.Sublist d.idxHash ∧ d' = { d with idxHash := l }

theorem Forgets.refl (i : Nat) (d : Db) : Forgets i d d := ⟨d.idxHash, List.Sublist.refl _, rfl⟩

theorem Forgets.trans (i : Nat) (a b c : Db) (h1 : Forgets i a b) (h2 : Forgets i b c) :
    Forgets i a c := by
  obtain ⟨l1, hs1, rfl⟩ := h1
  obtain ⟨l2, hs2, rfl⟩ := h2
  exact ⟨l2, hs2.trans hs1, rfl⟩

/-- Handles with the same flags, and the entries of one from those of the other. -/
structure Drops (R : Nat → Db → Db → Prop) (h h' : Handle) : Prop where
  related : Related R h h'
  initialized : h'.initialized = h.initialized

/-- Every index on a list of the tables has an entry with its number. -/
def InRange (h : Handle) (ts : List TableT) : Prop := ∀ t ∈ ts, ∀ x ∈ t.pIndex, x.iDb.toNat < h.aDb.length

theorem deleteIndex_spec {h : Handle} {x : IndexT} (hx : x.iDb.toNat < h.aDb.length) :
    ∃ h', deleteIndex h x = some h' ∧ Drops Forgets h h' := by
  unfold deleteIndex
  rw [if_pos hx]
  exact ⟨_, rfl, .setDb Forgets.refl fun d _ => ⟨_, List.erase_sublist, rfl⟩, rfl⟩

theorem foldlM_drops {α : Type} {f : Handle → α → Option Handle} {n : Nat} {P : α → Prop}
    (hf : ∀ h a, h.aDb.length = n → P a → ∃ h', f h a = some h' ∧ Drops Forgets h h') (l : List α) :
    ∀ h : Handle, h.aDb.length = n → (∀ a ∈ l, P a) → ∃ h', l.foldlM f h = some h' ∧
      Drops Forgets h h' := by
  induction l with
  | nil => exact fun h _ _ => ⟨h, rfl, .refl Forgets.refl h, rfl⟩
  | cons a l ih =>
    intro h hn hl
    obtain ⟨h1, heq1, hd1⟩ := hf h a hn (hl a (List.mem_cons_self ..))
    obtain ⟨h2, heq2, hd2⟩ := ih h1 (hd1.related.length.trans hn) fun b hb =>
      hl b (List.mem_cons_of_mem _ hb)
    refine ⟨h2, ?_, hd1.related.trans Forgets.trans hd2.related, hd2.initialized.trans hd1.initialized⟩
    rw [List.foldlM_cons, heq1]
    exact heq2

theorem deleteTables_spec {h : Handle} {ts : List TableT} (hr : InRange h ts) :
    ∃ h', ts.foldlM deleteTable h = some h' ∧ Drops Forgets h h' := by
  have hindex : ∀ (h1 : Handle) (x : IndexT), h1.aDb.length = h.aDb.length → x.iDb.toNat < h.aDb.length →
      ∃ h', deleteIndex h1 x = some h' ∧ Drops Forgets h1 h' :=
    fun h1 x hn hx => deleteIndex_spec (by omega)
  exact foldlM_drops (P := fun t : TableT => ∀ x ∈ t.pIndex, x.iDb.toNat < h.aDb.length)
    (fun h1 t hn ht => foldlM_drops hindex t.pIndex h1 hn ht) ts h rfl hr

/-- The entry `i` without its schema. -/
def Cleared (i : Nat) (j : Nat) (d d' : Db) : Prop := if j = i then d' = d.clear else Forgets j d d'

theorem resetDb_spec {h : Handle} {i : Nat} {d : Db} (hd : h.aDb[i]? = some d)
    (hr : InRange h d.tblHash) :
    ∃ h', resetDb h i = some h' ∧ Drops (Cleared i) h h' := by
  have hlen : (h.setDb i fun d => { d with tblHash := [], idxHash := [] }).aDb.length = h.aDb.length :=
    setDb_length ..
  have hr' : InRange (h.setDb i fun d => { d with tblHash := [], idxHash := [] }) d.tblHash := by
    intro t ht x hx
    rw [hlen]
    exact hr t ht x hx
  obtain ⟨h1, heq, hdrop⟩ := deleteTables_spec hr'
  refine ⟨h1.setDb i fun d => { d with schemaLoaded := false }, ?_, ⟨?_, ?_⟩, hdrop.initialized⟩
  · unfold resetDb
    rw [hd]
    dsimp only
    rw [heq]
    rfl
  · rw [setDb_length, hdrop.related.length, hlen]
  · intro j d' hd'
    rw [setDb_getElem?] at hd'
    unfold Cleared
    by_cases hij : i = j
    · subst hij
      rw [if_pos rfl] at hd'
      obtain ⟨d1, hd1, rfl⟩ := Option.map_eq_some_iff.1 hd'
      obtain ⟨d0, hd0, l, hl, rfl⟩ := hdrop.related.entry i d1 hd1
      rw [setDb_getElem?, if_pos rfl, hd] at hd0
      obtain rfl := Option.some.inj hd0
      refine ⟨d, hd, ?_⟩
      rw [if_pos rfl, show l = [] from List.sublist_nil.1 hl]
      rfl
    · rw [if_neg hij] at hd'
      obtain ⟨d0, hd0, hf⟩ := hdrop.related.entry j d' hd'
      rw [setDb_getElem?, if_neg hij] at hd0
      refine ⟨d0, hd0, ?_⟩
      rwa [if_neg (Ne.symm hij)]

/-- The first `n` entries without their schemas. -/
def ClearedTo (n : Nat) (j : Nat) (d d' : Db) : Prop := if j < n then d' = d.clear else Forgets j d d'

theorem resetDbs_spec {h : Handle} (hr : ∀ (i : Nat) (d : Db), h.aDb[i]? = some d →
    InRange h d.tblHash) (n : Nat) :
    n ≤ h.aDb.length → ∃ h', (List.range n).foldlM resetDb h = some h' ∧ Drops (ClearedTo n) h h' := by
  induction n with
  | zero =>
    exact fun _ => ⟨h, rfl,
      .refl (fun i d => by rw [ClearedTo, if_neg (Nat.not_lt_zero i)]; exact .refl i d) h,
      rfl⟩
  | succ n ih =>
    intro hn
    obtain ⟨h1, heq1, hd1⟩ := ih (by omega)
    obtain ⟨d1, hget1⟩ : ∃ d1, h1.aDb[n]? = some d1 :=
      ⟨_, List.getElem?_eq_getElem (by rw [hd1.related.length]; omega)⟩
    obtain ⟨d, hget, hrel⟩ := hd1.related.entry n d1 hget1
    rw [ClearedTo, if_neg (Nat.lt_irrefl n)] at hrel
    obtain ⟨l, -, rfl⟩ := hrel
    obtain ⟨h2, heq2, hd2⟩ := resetDb_spec (h := h1) hget1 fun t ht x hx => by
      rw [hd1.related.length]
      exact hr n d hget t ht x hx
    refine ⟨h2, ?_, ⟨hd2.related.length.trans hd1.related.length, fun j e hj => ?_⟩,
      hd2.initialized.trans hd1.initialized⟩
    · rw [List.range_succ, List.foldlM_append, heq1]
      change (resetDb h1 n).bind (fun h => some h) = some h2
      rw [heq2]
      rfl
    · obtain ⟨e1, hj1, hr2⟩ := hd2.related.entry j e hj
      obtain ⟨e0, hj0, hr1⟩ := hd1.related.entry j e1 hj1
      refine ⟨e0, hj0, ?_⟩
      rw [ClearedTo] at hr1 ⊢
      rw [Cleared] at hr2
      rcases Nat.lt_trichotomy j n with hlt | heq | hgt
      · rw [if_pos (by omega)] at hr1 ⊢
        rw [if_neg (by omega)] at hr2
        obtain ⟨l', hl', rfl⟩ := hr2
        subst hr1
        rw [show l' = [] from List.sublist_nil.1 hl']
        rfl
      · subst heq
        rw [if_neg (by omega)] at hr1
        rw [if_pos rfl] at hr2
        rw [if_pos (by omega)]
        obtain ⟨l', -, rfl⟩ := hr1
        exact hr2
      · rw [if_neg (by omega)] at hr1 ⊢
        rw [if_neg (by omega)] at hr2
        exact Forgets.trans j e0 e1 e hr1 hr2

theorem Carries.inRange {h : Handle} (hC : Carries h) {i : Nat} {d : Db} (hd : h.aDb[i]? = some d) :
    InRange h d.tblHash := by
  intro t ht x hx
  rw [(hC i d hd).lists t ht x hx]
  exact (List.getElem?_eq_some_iff.1 hd).1

/-- All the schemas are forgotten, and the entries without a storage manager with them. -/
theorem resetAll_spec {h : Handle} (hC : Carries h) :
    ∃ h', resetInternalSchema h 0 = some h' ∧ h'.initialized = false ∧
      h'.aDb = (h.aDb.take 2 ++ (h.aDb.drop 2).filter (·.pBt.isSome)).map Db.clear := by
  obtain ⟨h1, heq, hdrop⟩ := resetDbs_spec (h := { h with initialized := false })
    (fun i d hd t ht x hx => hC.inRange hd t ht x hx) h.aDb.length (le_refl _)
  have hmap : h1.aDb = h.aDb.map Db.clear := by
    refine List.ext_getElem? fun j => ?_
    rw [List.getElem?_map]
    cases hj : h1.aDb[j]? with
    | none =>
      have hle := List.getElem?_eq_none_iff.1 hj
      rw [hdrop.related.length] at hle
      rw [List.getElem?_eq_none_iff.2 hle]
      rfl
    | some e =>
      obtain ⟨d, hd, hr⟩ := hdrop.related.entry j e hj
      rw [ClearedTo, if_pos (List.getElem?_eq_some_iff.1 hd).1] at hr
      change h.aDb[j]? = some d at hd
      rw [hd, hr]
      rfl
  refine ⟨{ h1 with aDb := h1.aDb.take 2 ++ (h1.aDb.drop 2).filter (·.pBt.isSome) }, ?_,
    hdrop.initialized, ?_⟩
  · unfold resetInternalSchema
    dsimp only
    rw [if_neg (Nat.lt_irrefl 0), heq]
    rfl
  · dsimp only
    rw [hmap, List.map_append, List.map_take, ← List.map_drop, List.filter_map]
    rfl

/-- The schema of an entry is forgotten. -/
theorem resetOne_spec {h : Handle} (hC : Carries h) {i : Nat} {d : Db} (hi : 0 < i)
    (hd : h.aDb[i]? = some d) :
    ∃ h', resetInternalSchema h i = some h' ∧ Drops (Cleared i) { h with initialized := false } h' := by
  unfold resetInternalSchema
  dsimp only
  rw [if_pos hi]
  exact resetDb_spec (h := { h with initialized := false }) hd fun t ht x hx => hC.inRange hd t ht x hx

/-! ## The invariant -/

/-- The entries of a handle. -/
structure Base (h : Handle) : Prop where
  two : 2 ≤ h.aDb.length
  distinct : Distinct h
  /-- All but the temporary database are open. -/
  opened : ∀ (i : Nat) (d : Db), h.aDb[i]? = some d → i ≠ 1 → d.pBt ≠ none
  carries : Carries h
  temp : ∀ d0 d1 : Db, h.aDb[0]? = some d0 → h.aDb[1]? = some d1 → d1.schemaLoaded = d0.schemaLoaded

/-- An entry while schemas are loaded or forgotten. -/
def Opens (i : Nat) (d d' : Db) : Prop := d'.zName = d.zName ∧ (d'.pBt = d.pBt ∨ i = 1 ∧ d.pBt = none)

theorem Opens.refl (i : Nat) (d : Db) : Opens i d d := ⟨rfl, .inl rfl⟩

theorem Opens.trans (i : Nat) (a b c : Db) (h1 : Opens i a b) (h2 : Opens i b c) : Opens i a c := by
  obtain ⟨n1, p1⟩ := h1
  obtain ⟨n2, p2⟩ := h2
  refine ⟨n2.trans n1, ?_⟩
  rcases p1 with p1 | p1
  · rw [← p1]
    exact p2
  · exact .inr p1

theorem Related.mono {R S : Nat → Db → Db → Prop} {h h' : Handle} (hr : Related R h h')
    (hRS : ∀ i d d', R i d d' → S i d d') : Related S h h' := by
  refine ⟨hr.length, fun i d' hd' => ?_⟩
  obtain ⟨d, hd, hrd⟩ := hr.entry i d' hd'
  exact ⟨d, hd, hRS i d d' hrd⟩

/-- What keeps the names and the storage managers keeps the rest of the invariant, but for the
schemas. -/
theorem Base.of_related {h h' : Handle} (hb : Base h) (hr : Related Opens h h') (hC : Carries h')
    (ht : ∀ d0 d1 : Db, h'.aDb[0]? = some d0 → h'.aDb[1]? = some d1 → d1.schemaLoaded = d0.schemaLoaded) :
    Base h' := by
  refine ⟨hr.length ▸ hb.two, hr.distinct (fun _ _ _ h => h.1) hb.distinct, fun i d' hd' h1 => ?_, hC, ht⟩
  obtain ⟨d, hd, -, hp | ⟨h1', -⟩⟩ := hr.entry i d' hd'
  · rw [hp]
    exact hb.opened i d hd h1
  · exact absurd h1' h1

theorem Base.reads {h h' : Handle} (hb : Base h) (hr : Reads h h') : Base h' := by
  refine hb.of_related (hr.keeps.mono fun _ _ _ hk => ⟨hk.1, hk.2.1⟩) (hr.carries hb.distinct hb.carries)
    fun d0 d1 h0 h1 => ?_
  obtain ⟨e0, he0, -, -, hl0⟩ := hr.keeps.entry 0 d0 h0
  obtain ⟨e1, he1, -, -, hl1⟩ := hr.keeps.entry 1 d1 h1
  rw [hl0, hl1]
  exact hb.temp e0 e1 he0 he1

theorem Forgets.opens {i : Nat} {d d' : Db} (h : Forgets i d d') : Opens i d d' := by
  obtain ⟨l, -, rfl⟩ := h
  exact ⟨rfl, .inl rfl⟩

theorem Forgets.carries {i : Nat} {d d' : Db} (h : Forgets i d d') (hc : d.Carries i) : d'.Carries i := by
  obtain ⟨l, hl, rfl⟩ := h
  exact ⟨hc.tables, hc.lists, fun x hx => hc.indices x (hl.subset hx)⟩

theorem clear_carries (d : Db) (i : Nat) : d.clear.Carries i := ⟨nofun, nofun, nofun⟩

theorem Cleared.opens {i j : Nat} {d d' : Db} (h : Cleared i j d d') : Opens j d d' := by
  unfold Cleared at h
  split at h
  · subst h
    exact ⟨rfl, .inl rfl⟩
  · exact h.opens

theorem Cleared.carries {i j : Nat} {d d' : Db} (h : Cleared i j d d') (hc : d.Carries j) :
    d'.Carries j := by
  unfold Cleared at h
  split at h
  · subst h
    exact clear_carries d j
  · exact h.carries hc

theorem Cleared.schemaLoaded {i j : Nat} {d d' : Db} (h : Cleared i j d d') :
    d'.schemaLoaded = (d.schemaLoaded && j ≠ i) := by
  unfold Cleared at h
  split at h
  · rename_i hj
    subst h
    rw [hj]
    simp [Db.clear]
  · rename_i hj
    obtain ⟨l, -, rfl⟩ := h
    simp [hj]

/-- All the schemas are forgotten. -/
theorem Base.resetAll {h : Handle} (hb : Base h) : ∃ h', resetInternalSchema h 0 = some h' ∧ Base h' ∧
    h'.initialized = false ∧ Related (fun _ d d' => d' = d.clear) h h' := by
  obtain ⟨h', heq, hinit, hdb⟩ := resetAll_spec hb.carries
  have hopen : (h.aDb.drop 2).filter (·.pBt.isSome) = h.aDb.drop 2 := by
    refine List.filter_eq_self.2 fun d hd => ?_
    obtain ⟨j, hj⟩ := List.mem_iff_getElem?.1 hd
    rw [List.getElem?_drop] at hj
    exact Option.isSome_iff_ne_none.2 (hb.opened (2 + j) d hj (by omega))
  rw [hopen, List.take_append_drop] at hdb
  have hentry : ∀ (i : Nat) (d' : Db), h'.aDb[i]? = some d' → ∃ d, h.aDb[i]? = some d ∧ d' = d.clear := by
    intro i d' hd'
    rw [hdb, List.getElem?_map] at hd'
    obtain ⟨d, hd, rfl⟩ := Option.map_eq_some_iff.1 hd'
    exact ⟨d, hd, rfl⟩
  have hrel : Related (fun _ d d' => d' = d.clear) h h' := ⟨by rw [hdb, List.length_map], hentry⟩
  refine ⟨h', heq, hb.of_related (hrel.mono ?_) ?_ ?_, hinit, hrel⟩
  · rintro i d _ rfl
    exact ⟨rfl, .inl rfl⟩
  · intro i d' hd'
    obtain ⟨d, -, rfl⟩ := hentry i d' hd'
    exact clear_carries d i
  · intro d0 d1 h0 h1
    obtain ⟨e0, -, rfl⟩ := hentry 0 d0 h0
    obtain ⟨e1, -, rfl⟩ := hentry 1 d1 h1
    rfl

/-- The schema of an attached database is forgotten. -/
theorem Base.resetOne {h : Handle} (hb : Base h) {i : Nat} (hi : 2 ≤ i) (hlt : i < h.aDb.length) :
    ∃ h', resetInternalSchema h i = some h' ∧ Base h' ∧ h'.initialized = false ∧
      Related (Cleared i) h h' := by
  obtain ⟨h', heq, hdrop⟩ := resetOne_spec hb.carries (by omega) (List.getElem?_eq_getElem hlt)
  have hrel : Related (Cleared i) h h' := ⟨hdrop.related.length, hdrop.related.entry⟩
  refine ⟨h', heq, hb.of_related (hrel.mono fun _ _ _ => Cleared.opens) ?_ ?_, hdrop.initialized, hrel⟩
  · intro j d' hd'
    obtain ⟨d, hd, hr⟩ := hrel.entry j d' hd'
    exact hr.carries (hb.carries j d hd)
  · intro d0 d1 h0 h1
    obtain ⟨e0, he0, hr0⟩ := hrel.entry 0 d0 h0
    obtain ⟨e1, he1, hr1⟩ := hrel.entry 1 d1 h1
    rw [hr0.schemaLoaded, hr1.schemaLoaded, hb.temp e0 e1 he0 he1, decide_eq_true (by omega : 0 ≠ i),
      decide_eq_true (by omega : 1 ≠ i)]

/-- `__reset_internal_schema`, of all or of one. -/
theorem Base.reset {h : Handle} (hb : Base h) {i : Nat} (h1 : i ≠ 1) (hlt : i < h.aDb.length) :
    ∃ h', resetInternalSchema h i = some h' ∧ Base h' ∧ h'.initialized = false ∧ Related Opens h h' := by
  by_cases h0 : i = 0
  · subst h0
    obtain ⟨h', heq, hb', hinit, hrel⟩ := hb.resetAll
    refine ⟨h', heq, hb', hinit, hrel.mono ?_⟩
    rintro i d _ rfl
    exact ⟨rfl, .inl rfl⟩
  · obtain ⟨h', heq, hb', hinit, hrel⟩ := hb.resetOne (i := i) (by omega) hlt
    exact ⟨h', heq, hb', hinit, hrel.mono fun _ _ _ => Cleared.opens⟩

/-! ## Reading the schemas -/

/-- The entries of `h'` after the one of the entry `dbi` was read, or not. -/
structure Inits (env : Env) (dbi : Nat) (rc : Int) (h h' : Handle) : Prop where
  base : Base h'
  opens : Related Opens h h'
  loaded : rc = success → h'.initialized = h.initialized ∧
    ∀ (j : Nat) (d d' : Db), h.aDb[j]? = some d → h'.aDb[j]? = some d' →
      d'.schemaLoaded = (d.schemaLoaded || j = dbi || dbi = 0 && j = 1)

/-- An entry that is marked as loaded. -/
theorem setLoaded_opens (h : Handle) (i : Nat) :
    Related Opens h (h.setDb i fun d => { d with schemaLoaded := true }) :=
  .setDb Opens.refl fun _ _ => ⟨rfl, .inl rfl⟩

theorem setLoaded_loaded {h : Handle} {i j : Nat} {d d' : Db} (hd : h.aDb[j]? = some d)
    (hd' : (h.setDb i fun d => { d with schemaLoaded := true }).aDb[j]? = some d') :
    d'.schemaLoaded = (d.schemaLoaded || j = i) := by
  rw [setDb_getElem?, hd] at hd'
  split at hd'
  · rename_i hij
    cases hd'
    rw [decide_eq_true hij.symm, Bool.or_true]
  · rename_i hij
    cases hd'
    rw [decide_eq_false (Ne.symm hij), Bool.or_false]

theorem setLoaded_carries {h : Handle} (hC : Carries h) (i : Nat) :
    Carries (h.setDb i fun d => { d with schemaLoaded := true }) :=
  hC.setDb fun _ _ hd => ⟨hd.tables, hd.lists, hd.indices⟩

theorem readSchema_spec (env : Env) {h : Handle} (hb : Base h) {dbi : Nat} (h1 : dbi ≠ 1)
    (hlt : dbi < h.aDb.length) (zName : Bytes)
    (hown : ∀ c ∈ rowCalls env h (selectSchema env h dbi zName).1, OwnRow c.1 c.2.1 c.2.2) :
    ∃ h', readSchema env h dbi zName = some ((selectSchema env h dbi zName).2, h') ∧
      Inits env dbi (selectSchema env h dbi zName).2 h h' := by
  unfold readSchema
  generalize selectSchema env h dbi zName = rs at hown ⊢
  obtain ⟨rows, rc⟩ := rs
  dsimp only at hown ⊢
  have hr := rows_reads env rows hown
  generalize rows.foldl (fun h r => initCallback env h r.1 r.2) h = g at hr ⊢
  have hbg := hb.reads hr
  have hog : Related Opens h g := hr.keeps.mono fun _ _ _ hk => ⟨hk.1, hk.2.1⟩
  split
  · rename_i hrc
    -- the entry is marked, "temp" with "main"
    let g1 := g.setDb dbi fun d => { d with schemaLoaded := true }
    let g2 := if dbi = 0 then g1.setDb 1 fun d => { d with schemaLoaded := true } else g1
    have ho2 : Related Opens g g2 := by
      dsimp only [g2]
      split
      · exact (setLoaded_opens g dbi).trans Opens.trans (setLoaded_opens g1 1)
      · exact setLoaded_opens g dbi
    have hc2 : Carries g2 := by
      dsimp only [g2]
      split
      · exact setLoaded_carries (setLoaded_carries hbg.carries dbi) 1
      · exact setLoaded_carries hbg.carries dbi
    have hinit : g2.initialized = g.initialized := by
      dsimp only [g2]
      split <;> rfl
    have hload : ∀ (j : Nat) (d d' : Db), g.aDb[j]? = some d → g2.aDb[j]? = some d' →
        d'.schemaLoaded = (d.schemaLoaded || j = dbi || dbi = 0 && j = 1) := by
      intro j d d' hd hd'
      dsimp only [g2] at hd'
      split at hd'
      · rename_i h0
        obtain ⟨d1, hd1⟩ : ∃ d1, g1.aDb[j]? = some d1 :=
          ⟨_, List.getElem?_eq_getElem (by
            rw [setDb_length]
            exact (List.getElem?_eq_some_iff.1 hd).1)⟩
        rw [setLoaded_loaded hd1 hd', setLoaded_loaded hd hd1, decide_eq_true h0, Bool.true_and]
      · rename_i h0
        rw [setLoaded_loaded hd hd', decide_eq_false h0, Bool.false_and, Bool.or_false]
    have hbt : ∀ d0 d1 : Db, g2.aDb[0]? = some d0 → g2.aDb[1]? = some d1 →
        d1.schemaLoaded = d0.schemaLoaded := by
      intro d0 d1 hd0 hd1
      obtain ⟨e0, he0, -⟩ := ho2.entry 0 d0 hd0
      obtain ⟨e1, he1, -⟩ := ho2.entry 1 d1 hd1
      rw [hload 0 e0 d0 he0 hd0, hload 1 e1 d1 he1 hd1, hbg.temp e0 e1 he0 he1]
      by_cases h0 : dbi = 0
      · subst h0
        simp
      · rw [decide_eq_false (Ne.symm h0), decide_eq_false h0, decide_eq_false (Ne.symm h1)]
        rfl
    refine ⟨g2, rfl, hbg.of_related ho2 hc2 hbt, hog.trans Opens.trans ho2,
      fun _ => ⟨hinit.trans hr.initialized, fun j d d' hd hd' => ?_⟩⟩
    obtain ⟨e, he, -⟩ := ho2.entry j d' hd'
    obtain ⟨e', he', -, -, hl⟩ := hr.keeps.entry j e he
    rw [hd] at he'
    cases he'
    rw [hload j e d' he hd', hl]
  · rename_i hrc
    have hmem : ∃ g1, (if env.noMem dbi then resetInternalSchema g 0 else some g) = some g1 ∧ Base g1 ∧
        Related Opens g g1 := by
      split
      · obtain ⟨g1, heq, hb1, -, ho1⟩ :=
          hbg.reset (i := 0) (by decide) (Nat.lt_of_lt_of_le (by decide) hbg.two)
        exact ⟨g1, heq, hb1, ho1⟩
      · exact ⟨g, rfl, hbg, .refl Opens.refl g⟩
    obtain ⟨g1, heq1, hb1, ho1⟩ := hmem
    obtain ⟨g2, heq2, hb2, -, ho2⟩ := hb1.reset h1 (by rw [ho1.length, hog.length]; exact hlt)
    refine ⟨g2, ?_, hb2, hog.trans Opens.trans (ho1.trans Opens.trans ho2), fun h => absurd h hrc⟩
    rw [heq1, Option.bind_some, heq2]
    rfl

theorem readSchema_success {env : Env} {h : Handle} {dbi : Nat} {zName : Bytes}
    (hrc : (selectSchema env h dbi zName).2 = success) :
    ∃ h', readSchema env h dbi zName = some (success, h') := by
  unfold readSchema
  dsimp only
  rw [if_pos hrc, hrc]
  exact ⟨_, rfl⟩

theorem initDbFile_spec (env : Env) {h : Handle} (hb : Base h) {dbi : Nat} (h1 : dbi ≠ 1)
    (hlt : dbi < h.aDb.length) (hown : ∀ c ∈ fileCalls env h dbi, OwnRow c.1 c.2.1 c.2.2) :
    ∃ rc h', initDbFile env h dbi = some (rc, h') ∧ Inits env dbi rc h h' := by
  unfold fileCalls at hown
  unfold initDbFile
  dsimp only at hown ⊢
  have hr1 := schemaTables_reads env h dbi
  generalize schemaTables env h dbi = g1 at hr1 hown ⊢
  obtain ⟨d, hd⟩ : ∃ d, g1.aDb[dbi]? = some d :=
    ⟨_, List.getElem?_eq_getElem (by rw [hr1.keeps.length]; exact hlt)⟩
  rw [hd] at hown ⊢
  dsimp only at hown ⊢
  rw [if_neg ((hb.reads hr1).opened dbi d hd h1)]
  have hr2 := hr1.trans (getFormatVersion_reads env g1 dbi)
  generalize getFormatVersion env g1 dbi = g2 at hr2 hown ⊢
  obtain ⟨h', heq, hI⟩ :=
    readSchema_spec env (hb.reads hr2) h1 (by rw [hr2.keeps.length]; exact hlt) d.zName hown
  refine ⟨_, h', heq, hI.base, (hr2.keeps.mono fun _ _ _ hk => ⟨hk.1, hk.2.1⟩).trans Opens.trans hI.opens,
    fun hrc => ?_⟩
  obtain ⟨hinit, hload⟩ := hI.loaded hrc
  refine ⟨hinit.trans hr2.initialized, fun j e e' he he' => ?_⟩
  obtain ⟨e1, he1, -⟩ := hI.opens.entry j e' he'
  obtain ⟨e0, he0, -, -, hl⟩ := hr2.keeps.entry j e1 he1
  rw [he] at he0
  cases he0
  rw [hload j e1 e' he1 he', hl]

/-! ## All the schemas -/

/-- The loop goes over entries that are loaded. -/
theorem initLoop_spec (env : Env) (n : Nat) : ∀ (i : Nat) {h : Handle}, Base h → h.aDb.length ≤ i + n →
    (∀ (j : Nat) (d : Db), h.aDb[j]? = some d → j < i → d.schemaLoaded = true) →
    (∀ c ∈ loopCalls env n i h, OwnRow c.1 c.2.1 c.2.2) →
    ∃ rc h', initLoop env n i h = some (rc, h') ∧ Base h' ∧ Related Opens h h' ∧
      (rc = success → ∀ (j : Nat) (d : Db), h'.aDb[j]? = some d → d.schemaLoaded = true) := by
  induction n with
  | zero =>
    intro i h hb hle hl _
    refine ⟨success, h, rfl, hb, .refl Opens.refl h, fun _ j d hd => hl j d hd ?_⟩
    have hlt := (List.getElem?_eq_some_iff.1 hd).1
    omega
  | succ n ih =>
    intro i h hb hle hl hown
    rw [loopCalls] at hown
    rw [initLoop]
    cases hi : h.aDb[i]? with
    | none =>
      refine ⟨success, h, rfl, hb, .refl Opens.refl h, fun _ j d hd => hl j d hd ?_⟩
      have hlt := (List.getElem?_eq_some_iff.1 hd).1
      have hge := List.getElem?_eq_none_iff.1 hi
      omega
    | some d =>
      have hlt := (List.getElem?_eq_some_iff.1 hi).1
      rw [hi] at hown
      dsimp only at hown ⊢
      by_cases hd : d.schemaLoaded = true
      · rw [if_pos hd] at hown ⊢
        refine ih (i + 1) hb (by omega) (fun j e he hj => ?_) hown
        by_cases hji : j = i
        · subst hji
          rw [hi] at he
          cases he
          exact hd
        · exact hl j e he (by omega)
      · have h1 : i ≠ 1 := by
          rintro rfl
          -- "temp" is loaded with "main"
          obtain ⟨d0, h0⟩ : ∃ d0, h.aDb[0]? = some d0 := ⟨_, List.getElem?_eq_getElem (by omega)⟩
          rw [hb.temp d0 d h0 hi, hl 0 d0 h0 (by decide)] at hd
          exact hd rfl
        rw [if_neg hd, if_neg h1] at hown ⊢
        rw [List.forall_mem_append] at hown
        obtain ⟨rc, h', heq, hI⟩ := initDbFile_spec env hb h1 hlt hown.1
        have hown := hown.2
        rw [heq] at hown ⊢
        dsimp only [Option.bind_some, Option.bind_eq_bind] at hown ⊢
        by_cases hrc : rc = success
        · rw [if_pos hrc] at hown ⊢
          obtain ⟨-, hload⟩ := hI.loaded hrc
          have hl' : ∀ (j : Nat) (e' : Db), h'.aDb[j]? = some e' → j < i + 1 → e'.schemaLoaded = true := by
            intro j e' he' hj
            obtain ⟨e, he, -⟩ := hI.opens.entry j e' he'
            rw [hload j e e' he he']
            by_cases hji : j = i
            · rw [decide_eq_true hji, Bool.or_true, Bool.true_or]
            · rw [hl j e he (by omega), Bool.true_or, Bool.true_or]
          obtain ⟨rc', h'', heq', hb'', ho, hall⟩ :=
            ih (i + 1) hI.base (by rw [hI.opens.length]; omega) hl' hown
          exact ⟨rc', h'', heq', hb'', hI.opens.trans Opens.trans ho, hall⟩
        · rw [if_neg hrc]
          exact ⟨rc, h', rfl, hI.base, hI.opens, fun h => absurd h hrc⟩

/-- All the schemas are read, or the handle is not initialized. -/
theorem initDatabases_spec {env : Env} {h : Handle} (hb : Base h) (hown : OwnRows env h) :
    ∃ rc h', initDatabases env h = some (rc, h') ∧ Base h' ∧ Related Opens h h' ∧ (rc = success ↔ h'.initialized = true) ∧
    (h'.initialized = true → ∀ (j : Nat) (d : Db), h'.aDb[j]? = some d → d.schemaLoaded = true) := by
  obtain ⟨rc, g, heq, hbg, ho, hall⟩ := initLoop_spec env h.aDb.length 0 hb (by omega)
    (fun j d _ hj => absurd hj (Nat.not_lt_zero j)) hown
  unfold initDatabases
  rw [heq]
  dsimp only [Option.bind_some, Option.bind_eq_bind]
  by_cases hrc : rc = success
  · rw [if_pos hrc]
    exact ⟨rc, { g with initialized := true }, rfl,
      ⟨hbg.two, hbg.distinct, hbg.opened, hbg.carries, hbg.temp⟩,
      ⟨ho.length, ho.entry⟩, ⟨fun _ => rfl, fun _ => hrc⟩, fun _ => hall hrc⟩
  · rw [if_neg hrc]
    exact ⟨rc, { g with initialized := false }, rfl,
      ⟨hbg.two, hbg.distinct, hbg.opened, hbg.carries, hbg.temp⟩,
      ⟨ho.length, ho.entry⟩, ⟨fun h => absurd h hrc, nofun⟩, nofun⟩

/-- A handle between statements. -/
structure Inv (h : Handle) : Prop where
  base : Base h
  small : h.aDb.length ≤ 256
  loaded : h.initialized = true → ∀ (j : Nat) (d : Db), h.aDb[j]? = some d → d.schemaLoaded = true

/-! ## ATTACH -/

/-- The ATTACH comes to the open. -/
structure Reaches (env : AttachEnv) (h : Handle) (name : Bytes) : Prop where
  explain : env.explain = false
  format : 1 ≤ h.formatVersion
  room : h.aDb.length < 257
  allocFile : env.allocFile = true
  auth : env.auth = true
  allocName : env.allocName = true
  free : ∀ d ∈ h.aDb, same d.zName name = false
  allocDb : env.allocDb = true

theorem attach_reaches {env : AttachEnv} {h : Handle} {name : Bytes} (hr : Reaches env h name) :
    attach env h name = if env.opened = none then some (h.push name none, .failed)
      else finishAttach env (h.push name env.opened) := by
  have hfree : h.aDb.any (same ·.zName name) = false := by
    rw [List.any_eq_false]
    intro d hd
    rw [hr.free d hd]
    decide
  have hroom := hr.room
  have hformat := hr.format
  unfold attach
  rw [if_neg (by rw [hr.explain]; decide), if_neg (by omega), if_neg (by omega),
    if_neg (by rw [hr.allocFile]; decide),
    if_neg (by rw [hr.auth]; decide), if_neg (by rw [hr.allocName]; decide),
      if_neg (by rw [hfree]; decide),
    if_neg (by rw [hr.allocDb]; decide)]

theorem attach_not_reaches {env : AttachEnv} {h : Handle} {name : Bytes} (hr : ¬ Reaches env h name) :
    ∃ out, attach env h name = some (h, out) ∧ out ≠ .attached := by
  have hfailed : ∀ out, out ≠ .attached → ∃ out', some (h, out) = some (h, out') ∧
    out' ≠ Outcome.attached :=
    fun out hne => ⟨out, rfl, hne⟩
  suffices hP : ∀ P : Option (Handle × Outcome) → Prop, (∀ out, out ≠ .attached → P (some (h, out))) →
      P (attach env h name) from hP (fun r => ∃ out, r = some (h, out) ∧ out ≠ .attached) hfailed
  intro P hP
  unfold attach
  refine iteInduction (fun _ => hP _ nofun) fun h1 => iteInduction (fun _ => hP _ nofun) fun h2 =>
    iteInduction (fun _ => hP _ nofun) fun h3 => iteInduction (fun _ => hP _ nofun) fun h4 =>
    iteInduction (fun _ => hP _ nofun) fun h5 => iteInduction (fun _ => hP _ nofun) fun h6 =>
    iteInduction (fun _ => hP _ nofun) fun h7 => iteInduction (fun _ => hP _ nofun) fun h8 => ?_
  refine absurd ⟨by simpa using h1, by omega, by omega, by simpa using h4, by simpa using h5, by simpa using h6, ?_,
    by simpa using h8⟩ hr
  simpa using h7

/-- The schemas can be read: the SELECT from the new database succeeds, and no index of the main
database has the name of the schema table. -/
def Readable (env : AttachEnv) (h : Handle) : Prop := (env.select h.aDb.length).2 = success ∧
  ∀ d : Db, h.aDb[0]? = some d → ∀ x ∈ d.idxHash, same x.zName masterName = false

theorem push_getElem? (h : Handle) (name : Bytes) (pBt : Option Sm) {i : Nat} {d : Db}
    (hd : (h.push name pBt).aDb[i]? = some d) : h.aDb[i]? = some d ∨
      i = h.aDb.length ∧ d = ⟨name, pBt, [], [], false⟩ := by
  change (h.aDb ++ [_])[i]? = some d at hd
  rw [List.getElem?_append] at hd
  split at hd
  · exact .inl hd
  · right
    rename_i hge
    have hi : i - h.aDb.length = 0 := by
      have hlt := (List.getElem?_eq_some_iff.1 hd).1
      rw [List.length_singleton] at hlt
      omega
    rw [hi] at hd
    cases hd
    exact ⟨by omega, rfl⟩

theorem Base.push {h : Handle} (hb : Base h) {name : Bytes} {pBt : Option Sm} (hopen : pBt ≠ none)
    (hfree : ∀ d ∈ h.aDb, same d.zName name = false) : Base (h.push name pBt) := by
  have hlen : (h.push name pBt).aDb.length = h.aDb.length + 1 := List.length_append
  have hlt : ∀ {i : Nat} {d : Db}, h.aDb[i]? = some d → i < h.aDb.length :=
    fun hd => (List.getElem?_eq_some_iff.1 hd).1
  refine ⟨by have := hb.two; omega, fun i j d d' hd hd' heq => ?_, fun i d hd h1 => ?_, fun i d hd => ?_,
    fun d0 d1 h0 h1 => ?_⟩
  · rcases push_getElem? h name pBt hd with hd | ⟨hi, rfl⟩
    · rcases push_getElem? h name pBt hd' with hd' | ⟨hj, rfl⟩
      · exact hb.distinct i j d d' hd hd' heq
      · rw [hfree d (List.mem_of_getElem? hd)] at heq
        cases heq
    · rcases push_getElem? h name pBt hd' with hd' | ⟨hj, rfl⟩
      · rw [same_iff] at heq
        have hno := hfree d' (List.mem_of_getElem? hd')
        rw [same_iff.2 heq.symm] at hno
        cases hno
      · omega
  · rcases push_getElem? h name pBt hd with hd | ⟨-, rfl⟩
    · exact hb.opened i d hd h1
    · exact hopen
  · rcases push_getElem? h name pBt hd with hd | ⟨-, rfl⟩
    · exact hb.carries i d hd
    · exact ⟨nofun, nofun, nofun⟩
  · have h2 := hb.two
    rcases push_getElem? h name pBt h0 with h0 | ⟨hi, -⟩
    · rcases push_getElem? h name pBt h1 with h1 | ⟨hi, -⟩
      · exact hb.temp d0 d1 h0 h1
      · omega
    · omega

/-- An ATTACH whose schema cannot be read goes away again. -/
theorem detachLast_spec {h g : Handle} (hb : Base h) (hg : Base g) {name : Bytes} {pBt : Option Sm}
    (ho : Related Opens (h.push name pBt) g) :
    ∃ h', resetInternalSchema (g.setDb (g.aDb.length - 1) fun d => { d with pBt := none }) 0 = some h' ∧
      Base h' ∧ h'.initialized = false ∧ Related Opens h h' ∧
      ∀ (i : Nat) (d' : Db), h'.aDb[i]? = some d' → d'.schemaLoaded = false := by
  have hlen : g.aDb.length = h.aDb.length + 1 := ho.length.trans List.length_append
  have h2 := hb.two
  -- the entries but the last, and the last
  obtain ⟨l, e, hl⟩ : ∃ l e, g.aDb = l ++ [e] :=
    ⟨_, _, (List.dropLast_append_getLast (List.ne_nil_of_length_eq_add_one hlen)).symm⟩
  have hll : l.length = h.aDb.length := by
    have := congrArg List.length hl
    rw [List.length_append, List.length_singleton] at this
    omega
  have hset : (g.setDb (g.aDb.length - 1) fun d => { d with pBt := none }).aDb =
    l ++ [{ e with pBt := none }] := by
    refine List.ext_getElem? fun j => ?_
    rw [setDb_getElem?, hl, List.length_append, List.length_singleton, Nat.add_sub_cancel,
      List.getElem?_append, List.getElem?_append]
    split
    · rename_i hj
      subst hj
      rw [if_neg (Nat.lt_irrefl _), if_neg (Nat.lt_irrefl _), Nat.sub_self]
      rfl
    · rename_i hj
      split
      · rfl
      · obtain ⟨k, hk⟩ : ∃ k, j - l.length = k + 1 := ⟨j - l.length - 1, by omega⟩
        rw [hk]
        rfl
  have hC : Carries (g.setDb (g.aDb.length - 1) fun d => { d with pBt := none }) :=
    hg.carries.setDb fun d _ hd => ⟨hd.tables, hd.lists, hd.indices⟩
  obtain ⟨h', heq, hinit, hdb⟩ := resetAll_spec hC
  have hopen : ((l ++ [{ e with pBt := none }]).drop 2).filter (·.pBt.isSome) = l.drop 2 := by
    rw [List.drop_append_of_le_length (by omega), List.filter_append]
    have hlast : [{ e with pBt := none }].filter (fun d : Db => d.pBt.isSome) = [] := rfl
    rw [hlast, List.append_nil]
    refine List.filter_eq_self.2 fun d hd => ?_
    obtain ⟨j, hj⟩ := List.mem_iff_getElem?.1 hd
    rw [List.getElem?_drop] at hj
    refine Option.isSome_iff_ne_none.2 (hg.opened (2 + j) d ?_ (by omega))
    rw [hl, List.getElem?_append_left (List.getElem?_eq_some_iff.1 hj).1]
    exact hj
  rw [hset, hopen, List.take_append_of_le_length (by omega), List.take_append_drop] at hdb
  have hentry : ∀ (i : Nat) (d' : Db), h'.aDb[i]? = some d' → ∃ d, h.aDb[i]? = some d ∧ Opens i d d' ∧
      d'.tblHash = [] ∧ d'.idxHash = [] ∧ d'.schemaLoaded = false := by
    intro i d' hd'
    rw [hdb, List.getElem?_map] at hd'
    obtain ⟨d1, hd1, rfl⟩ := Option.map_eq_some_iff.1 hd'
    have hi := (List.getElem?_eq_some_iff.1 hd1).1
    have hg1 : g.aDb[i]? = some d1 := by
      rw [hl, List.getElem?_append_left hi]
      exact hd1
    obtain ⟨d, hd, hod⟩ := ho.entry i d1 hg1
    rcases push_getElem? h name pBt hd with hd | ⟨hi', -⟩
    · exact ⟨d, hd, hod, rfl, rfl, rfl⟩
    · omega
  have hsame : Related Opens h h' := by
    refine ⟨by rw [hdb, List.length_map, hll], fun i d' hd' => ?_⟩
    obtain ⟨d, hd, hod, -⟩ := hentry i d' hd'
    exact ⟨d, hd, hod⟩
  have hclear : ∀ (i : Nat) (d' : Db), h'.aDb[i]? = some d' → d'.schemaLoaded = false := by
    intro i d' hd'
    obtain ⟨-, -, -, -, -, hs⟩ := hentry i d' hd'
    exact hs
  refine ⟨h', heq, hb.of_related hsame (fun i d' hd' => ?_) (fun d0 d1 h0 h1 => ?_), hinit, hsame, hclear⟩
  · obtain ⟨d, -, -, ht, hx, -⟩ := hentry i d' hd'
    exact ⟨by rw [ht]; nofun, by rw [ht]; nofun, by rw [hx]; nofun⟩
  · rw [hclear 0 d0 h0, hclear 1 d1 h1]

/-! ## A schema that can be read -/

theorem findTable_isSome {h : Handle} {name z : Bytes} {i : Nat} {d : Db} (hd : h.aDb[i]? = some d)
    (hz : same z d.zName = true) {t : TableT} (ht : t ∈ d.tblHash) (hn : same t.zName name = true) :
    (findTable h name (some z)).isSome = true := by
  unfold findTable
  rw [List.findSome?_isSome_iff]
  refine ⟨(i, d), mem_order.2 hd, ?_⟩
  rw [if_pos (by exact hz), Option.isSome_map, List.find?_isSome]
  exact ⟨t, ht, hn⟩

theorem findIndex_some {h : Handle} {name : Bytes} {database : Option Bytes} {x : IndexT}
    (hf : findIndex h name database = some x) : ∃ (i : Nat) (d : Db), h.aDb[i]? = some d ∧ x ∈ d.idxHash ∧
      same x.zName name = true := by
  obtain ⟨⟨j, d⟩, hmem, hd⟩ := List.exists_of_findSome?_eq_some hf
  split at hd
  · exact ⟨j, d, mem_order.1 hmem, List.mem_of_find?_eq_some hd, by simpa using List.find?_some hd⟩
  · cases hd

/-- The schema table of a new database. -/
theorem createMaster_spec (env : Env) {h : Handle} (hC : Carries h) {dbi : Nat} (h2 : 2 ≤ dbi)
    (hlt : dbi ≤ 255)
    {d : Db} (hd : h.aDb[dbi]? = some d) (hnew : d.tblHash = [])
    (hidx : ∀ d : Db, h.aDb[0]? = some d → ∀ x ∈ d.idxHash, same x.zName masterName = false) :
    createTable env h (UInt8.ofNat dbi) masterName false false [] true = h.setDb dbi fun d =>
      { d with tblHash := insertTable ⟨masterName, UInt8.ofNat dbi, false, false, []⟩ d.tblHash } := by
  have hnat : (UInt8.ofNat dbi).toNat = dbi := by
    rw [UInt8.toNat_ofNat']
    omega
  have hne : UInt8.ofNat dbi ≠ 1 := by
    intro h
    have := congrArg UInt8.toNat h
    rw [hnat] at this
    change dbi = 1 at this
    omega
  have htable : (findTable h masterName none).any (·.2.iDb = UInt8.ofNat dbi) = false := by
    cases hf : findTable h masterName none with
    | none => rfl
    | some p =>
      obtain ⟨i, t⟩ := p
      obtain ⟨e, he, ht, -⟩ := findTable_some hf
      rw [Option.any_some]
      refine decide_eq_false fun hi => ?_
      have hti := (hC i e he).tables t ht
      rw [hi, hnat] at hti
      rw [← hti, hd] at he
      cases he
      rw [hnew] at ht
      cases ht
  have hindex : (findIndex h masterName none).any (·.iDb = 0) = false := by
    cases hf : findIndex h masterName none with
    | none => rfl
    | some x =>
      obtain ⟨i, e, he, hx, hn⟩ := findIndex_some hf
      rw [Option.any_some]
      refine decide_eq_false fun hi => ?_
      have hxi := (hC i e he).indices x hx
      rw [hi] at hxi
      obtain rfl : 0 = i := hxi
      rw [hidx e he x hx] at hn
      cases hn
  unfold createTable
  dsimp only
  simp only [decide_eq_false hne, Bool.or_false, Bool.false_and, Bool.false_eq_true, if_false,
    htable, hindex, if_true,
    hnat]
  rfl

theorem initLoop_skip (env : Env) (m k : Nat) : ∀ {i : Nat} {h : Handle}, i + k ≤ h.aDb.length →
    (∀ (j : Nat) (d : Db), h.aDb[j]? = some d → j < i + k → d.schemaLoaded = true) →
    initLoop env (k + m) i h = initLoop env m (i + k) h := by
  induction k with
  | zero =>
    intro i h _ _
    rw [Nat.zero_add]
    rfl
  | succ k ih =>
    intro i h hle hl
    obtain ⟨d, hd⟩ : ∃ d, h.aDb[i]? = some d := ⟨_, List.getElem?_eq_getElem (by omega)⟩
    rw [Nat.add_right_comm, initLoop, hd]
    dsimp only
    rw [if_pos (hl i d hd (by omega)), ih (by omega) fun j e he hj => hl j e he (by omega)]
    congr 1
    omega

theorem setReadOnly_table {h : Handle} {i : Nat} {d : Db} {t : TableT} (hd : h.aDb[i]? = some d)
    (ht : t ∈ d.tblHash) (name database : Bytes) : ∃ d', (setReadOnly h name database).aDb[i]? = some d' ∧
      d'.zName = d.zName ∧ ∃ t' ∈ d'.tblHash, t'.zName = t.zName := by
  unfold setReadOnly
  split
  · exact ⟨d, hd, rfl, t, ht, rfl⟩
  · rename_i j u _
    rw [setDb_getElem?, hd]
    split
    · refine ⟨_, rfl, rfl, _, List.mem_map_of_mem ht, ?_⟩
      split <;> rfl
    · exact ⟨d, rfl, rfl, t, ht, rfl⟩

/-- The new entry has a schema table, which the SELECT finds. -/
theorem selectNew_spec (env : Env) {h : Handle} (hC : Carries h) {dbi : Nat} (h2 : 2 ≤ dbi)
    (hlt : dbi ≤ 255)
    {d : Db} (hd : h.aDb[dbi]? = some d) (hnew : d.tblHash = [])
    (hidx : ∀ d : Db, h.aDb[0]? = some d → ∀ x ∈ d.idxHash, same x.zName masterName = false) :
    selectSchema env (setReadOnly
      (createTable env h (UInt8.ofNat dbi) masterName false false [] true) masterName
      (ascii "main")) dbi d.zName = env.select dbi := by
  have hcreate : (createTable env h (UInt8.ofNat dbi) masterName false false [] true).aDb[dbi]? =
      some { d with tblHash := [⟨masterName, UInt8.ofNat dbi, false, false, []⟩] } := by
    rw [createMaster_spec env hC h2 hlt hd hnew hidx, setDb_getElem?, if_pos rfl, hd,
      Option.map_some, hnew]
    rfl
  obtain ⟨d', hd', hz, t, ht, hn⟩ := setReadOnly_table hcreate (List.mem_singleton_self _) masterName (ascii "main")
  have hfound := findTable_isSome (z := d.zName) hd' (same_iff.2 (by rw [hz])) ht
    (same_iff.2 (by rw [hn]))
  unfold selectSchema
  rw [if_neg (by omega), if_neg]
  rintro ⟨-, hnone⟩
  rw [Option.isNone_iff_eq_none] at hnone
  rw [hnone] at hfound
  cases hfound

/-- The schema of a new database. -/
theorem initNew_spec (env : Env) {h : Handle} (hb : Base h) (hsmall : h.aDb.length ≤ 255)
    (hl : ∀ (j : Nat) (d : Db), h.aDb[j]? = some d → d.schemaLoaded = true) {name : Bytes} {pBt :
      Option Sm}
    (hopen : pBt ≠ none) (hfree : ∀ d ∈ h.aDb, same d.zName name = false)
    (hsel : (env.select h.aDb.length).2 = success)
    (hidx : ∀ d : Db, h.aDb[0]? = some d → ∀ x ∈ d.idxHash, same x.zName masterName = false) :
    ∃ g, initDatabases env (h.push name pBt) = some (success, g) := by
  have hbp : Base (h.push name pBt) := hb.push hopen hfree
  have hlen : (h.push name pBt).aDb.length = h.aDb.length + 1 := List.length_append
  have h2 := hb.two
  have hlast : (h.push name pBt).aDb[h.aDb.length]? = some ⟨name, pBt, [], [], false⟩ := by
    change (h.aDb ++ [_])[h.aDb.length]? = _
    rw [List.getElem?_append_right (le_refl _), Nat.sub_self]
    rfl
  -- the loop comes to the new entry
  have hskip : initLoop env (h.aDb.length + 1) 0 (h.push name pBt) =
      initLoop env 1 (0 + h.aDb.length) (h.push name pBt) := by
    refine initLoop_skip env 1 h.aDb.length (by omega) fun j d hd hj => ?_
    rcases push_getElem? h name pBt hd with hd | ⟨hi, -⟩
    · exact hl j d hd
    · omega
  have hfile : ∃ g, initDbFile env (h.push name pBt) h.aDb.length = some (success, g) := by
    have hselect := selectNew_spec env hbp.carries h2 hsmall hlast rfl fun d hd => by
      rcases push_getElem? h name pBt hd with hd | ⟨hi, -⟩
      · exact hidx d hd
      · omega
    have h0 : h.aDb.length ≠ 0 := by omega
    have hr := schemaTables_reads env (h.push name pBt) h.aDb.length
    unfold initDbFile
    dsimp only
    have htables : schemaTables env (h.push name pBt) h.aDb.length = setReadOnly
        (createTable env (h.push name pBt) (UInt8.ofNat h.aDb.length) masterName false false [] true)
        masterName (ascii "main") := if_neg h0
    rw [← htables] at hselect
    generalize schemaTables env (h.push name pBt) h.aDb.length = g1 at hselect hr ⊢
    obtain ⟨d, hd⟩ : ∃ d, g1.aDb[h.aDb.length]? = some d :=
      ⟨_, List.getElem?_eq_getElem (by rw [hr.keeps.length]; omega)⟩
    obtain ⟨d0, hd0, hz, -⟩ := hr.keeps.entry _ d hd
    rw [hlast] at hd0
    cases hd0
    rw [hd]
    dsimp only
    rw [if_neg ((hbp.reads hr).opened _ d hd (by omega)), hz, getFormatVersion, if_neg h0]
    refine readSchema_success ?_
    rw [hselect]
    exact hsel
  obtain ⟨g, heq⟩ := hfile
  refine ⟨{ g with initialized := true }, ?_⟩
  unfold initDatabases
  rw [hlen, hskip, Nat.zero_add, initLoop, hlast]
  dsimp only
  rw [if_neg (by decide), if_neg (by omega), heq]
  dsimp only [Option.bind_some, Option.bind_eq_bind]
  rw [if_pos rfl, initLoop]
  rfl

/-! ## One statement -/

/-- An ATTACH keeps the invariant. One that attaches nothing keeps the names and the storage managers,
and the entries are as they were if and only if it did not come to the open: else a schema could not be
read, and all of them are forgotten. One that opens its file and can read its schema adds an entry. -/
def AttachOk (env : AttachEnv) (h : Handle) (name : Bytes) : Prop :=
  ∃ h' out, attach env h name = some (h', out) ∧ Inv h' ∧
    (out ≠ .attached → Related Opens h h' ∧ (h'.aDb = h.aDb ↔ ¬ Reaches env h name)) ∧
    (Reaches env h name → env.opened ≠ none → Readable env h → out = .attached) ∧
    (out = .attached → Related Opens (h.push name env.opened) h')

/-- The ATTACHes that meet no defect: one that comes to the open opens its file, the variable without
a value is zero, the number of the entry fits, and no row makes an index on another database's table. -/
def AttachProper (env : AttachEnv) (h : Handle) (name : Bytes) : Prop :=
  Reaches env h name → env.opened ≠ none ∧ env.rc = success ∧ h.aDb.length ≤ 255 ∧
    OwnRows env.toEnv (h.push name env.opened)

theorem attach_spec {env : AttachEnv} {h : Handle} {name : Bytes} (hI : Inv h)
    (hinit : h.initialized = true) (hp : AttachProper env h name) : AttachOk env h name := by
  by_cases hr : Reaches env h name
  · obtain ⟨hopen, hrc, hsmall, hown⟩ := hp hr
    have hfin := attach_reaches hr
    rw [if_neg hopen] at hfin
    have hbp := hI.base.push hopen hr.free
    have hplen : (h.push name env.opened).aDb.length = h.aDb.length + 1 := List.length_append
    obtain ⟨rc, g, heq, hbg, ho, hrcg, hload⟩ := initDatabases_spec hbp hown
    have hglen := ho.length.trans hplen
    unfold finishAttach at hfin
    rw [if_pos hrc, heq, Option.bind_some] at hfin
    dsimp only at hfin
    by_cases hs : rc = success
    · rw [if_pos hs] at hfin
      exact ⟨g, .attached, hfin, ⟨hbg, by omega, hload⟩, fun h => absurd rfl h, fun _ _ _ => rfl, fun _ => ho⟩
    · rw [if_neg hs] at hfin
      obtain ⟨h', hreset, hb', hinit', hsame, hclear⟩ := detachLast_spec hI.base hbg ho
      rw [hreset] at hfin
      have hsmall' := hsame.length
      -- the schemas were loaded, and are not any more
      have hchanged : h'.aDb ≠ h.aDb := by
        intro hsame'
        have h2 := hI.base.two
        obtain ⟨d, hd⟩ : ∃ d, h.aDb[0]? = some d := ⟨_, List.getElem?_eq_getElem (by omega)⟩
        have hyes := hI.loaded hinit 0 d hd
        rw [hclear 0 d (hsame' ▸ hd)] at hyes
        cases hyes
      refine ⟨h', .failed, hfin, ⟨hb', by omega, fun h => absurd h (by rw [hinit']; decide)⟩,
        fun _ => ⟨hsame, fun h => absurd h hchanged, fun h => absurd hr h⟩, fun _ _ hread => ?_, nofun⟩
      obtain ⟨g', hg'⟩ := initNew_spec env.toEnv hI.base hsmall
        (hI.loaded hinit) hopen hr.free hread.1 hread.2
      rw [heq] at hg'
      cases hg'
      exact absurd rfl hs
  · obtain ⟨out, heq, hout⟩ := attach_not_reaches hr
    exact ⟨h, out, heq, hI, fun _ => ⟨.refl Opens.refl h, fun _ => hr, fun _ => rfl⟩, fun h => absurd h hr,
      fun h => absurd h hout⟩

/-! ## DETACH -/

/-- The tables of the last database have no indices, or the last is the one to go. -/
def DetachProper (h : Handle) (db : Bytes) : Prop := ∀ d : Db, h.aDb[h.aDb.length - 1]? = some d →
  detachIdx h db < h.aDb.length - 1 → ∀ t ∈ d.tblHash, t.pIndex = []

/-- A handle whose entries are some of those of another, in other places. -/
theorem Base.renumber {h h' : Handle} (hb : Base h) (f : Nat → Nat) (h2 : 2 ≤ h'.aDb.length)
    (hf : ∀ i j, i < h'.aDb.length → j < h'.aDb.length → f i = f j → i = j) (hf0 : f 0 = 0)
      (hf1 : f 1 = 1)
    (hentry : ∀ (i : Nat) (d' : Db), h'.aDb[i]? = some d' → d'.Carries i ∧ ∃ d, h.aDb[f i]? = some d ∧
      d'.zName = d.zName ∧ d'.pBt = d.pBt ∧ (i < 2 → d'.schemaLoaded = d.schemaLoaded)) : Base h' := by
  have hlt : ∀ {i : Nat} {d : Db}, h'.aDb[i]? = some d → i < h'.aDb.length :=
    fun hd => (List.getElem?_eq_some_iff.1 hd).1
  refine ⟨h2, fun i j d d' hd hd' heq => ?_, fun i d' hd' h1 => ?_, fun i d' hd' => (hentry i d' hd').1,
    fun d0 d1 h0 h1 => ?_⟩
  · obtain ⟨-, e, he, hz, -⟩ := hentry i d hd
    obtain ⟨-, e', he', hz', -⟩ := hentry j d' hd'
    rw [hz, hz'] at heq
    exact hf i j (hlt hd) (hlt hd') (hb.distinct _ _ e e' he he' heq)
  · obtain ⟨-, e, he, -, hp, -⟩ := hentry i d' hd'
    rw [hp]
    exact hb.opened (f i) e he fun h => h1 (hf i 1 (hlt hd') h2 (h.trans hf1.symm))
  · obtain ⟨-, e0, he0, -, -, hs0⟩ := hentry 0 d0 h0
    obtain ⟨-, e1, he1, -, -, hs1⟩ := hentry 1 d1 h1
    rw [hf0] at he0
    rw [hf1] at he1
    rw [hs0 (by decide), hs1 (by decide)]
    exact hb.temp e0 e1 he0 he1

theorem detach_spec {h : Handle} (hI : Inv h) (explain auth : Bool) (db : Bytes)
    (hp : DetachProper h db) :
    ∃ h', detach explain auth h db = some h' ∧ Inv h' := by
  unfold detach
  dsimp only
  unfold DetachProper at hp
  generalize detachIdx h db = i at hp ⊢
  split
  · exact ⟨h, rfl, hI⟩
  split
  · exact ⟨h, rfl, hI⟩
  split
  · exact ⟨h, rfl, hI⟩
  split
  · exact ⟨h, rfl, hI⟩
  rename_i hlt h2 _
  rw [Nat.not_le] at hlt
  rw [Nat.not_lt] at h2
  -- the schema of the entry is forgotten
  have hlen1 : (h.setDb i fun d => { d with pBt := none }).aDb.length = h.aDb.length := setDb_length ..
  have hC1 : Carries (h.setDb i fun d => { d with pBt := none }) :=
    hI.base.carries.setDb fun d _ hd => ⟨hd.tables, hd.lists, hd.indices⟩
  obtain ⟨d1, hd1⟩ : ∃ d, (h.setDb i fun d => { d with pBt := none }).aDb[i]? = some d :=
    ⟨_, List.getElem?_eq_getElem (by rw [hlen1]; exact hlt)⟩
  obtain ⟨g, heq, hdrop⟩ := resetOne_spec hC1 (by omega) hd1
  have hglen : g.aDb.length = h.aDb.length := hdrop.related.length.trans hlen1
  have hginit : g.initialized = false := hdrop.initialized
  -- and the others are as before
  have hother : ∀ (j : Nat) (d' : Db), g.aDb[j]? = some d' → j ≠ i → ∃ d, h.aDb[j]? = some d ∧
      Forgets j d d' := by
    intro j d' hd' hj
    obtain ⟨d, hd, hr⟩ := hdrop.related.entry j d' hd'
    change (h.setDb i _).aDb[j]? = some d at hd
    rw [setDb_getElem?, if_neg (Ne.symm hj)] at hd
    rw [Cleared, if_neg hj] at hr
    exact ⟨d, hd, hr⟩
  rw [heq]
  dsimp only [Option.bind_some, Option.bind_eq_bind]
  rw [hglen]
  have hsmall := hI.small
  have htwo := hI.base.two
  split
  · rename_i hlast
    obtain ⟨d, hd⟩ : ∃ d, g.aDb[h.aDb.length - 1]? = some d := ⟨_, List.getElem?_eq_getElem (by omega)⟩
    rw [hd, Option.bind_some]
    obtain ⟨d0, hd0, hf0⟩ := hother _ d hd (by omega)
    -- the last entry in the place of the one that goes
    generalize hm : (⟨(g.aDb.take (h.aDb.length - 1)).set i d, g.initialized, g.formatVersion⟩ :
      Handle) = m
    have hmlen : m.aDb.length = h.aDb.length - 1 := by
      rw [← hm, List.length_set, List.length_take]
      omega
    have hmi : m.aDb[i]? = some d := by
      rw [← hm, List.getElem?_set, if_pos rfl, if_pos (by rw [List.length_take]; omega)]
    have hmj : ∀ (j : Nat) (d' : Db), j ≠ i → m.aDb[j]? = some d' → g.aDb[j]? = some d' := by
      intro j d' hj hd'
      rw [← hm, List.getElem?_set, if_neg (Ne.symm hj), List.getElem?_take] at hd'
      split at hd'
      · exact hd'
      · cases hd'
    have hrange : InRange m d.tblHash := by
      obtain ⟨l, -, rfl⟩ := hf0
      intro t ht x hx
      rw [hp d0 hd0 hlast t ht] at hx
      cases hx
    obtain ⟨h', heq', hdrop'⟩ := resetDb_spec (h := { m with initialized := false }) hmi hrange
    have hlen' : h'.aDb.length = h.aDb.length - 1 := hdrop'.related.length.trans hmlen
    have hentry : ∀ (j : Nat) (d' : Db), h'.aDb[j]? = some d' → d'.Carries j ∧
        ∃ e, h.aDb[if j = i then h.aDb.length - 1 else j]? = some e ∧ d'.zName = e.zName ∧ d'.pBt =
          e.pBt ∧
          (j < 2 → d'.schemaLoaded = e.schemaLoaded) := by
      intro j d' hd'
      obtain ⟨e1, he1, hr1⟩ := hdrop'.related.entry j d' hd'
      unfold Cleared at hr1
      by_cases hj : j = i
      · subst hj
        rw [if_pos rfl] at hr1
        rw [if_pos rfl]
        change m.aDb[j]? = some e1 at he1
        rw [hmi] at he1
        cases he1
        obtain ⟨l, -, rfl⟩ := hf0
        subst hr1
        exact ⟨clear_carries _ _, d0, hd0, rfl, rfl, fun h => by omega⟩
      · rw [if_neg hj] at hr1
        rw [if_neg hj]
        obtain ⟨e, he, hfe⟩ := hother j e1 (hmj j e1 hj he1) hj
        have hfd := hfe.trans _ _ _ _ hr1
        refine ⟨hfd.carries (hI.base.carries j e he), e, he, ?_⟩
        obtain ⟨l, -, rfl⟩ := hfd
        exact ⟨rfl, rfl, fun _ => rfl⟩
    refine ⟨h', ?_, hI.base.renumber (fun j => if j = i then h.aDb.length - 1 else j)
      (by omega) ?_ ?_ ?_ hentry,
      by omega, fun hi => absurd hi ?_⟩
    · unfold resetInternalSchema
      dsimp only
      rw [if_pos (by omega)]
      exact heq'
    · intro j k hj hk hjk
      split at hjk <;> split at hjk <;> omega
    · exact if_neg (by omega)
    · exact if_neg (by omega)
    · rw [hdrop'.initialized]
      exact Bool.false_ne_true
  · rename_i hlast
    have hlen' : (g.aDb.take (h.aDb.length - 1)).length = h.aDb.length - 1 := by
      rw [List.length_take]
      omega
    refine ⟨_, rfl, hI.base.renumber id ?_ (fun _ _ _ _ h => h) rfl rfl fun j d' hd' =>
      ?_, ?_, fun hi => ?_⟩
    · change 2 ≤ (g.aDb.take (h.aDb.length - 1)).length
      omega
    · change (g.aDb.take (h.aDb.length - 1))[j]? = some d' at hd'
      have hj := (List.getElem?_eq_some_iff.1 hd').1
      rw [List.getElem?_take, if_pos (by omega)] at hd'
      obtain ⟨e, he, hfe⟩ := hother j d' hd' (by omega)
      refine ⟨hfe.carries (hI.base.carries j e he), e, he, ?_⟩
      obtain ⟨l, -, rfl⟩ := hfe
      exact ⟨rfl, rfl, fun _ => rfl⟩
    · change (g.aDb.take (h.aDb.length - 1)).length ≤ 256
      omega
    · change g.initialized = true at hi
      rw [hginit] at hi
      cases hi

/-! ## Runs -/

/-- A step: a statement begins, an ATTACH or DETACH, or the schemas are forgotten (as after a
rollback). -/
inductive Label
  | start (env : Env)
  | attach (env : AttachEnv) (name : Bytes)
  | detach (explain auth : Bool) (db : Bytes)
  | reset

/-- What a step makes of a handle; none after a call through a null pointer. -/
def Label.run (h : Handle) : Label → Option Handle
  | .start env => (parseBegin env h).map (·.1)
  | .attach env name => (Schema.attach env h name).map (·.1)
  | .detach explain auth db => Schema.detach explain auth h db
  | .reset => resetInternalSchema h 0

/-- ATTACH and DETACH come after a statement began and the schemas could be read. -/
def Label.enabled (h : Handle) : Label → Prop
  | .attach _ _ => h.initialized = true
  | .detach _ _ _ => h.initialized = true
  | _ => True

/-- A handle as `__api_open` makes it (api.c:392-440). -/
def opened (sm : Sm) : Handle :=
  ⟨[⟨ascii "main", some sm, [], [], false⟩, ⟨ascii "temp", none, [], [], false⟩], false, 0⟩

def attachLts : Core.LTS (Option Handle) Label where
  init s := ∃ sm, s = some (opened sm)
  step s l s' := ∃ h, s = some h ∧ l.enabled h ∧ s' = l.run h

/-- The steps that meet no defect. -/
def Proper (s : Option Handle) (l : Label) : Prop := ∀ h, s = some h →
  match l with
  | .start env => h.initialized = false → OwnRows env h
  | .attach env name => AttachProper env h name
  | .detach _ _ db => DetachProper h db
  | .reset => True

theorem opened_inv (sm : Sm) : Inv (opened sm) := by
  have hcases : ∀ {i : Nat} {d : Db}, (opened sm).aDb[i]? = some d →
      i = 0 ∧ d = ⟨ascii "main", some sm, [], [], false⟩ ∨ i = 1 ∧ d = ⟨ascii "temp", none, [], [], false⟩ := by
    intro i d hd
    match i, hd with
    | 0, hd => exact .inl ⟨rfl, (Option.some.inj hd).symm⟩
    | 1, hd => exact .inr ⟨rfl, (Option.some.inj hd).symm⟩
  have hlen : (opened sm).aDb.length = 2 := rfl
  have hne : ¬ same (ascii "main") (ascii "temp") = true := by decide
  refine ⟨⟨by omega, fun i j d d' hd hd' heq => ?_, fun i d hd h1 => ?_, fun i d hd => ?_, fun d0 d1 h0 h1 => ?_⟩,
    by omega, nofun⟩
  · rcases hcases hd with ⟨rfl, rfl⟩ | ⟨rfl, rfl⟩ <;> rcases hcases hd' with ⟨rfl, rfl⟩ | ⟨rfl, rfl⟩
    · rfl
    · exact absurd heq hne
    · exact absurd (same_iff.2 (same_iff.1 heq).symm) hne
    · rfl
  · rcases hcases hd with ⟨-, rfl⟩ | ⟨rfl, -⟩
    · exact nofun
    · exact absurd rfl h1
  · rcases hcases hd with ⟨-, rfl⟩ | ⟨-, rfl⟩ <;> exact ⟨nofun, nofun, nofun⟩
  · cases h0
    cases h1
    rfl

theorem step_inv {h : Handle} {l : Label} (hI : Inv h) (hen : l.enabled h) (hp : Proper (some h) l) :
    ∃ h', l.run h = some h' ∧ Inv h' := by
  have hp := hp h rfl
  cases l with
  | start env =>
    unfold Label.run parseBegin
    dsimp only
    split
    · exact ⟨h, rfl, hI⟩
    · rename_i hnot
      obtain ⟨rc, h', heq, hb, ho, -, hload⟩ :=
        initDatabases_spec hI.base (hp (Bool.eq_false_iff.2 hnot))
      rw [heq]
      exact ⟨h', rfl, hb, ho.length ▸ hI.small, hload⟩
  | attach env name =>
    obtain ⟨h', out, heq, hI', -⟩ := attach_spec hI hen hp
    unfold Label.run
    dsimp only
    rw [heq]
    exact ⟨h', rfl, hI'⟩
  | detach explain auth db => exact detach_spec hI explain auth db hp
  | reset =>
    obtain ⟨h', heq, hb, hinit, hrel⟩ := hI.base.resetAll
    exact ⟨h', heq, hb, hrel.length ▸ hI.small, fun h => absurd h (by rw [hinit]; decide)⟩

/-- **Attached databases.** In every run that meets no defect the entries have distinct names, all
but the temporary one are open, tables and indices carry the numbers of their entries, and so it is
after every further ATTACH that meets none: it adds its database or keeps the entries, but for their
schemas if one could not be read. -/
theorem attach_run {s₀ s : Option Handle} {ls : List Label} (hinit : attachLts.init s₀)
    (hrun : (attachLts.restrict Proper).Run s₀ ls s) : ∃ h, s = some h ∧ Base h ∧
      ∀ env name, h.initialized = true → AttachProper env h name → AttachOk env h name := by
  have hinv : ∃ h, s = some h ∧ Inv h := by
    refine hrun.preserves (Q := fun s => ∃ h, s = some h ∧ Inv h) ?_ ?_
    · rintro _ l s' ⟨h, rfl, hI⟩ ⟨hp, h', hh, hen, rfl⟩
      cases hh
      exact step_inv hI hen hp
    · obtain ⟨sm, rfl⟩ := hinit
      exact ⟨_, rfl, opened_inv sm⟩
  obtain ⟨h, rfl, hI⟩ := hinv
  exact ⟨h, rfl, hI.base, fun env name hi hp => attach_spec hI hi hp⟩

/-- A main database without a schema, and a file with a table and an index on it. -/
def tableEnv : Env where
  openTemp := some 1
  select i :=
    (if i = 2 then [(2, .table (ascii "t") false false [] true), (2, .index (ascii "x") none (ascii "t") true)]
      else [], success)
  noMem _ := false
  formatVersion := 1

/-- An ATTACH of the file `opened`, with the value `rc` in the variable. -/
def attachEnv (opened : Option Sm) (rc : Int) : AttachEnv := ⟨tableEnv, false, true, true, true, true, opened, rc⟩

theorem tableEnv_ownRows (h : Handle) : OwnRows tableEnv h := by
  refine ownRows_of_other (fun i r hr => ?_) h
  have h2 : r.1 = 2 := by
    unfold tableEnv at hr
    dsimp only at hr
    split at hr
    · simp only [List.mem_cons, List.not_mem_nil, or_false] at hr
      rcases hr with rfl | rfl <;> rfl
    · cases hr
  rw [h2]
  decide

/-- A database with a table and an index is attached. -/
theorem attach_run_one : ∃ h, ((Label.start tableEnv).run (opened 0)).bind
      ((Label.attach (attachEnv (some 2) 0) (ascii "a")).run ·) = some h ∧
      h.aDb[2]?.map (·.tblHash.flatMap (·.pIndex)) = some [⟨ascii "x", 2⟩] ∧ Base h ∧
      ∀ env name, h.initialized = true → AttachProper env h name → AttachOk env h name := by
  obtain ⟨h1, hrun1⟩ : ∃ h1, (Label.start tableEnv).run (opened 0) = some h1 :=
    Option.isSome_iff_exists.1 (by decide +kernel)
  have hinit : h1.initialized = true := by
    have h : ((Label.start tableEnv).run (opened 0)).all (·.initialized) = true := by decide +kernel
    rw [hrun1] at h
    exact h
  have hlen : h1.aDb.length = 2 := by
    have h : ((Label.start tableEnv).run (opened 0)).all (·.aDb.length = 2) = true := by decide +kernel
    rw [hrun1] at h
    exact of_decide_eq_true h
  have hindex : (((Label.start tableEnv).run (opened 0)).bind
      ((Label.attach (attachEnv (some 2) 0) (ascii "a")).run ·)).all
      (·.aDb[2]?.map (·.tblHash.flatMap (·.pIndex)) = some [⟨ascii "x", 2⟩]) = true := by decide +kernel
  rw [hrun1, Option.bind_some] at hindex ⊢
  have hinit₀ : attachLts.init (some (opened 0)) := ⟨0, rfl⟩
  have hstart : Label.enabled (opened 0) (.start tableEnv) := trivial
  have hattach : Label.enabled h1 (.attach (attachEnv (some 2) 0) (ascii "a")) := hinit
  have hproper₀ : Proper (some (opened 0)) (.start tableEnv) := fun h _ _ => tableEnv_ownRows h
  have hproper₁ : Proper (some h1) (.attach (attachEnv (some 2) 0) (ascii "a")) := by
    intro h hh
    cases hh
    exact fun _ => ⟨(by decide), rfl, by omega, tableEnv_ownRows _⟩
  obtain ⟨h, heq, hb, hok⟩ := attach_run hinit₀
    (.cons ⟨hproper₀, _, rfl, hstart, hrun1.symm⟩ (.cons ⟨hproper₁, h1, rfl, hattach, rfl⟩ (.nil _)))
  rw [heq] at hindex ⊢
  exact ⟨h, rfl, of_decide_eq_true hindex, hb, hok⟩

/-- A file that does not open leaves an entry without a storage manager. -/
theorem attach_open_fails : ¬ ∀ (s₀ s : Option Handle) (ls : List Label), attachLts.init s₀ →
    attachLts.Run s₀ ls s →
    ∃ h, s = some h ∧ Base h ∧ ∀ env name, h.initialized = true → AttachOk env h name := by
  intro hall
  obtain ⟨h1, hrun1⟩ : ∃ h1, (Label.start tableEnv).run (opened 0) = some h1 :=
    Option.isSome_iff_exists.1 (by decide +kernel)
  have hinit : h1.initialized = true := by
    have h : ((Label.start tableEnv).run (opened 0)).all (·.initialized) = true := by decide +kernel
    rw [hrun1] at h
    exact h
  obtain ⟨h2, hh2, hb, -⟩ := hall (some (opened 0)) ((Label.attach (attachEnv none 0) (ascii "a")).run h1)
    [.start tableEnv, .attach (attachEnv none 0) (ascii "a")] ⟨0, rfl⟩
    (.cons ⟨_, rfl, trivial, hrun1.symm⟩ (.cons ⟨h1, rfl, hinit, rfl⟩ (.nil _)))
  have hthird : (h2.aDb[2]?.map (·.pBt)) = some none := by
    have h : (((Label.start tableEnv).run (opened 0)).bind
        ((Label.attach (attachEnv none 0) (ascii "a")).run ·)).map (fun h => h.aDb[2]?.map (·.pBt)) =
        some (some none) := by decide +kernel
    rw [hrun1, Option.bind_some, hh2] at h
    exact Option.some.inj h
  obtain ⟨d, hd, hp⟩ := Option.map_eq_some_iff.1 hthird
  exact hb.opened 2 d hd (by decide) hp

/-- With another value in the variable a database that opens is not attached. -/
example : ((Label.start tableEnv).run (opened 0)).bind (fun h => (attach (attachEnv (some 2) 7) h (ascii "a")).map
    fun r => (r.1.aDb.length, r.2)) = some (2, .failed) := by decide +kernel

/-- A schema that cannot be read: the schema table of the main database is forgotten with it. -/
example : ((Label.start tableEnv).run (opened 0)).bind (fun h =>
    (attach { attachEnv (some 2) 0 with select := fun _ => ([], error) } h (ascii "a")).map
      fun r => (h.aDb[0]?.map (·.tblHash.length), r.1.aDb[0]?.map (·.tblHash.length), r.2)) =
    some (some 1, some 0, .failed) := by decide +kernel

/-- When "b" takes the place of "a", an index of "b" is looked for at its old number. -/
example : detach false true ⟨[⟨ascii "main", some 0, [], [], true⟩, ⟨ascii "temp", some 1, [], [], true⟩,
    ⟨ascii "a", some 2, [], [], true⟩,
    ⟨ascii "b", some 3, [⟨ascii "t", 3, false, false, [⟨ascii "i", 3⟩]⟩], [⟨ascii "i", 3⟩], true⟩], true, 1⟩ (ascii "a") =
    none := by rfl

end Dbsql.L5.Schema
