import Dbsql.L2Storage.Hash
import Dbsql.L3Vdbe.Compare
import Dbsql.L3Vdbe.RowMachine
import Dbsql.L3Vdbe.Table
/-!
# The code of DROP TABLE and DROP INDEX (cg_build.c)

Both scan the schema table of a database for a name. DROP TABLE deletes every row whose `tbl_name`
`OP_Ne` does not find different, in the schema table of the table's database and then in that of
the temporary one, for the triggers there. DROP INDEX deletes the first row whose `name` `OP_Eq`
finds equal.

These opcodes compare two texts that look like numbers as numbers: a table `1.0` has the name of a
table `1`. Other texts they compare byte by byte, while names are the same without regard to case:
the `tbl_name` of a trigger is spelled as its CREATE TRIGGER spells it. And DROP INDEX does not ask
for the type of the row: a trigger can have the name of an index.

Results:
* `dropTable_ends`, `dropIndex_ends`: what the loops delete.
* `isEq_sameName_iff`: for which names the opcodes say what `strcasecmp` says.
* `drop_iff`: they delete the rows of the table, or that of the index, just when the comparison
  tells these rows from the others.
-/
namespace Dbsql.L5.Drop
open Dbsql.Core Dbsql.L1 Dbsql.L2 Dbsql.L3

/-! ## The code -/

/-- The opcodes; `integer` and `openWrite` are those of `__open_master_table`, and a cell is cell 1. -/
inductive Op
  | integer (p1 : Nat)
  | openWrite
  | rewind (p2 : Nat)
  | string (p3 : Bytes)
  | memStore
  | memLoad
  | column (p2 : Nat)
  | ne (p2 : Nat)
  | eq (p2 : Nat)
  | delete
  | next (p2 : Nat)
  | goto (p2 : Nat)
  deriving DecidableEq, Repr

/-- `__open_master_table` (cg_build.c:558-561). -/
def openMasterTable (iDb : UInt8) : List Op := [.integer iDb.toNat, .openWrite]

/-- `drop_table` at address `base`. -/
def dropTableOps (base : Nat) (zName : Bytes) : List Op :=
  [.rewind (base + 8), .string zName, .memStore, .memLoad, .column 2, .ne (base + 7), .delete, .next (base + 3)]

/-- `drop_index` at address `base`. -/
def dropIndexOps (base : Nat) (zName : Bytes) : List Op :=
  [.rewind (base + 9), .string zName, .memStore, .memLoad, .column 1, .eq (base + 8), .next (base + 3),
    .goto (base + 9), .delete]

/-- The code of `__drop_table` (cg_build.c:1683-1700) for the schema tables. -/
def dropTableCode (base : Nat) (iDb : UInt8) (zName : Bytes) : List Op :=
  openMasterTable iDb ++ (dropTableOps (base + 2) zName ++
    if iDb ≠ 1 then openMasterTable 1 ++ dropTableOps (base + 12) zName else [])

/-- The code of `__drop_index` (cg_build.c:2350-2354) for the schema table. -/
def dropIndexCode (base : Nat) (iDb : UInt8) (zName : Bytes) : List Op :=
  openMasterTable iDb ++ dropIndexOps (base + 2) zName

/-! ## The machine -/

/-- The stack, cell 1, the schema table of each database, and the database that cursor 0 is on. -/
structure Vm where
  stack : List Val
  aMem : Val
  masters : Nat → Btree
  iDb : Nat
  c : Cursor

/-- The table under the cursor. -/
def Vm.t (s : Vm) : Btree := s.masters s.iDb

section
variable {L : Type} (ar : Arith L) (hdr : Bytes)

/-- An opcode that works on the stack alone. -/
def onStack (o : Stack.Op) (pc : Nat) (s : Vm) : Option (Nat × Vm) :=
  (Stack.exec ar Stack.emptyEnv o (pc, s.stack)).map fun t => (t.1, { s with stack := t.2 })

/-- One opcode; `hdr` is what `OP_Column` reads behind a short record. -/
def exec : Op → Nat × Vm → Option (Nat × Vm)
  | .integer p1, (pc, s) => some (pc + 1, { s with stack := .int (BitVec.ofNat 32 p1) none :: s.stack })
  | .openWrite, (pc, s) =>
    match s.stack with
    | [] => none
    | tos :: st => some (pc + 1, { s with stack := st, iDb := (tos.toInt ar).toNat, c := .opened })
  | .rewind p2, (pc, s) =>
    let c := opRewind s.t s.c
    some (if c.nullRow then p2 else pc + 1, { s with c := c })
  | .string p3, (pc, s) => onStack ar (.string (some p3)) pc s
  | .memStore, (pc, s) =>
    match s.stack with
    | [] => none
    | tos :: st => some (pc + 1, { s with stack := st, aMem := tos })
  | .memLoad, (pc, s) => some (pc + 1, { s with stack := s.aMem :: s.stack })
  | .column p2, (pc, s) =>
    let c := vdbeCursorMoveto s.t s.c
    (Row.pushedVal (opColumn (payload s.t c) p2 hdr)).map fun v => (pc + 1, { s with c := c, stack := v :: s.stack })
  | .ne p2, (pc, s) => onStack ar (.cmp false .ne false p2) pc s
  | .eq p2, (pc, s) => onStack ar (.cmp false .eq false p2) pc s
  | .delete, (pc, s) =>
    let r := opDelete ⟨s.t, s.c, 0, .success, .nothing⟩
    if r.rc = .success then some (pc + 1, { s with masters := Function.update s.masters s.iDb r.t, c := r.c }) else none
  | .next p2, (pc, s) =>
    let r := opNext s.t s.c false
    some (if r.2 then p2 else pc + 1, { s with c := r.1 })
  | .goto p2, (pc, s) => onStack ar (.goto p2) pc s

/-- What `OP_Column` pushes for a column of a row. -/
def columnVal (tab : Table) (k : Dbt) (c : Nat) : Val := (Row.pushedVal (tab.column k c)).getD .null

/-- `OP_Ne` does not jump. -/
def notNe (zName : Bytes) (v : Val) : Bool := !Stack.cmpJumps false (compare3 ar false .ne (.str (Stack.nulTerm zName)) v)

/-- `OP_Eq` jumps. -/
def isEq (zName : Bytes) (v : Val) : Bool := Stack.cmpJumps false (compare3 ar false .eq (.str (Stack.nulTerm zName)) v)

end

/-! ## A scan of the schema table -/

section
variable {L : Type} {ar : Arith L} {hdr : Bytes} {prog : Nat → Option Op} {base : Nat}

/-- The cursor is on an entry of the schema table `t` of database `d`, with the name in cell 1. -/
structure On (zName : Bytes) (s : Vm) (d : Nat) (t : Btree) (k : Dbt) : Prop where
  stack : s.stack = []
  aMem : s.aMem = .str (Stack.nulTerm zName)
  iDb : s.iDb = d
  t : s.masters d = t
  pos : s.c.pos = some k
  nullRow : s.c.nullRow = false
  deferred : s.c.deferredMoveto = false

/-- Opcodes on the stack alone keep the cursor on its entry. -/
theorem exec_onStack {o : Stack.Op} {pc pc' : Nat} {s : Vm} {st st' : List Val}
    (h : Stack.exec ar Stack.emptyEnv o (pc, st) = some (pc', st')) :
    onStack ar o pc { s with stack := st } = some (pc', { s with stack := st' }) := by
  unfold onStack
  dsimp only
  rw [h]
  rfl

/-- `OP_Column` on a row that the table has from the start. -/
theorem exec_column {zName : Bytes} {s : Vm} {d : Nat} {t : Btree} {tab : Table} {e : Dbt × Bytes} {c pc : Nat}
    (h : On zName s d t e.1) (he : e ∈ t.entries) (htab : e ∈ tab.t.entries) (hc : c < tab.nCol) (st : List Val) :
    exec ar hdr (.column c) (pc, { s with stack := st }) =
      some (pc + 1, { s with stack := columnVal tab e.1 c :: st }) := by
  have hmove : vdbeCursorMoveto t s.c = s.c := Row.vdbeCursorMoveto_of_not_deferred h.deferred
  have ht : ({ s with stack := st } : Vm).t = t := by
    unfold Vm.t
    rw [h.iDb, h.t]
  have hpay : payload t s.c = e.2 := by
    unfold payload
    simp [h.nullRow, h.pos, find?_entry he]
  have hcol := opColumn_row htab hc hdr
  rw [exec, ht]
  dsimp only
  rw [hmove, hpay, hcol]
  rcases tab.column_cases e.1 c with hnull | ⟨z, hz⟩
  · rw [columnVal, hnull]
    rfl
  · rw [columnVal, hz]
    rfl

/-- `OP_MemLoad` and `OP_Column`. -/
theorem load_ends {zName : Bytes} {s : Vm} {d : Nat} {t : Btree} {tab : Table} {e : Dbt × Bytes} {c a : Nat}
    {Q : Nat × Vm → Prop} (hload : prog a = some .memLoad) (hcolumn : prog (a + 1) = some (.column c))
    (h : On zName s d t e.1) (he : e ∈ t.entries) (htab : e ∈ tab.t.entries) (hc : c < tab.nCol)
    (hQ : Ends (exec ar hdr) prog Q
      (a + 2, { s with stack := [columnVal tab e.1 c, .str (Stack.nulTerm zName)] })) :
    Ends (exec ar hdr) prog Q (a, s) := by
  have hmem : exec ar hdr .memLoad (a, s) = some (a + 1, { s with stack := [.str (Stack.nulTerm zName)] }) := by
    rw [exec, h.stack, h.aMem]
  exact .op hload hmem (.op hcolumn (exec_column h he htab hc _) hQ)

variable (ar hdr) in
/-- `OP_Delete` under the cursor. -/
theorem exec_delete (pc : Nat) {zName : Bytes} {s : Vm} {d : Nat} {t : Btree} {k : Dbt} (h : On zName s d t k)
    (hk : k ∈ t) : ∃ s', exec ar hdr .delete (pc, s) = some (pc + 1, s') ∧ On zName s' d (t.erase k) k ∧
      s'.masters = Function.update s.masters d (t.erase k) := by
  have ht : s.t = t := by
    unfold Vm.t
    rw [h.iDb, h.t]
  have hmove : vdbeCursorMoveto t s.c = s.c := Row.vdbeCursorMoveto_of_not_deferred h.deferred
  have hdel : opDelete ⟨t, s.c, 0, .success, .nothing⟩ =
      ⟨t.erase k, { s.c with nextRowidValid := false }, 0, .success, .nothing⟩ := by
    unfold opDelete
    dsimp only
    rw [hmove, h.pos, smDelete, if_pos hk]
  refine ⟨{ s with masters := Function.update s.masters d (t.erase k), c := { s.c with nextRowidValid := false } }, ?_,
    ⟨h.stack, h.aMem, h.iDb, Function.update_self .., h.pos, h.nullRow, h.deferred⟩, rfl⟩
  rw [exec, ht, hdel]
  dsimp only
  rw [if_pos rfl, h.iDb]

variable (ar hdr) in
/-- `OP_Next` when the cursor's entry stands, or stood, before `rest`. -/
theorem exec_next (pc p2 : Nat) {zName : Bytes} {s : Vm} {d : Nat} {t : Btree} {k : Dbt} {done rest : List (Dbt × Bytes)}
    (h : On zName s d t k) (hent : t.entries = done ++ rest) (hdone : ∀ x ∈ done, x.1 ≤ k) (hrest : ∀ x ∈ rest, k < x.1) :
    ∃ s', exec ar hdr (.next p2) (pc, s) = some (if rest = [] then pc + 1 else p2, s') ∧ s'.masters = s.masters ∧
      s'.stack = [] ∧ s'.iDb = d ∧ ∀ e, rest.head? = some e → On zName s' d t e.1 := by
  have ht : s.t = t := by
    unfold Vm.t
    rw [h.iDb, h.t]
  have hnext : smNext t (some k) 0 = _ := smNext_on k
  rw [SortedMap.succ_split hent hdone hrest] at hnext
  have hop : opNext t s.c false = ({ s.c with
      pos := (smNext t (some k) 0).pos
      nullRow := decide ((smNext t (some k) 0).result ≠ 0)
      recnoIsValid := false }, decide ((smNext t (some k) 0).result = 0)) := by
    unfold opNext
    rw [if_neg (by simp [h.nullRow]), h.pos]
    rfl
  refine ⟨{ s with c := (opNext t s.c false).1 }, ?_, rfl, h.stack, h.iDb, fun e he => ?_⟩
  · rw [exec, ht, hop, hnext]
    cases rest with
    | nil => rfl
    | cons e rest => rfl
  · rw [he] at hnext
    refine ⟨h.stack, h.aMem, h.iDb, h.t, ?_, ?_, ?_⟩
    · rw [hop, hnext]
    · rw [hop, hnext]
      rfl
    · rw [hop]
      exact h.deferred

/-- Where the entries of a table split, the keys before, at and behind a place. -/
theorem entries_lt {t : Btree} {done rest : List (Dbt × Bytes)} {e : Dbt × Bytes} (h : t.entries = done ++ e :: rest) :
    (∀ x ∈ done, x.1 ≤ e.1) ∧ ∀ x ∈ rest, e.1 < x.1 := by
  have hs := t.sorted
  rw [h] at hs
  obtain ⟨-, hs2, hs3⟩ := List.pairwise_append.1 hs
  exact ⟨fun x hx => (hs3 x hx e List.mem_cons_self).le, (List.pairwise_cons.1 hs2).1⟩

/-- `OP_Ne` and `OP_Eq` take both texts off the stack. -/
theorem exec_ne {zName : Bytes} {s : Vm} {v : Val} {pc p2 : Nat} (hp : p2 ≠ 0) :
    exec ar hdr (.ne p2) (pc, { s with stack := [v, .str (Stack.nulTerm zName)] }) =
      some (if notNe ar zName v then pc + 1 else p2, { s with stack := [] }) := by
  rw [exec, exec_onStack (Stack.exec_cmp_jump hp), notNe]
  cases Stack.cmpJumps false (compare3 ar false .ne (.str (Stack.nulTerm zName)) v) <;> rfl

theorem exec_eq {zName : Bytes} {s : Vm} {v : Val} {pc p2 : Nat} (hp : p2 ≠ 0) :
    exec ar hdr (.eq p2) (pc, { s with stack := [v, .str (Stack.nulTerm zName)] }) =
      some (if isEq ar zName v then p2 else pc + 1, { s with stack := [] }) :=
  exec_onStack (Stack.exec_cmp_jump hp)

/-- One turn of the scan of DROP TABLE, up to `OP_Next`. -/
theorem dropBody_ends {zName : Bytes} {tab : Table} {s : Vm} {d : Nat} {t : Btree} {done rest : List (Dbt × Bytes)}
    {e : Dbt × Bytes} (hcode : CodeAt prog base (dropTableOps base zName)) (hcol : 2 < tab.nCol)
    (h : On zName s d t e.1) (hent : t.entries = done ++ e :: rest) (htab : e ∈ tab.t.entries) :
    Ends (exec ar hdr) prog (fun x => x.1 = base + 7 ∧ ∃ t' : Btree, On zName x.2 d t' e.1 ∧
        t'.entries = (done ++ [e].filter fun x => !notNe ar zName (columnVal tab x.1 2)) ++ rest ∧
        x.2.masters = Function.update s.masters d t') (base + 3, s) := by
  have he : e ∈ t.entries := hent ▸ List.mem_append_right _ List.mem_cons_self
  have hne : prog (base + 5) = some (.ne (base + 7)) := hcode 5 _ rfl
  have hdelete : prog (base + 6) = some .delete := hcode 6 _ rfl
  have hs : { s with stack := [] } = s := by
    rw [← h.stack]
  refine load_ends (hcode 3 _ rfl) (hcode 4 _ rfl) h he htab hcol (.op hne (exec_ne (by omega)) ?_)
  rw [hs]
  cases hv : notNe ar zName (columnVal tab e.1 2) with
  | false =>
    refine .here ⟨rfl, t, h, ?_, ?_⟩
    · simp [hent, hv]
    · rw [← h.t, Function.update_eq_self]
  | true =>
    obtain ⟨s', hexec, hon, hmasters⟩ := exec_delete ar hdr (base + 6) h (List.mem_map_of_mem he)
    refine .op hdelete hexec (.here ⟨rfl, t.erase e.1, hon, ?_, hmasters⟩)
    simp [SortedMap.erase_split hent, hv]

/-- One turn of the scan of DROP TABLE. -/
theorem dropTurn_ends {zName : Bytes} {tab : Table} {s : Vm} {d : Nat} {t : Btree} {done rest : List (Dbt × Bytes)}
    {e : Dbt × Bytes} (hcode : CodeAt prog base (dropTableOps base zName)) (hcol : 2 < tab.nCol)
    (h : On zName s d t e.1) (hent : t.entries = done ++ e :: rest) (htab : e ∈ tab.t.entries) :
    Ends (exec ar hdr) prog (fun x => x.1 = (if rest = [] then base + 8 else base + 3) ∧ x.2.stack = [] ∧
        ∃ t' : Btree, (∀ e', rest.head? = some e' → On zName x.2 d t' e'.1) ∧
          t'.entries = (done ++ [e].filter fun x => !notNe ar zName (columnVal tab x.1 2)) ++ rest ∧
          x.2.masters = Function.update s.masters d t') (base + 3, s) := by
  obtain ⟨hdone, hrest⟩ := entries_lt hent
  refine (dropBody_ends hcode hcol h hent htab).bind ?_
  rintro ⟨pc, x⟩ ⟨rfl, t', hon, hent', hmasters⟩
  have hle : ∀ y ∈ done ++ [e].filter (fun x => !notNe ar zName (columnVal tab x.1 2)), y.1 ≤ e.1 := by
    intro y hy
    rcases List.mem_append.1 hy with hy | hy
    · exact hdone y hy
    · rw [List.mem_singleton.1 (List.mem_filter.1 hy).1]
  obtain ⟨s', hexec, hm, hstack, -, hon'⟩ :=
    exec_next ar hdr (base + 7) (base + 3) hon hent' hle hrest
  exact .op (hcode 7 _ rfl) hexec (.here ⟨rfl, hstack, t', hon', hent', hm.trans hmasters⟩)

/-- The scan of DROP TABLE from an entry: it deletes, of this entry and those behind it, the ones
that `OP_Ne` does not find different. By induction on the entries behind. -/
theorem dropLoop_ends {zName : Bytes} {tab : Table} {d : Nat} (hcode : CodeAt prog base (dropTableOps base zName))
    (hcol : 2 < tab.nCol) (rest : List (Dbt × Bytes)) :
    ∀ (done : List (Dbt × Bytes)) {s : Vm} {t : Btree} {e : Dbt × Bytes}, On zName s d t e.1 →
      t.entries = done ++ e :: rest → (∀ x ∈ e :: rest, x ∈ tab.t.entries) →
      Ends (exec ar hdr) prog (fun x => x.1 = base + 8 ∧ x.2.stack = [] ∧
        ∃ t' : Btree, t'.entries = done ++ (e :: rest).filter (fun x => !notNe ar zName (columnVal tab x.1 2)) ∧
          x.2.masters = Function.update s.masters d t') (base + 3, s) := by
  induction rest with
  | nil =>
    intro done s t e h hent htab
    refine (dropTurn_ends hcode hcol h hent (htab e List.mem_cons_self)).mono ?_
    rintro ⟨pc, x⟩ ⟨hpc, hstack, t', -, hent', hmasters⟩
    exact ⟨hpc, hstack, t', by rw [hent', List.append_nil], hmasters⟩
  | cons e' rest ih =>
    intro done s t e h hent htab
    refine (dropTurn_ends hcode hcol h hent (htab e List.mem_cons_self)).bind ?_
    rintro ⟨pc, x⟩ ⟨rfl, hstack, t', hon, hent', hmasters⟩
    refine (ih _ (hon e' rfl) hent' fun y hy => htab y (List.mem_cons_of_mem _ hy)).mono ?_
    rintro ⟨pc, y⟩ ⟨rfl, hstack', t'', hent'', hmasters'⟩
    refine ⟨rfl, hstack', t'', ?_, ?_⟩
    · rw [hent'', List.append_assoc, ← List.filter_append, List.singleton_append]
    · rw [hmasters', hmasters, Function.update_idem]

/-- The loops start on the first row of the schema table, when it has one. -/
theorem rewind_ends {zName : Bytes} {s : Vm} {d p2 a : Nat} {t : Btree} {Q : Nat × Vm → Prop}
    (hrewind : prog a = some (.rewind p2)) (hstring : prog (a + 1) = some (.string zName))
    (hstore : prog (a + 2) = some .memStore) (hstack : s.stack = []) (hd : s.iDb = d) (ht : s.masters d = t)
    (hempty : t.entries = [] → ∀ c, Q (p2, { s with c := c }))
    (hfirst : ∀ e rest, t.entries = e :: rest → ∀ s', On zName s' d t e.1 → s'.masters = s.masters →
      Ends (exec ar hdr) prog Q (a + 3, s')) :
    Ends (exec ar hdr) prog Q (a, s) := by
  have hst : s.t = t := by
    unfold Vm.t
    rw [hd, ht]
  cases hent : t.entries with
  | nil =>
    have hnull : (opRewind t s.c).nullRow = true := by
      rw [opRewind, smFirst_none (by rw [SortedMap.first, hent]; rfl)]
      rfl
    refine .op (t := (p2, { s with c := opRewind t s.c })) hrewind ?_ (.here (hempty hent _))
    rw [exec, hst, if_pos hnull]
  | cons e rest =>
    have hmove : opRewind t s.c = { s.c with pos := some e.1, nullRow := false, deferredMoveto := false } := by
      rw [opRewind, smFirst_some (by rw [SortedMap.first, hent]; rfl)]
      rfl
    have hexec : exec ar hdr (.rewind p2) (a, s) = some (a + 1, { s with c := opRewind t s.c }) := by
      rw [exec, hst, hmove]
      rfl
    refine .op hrewind hexec (.op hstring rfl (.op hstore rfl (hfirst e rest hent _ ?_ rfl)))
    exact ⟨hstack, rfl, hd, ht, by rw [hmove], by rw [hmove], by rw [hmove]⟩

/-- `__open_master_table` opens the schema table of database `iDb`. -/
theorem openMaster_ends {iDb : UInt8} {a : Nat} {s : Vm} {Q : Nat × Vm → Prop}
    (hcode : CodeAt prog a (openMasterTable iDb)) (h : s.stack = [])
    (hQ : Ends (exec ar hdr) prog Q (a + 2, { s with stack := [], iDb := iDb.toNat, c := .opened })) :
    Ends (exec ar hdr) prog Q (a, s) := by
  have hint : ((Val.int (BitVec.ofNat 32 iDb.toNat) none).toInt ar).toNat = iDb.toNat := by
    have hlt : iDb.toNat < 256 := iDb.toNat_lt
    show (BitVec.ofNat 32 iDb.toNat).toNat = iDb.toNat
    rw [BitVec.toNat_ofNat]
    omega
  refine .op hcode.head rfl (.op hcode.tail.head rfl ?_)
  rw [hint, h]
  exact hQ

/-- What the scan of DROP TABLE leaves of a schema table. -/
def dropScan {L : Type} (ar : Arith L) (zName : Bytes) (tab : Table) : Btree :=
  tab.t.filter fun x => !notNe ar zName (columnVal tab x.1 2)

/-- What the scan of DROP INDEX deletes: the first row whose name `OP_Eq` finds equal. -/
def firstEq {L : Type} (ar : Arith L) (zName : Bytes) (tab : Table) : Option (Dbt × Bytes) :=
  tab.t.entries.find? fun x => isEq ar zName (columnVal tab x.1 1)

/-- The scan of one schema table by DROP TABLE. -/
theorem dropScan_ends {zName : Bytes} {tab : Table} {iDb : UInt8} {s : Vm}
    (hcode : CodeAt prog base (openMasterTable iDb ++ dropTableOps (base + 2) zName)) (hcol : 2 < tab.nCol)
    (hstack : s.stack = []) (ht : s.masters iDb.toNat = tab.t) :
    Ends (exec ar hdr) prog (fun x => x.1 = base + 10 ∧ x.2.stack = [] ∧
      x.2.masters = Function.update s.masters iDb.toNat (dropScan ar zName tab)) (base, s) := by
  have hops : CodeAt prog (base + 2) (dropTableOps (base + 2) zName) := hcode.after rfl
  refine openMaster_ends hcode.left hstack ?_
  refine rewind_ends (hops 0 _ rfl) (hops 1 _ rfl) (hops 2 _ rfl) rfl rfl ht ?_ ?_
  · intro hent c
    have hscan : dropScan ar zName tab = tab.t := by
      rw [SortedMap.mk.injEq]
      show tab.t.entries.filter _ = _
      rw [hent]
      rfl
    exact ⟨rfl, rfl, by rw [hscan, ← ht, Function.update_eq_self]⟩
  · intro e rest hent s' hon hm
    refine (dropLoop_ends hops hcol rest [] hon hent fun x hx => hent ▸ hx).mono ?_
    rintro ⟨pc, x⟩ ⟨rfl, hstack', t', hent', hmasters⟩
    refine ⟨rfl, hstack', ?_⟩
    have hscan : t' = dropScan ar zName tab := by
      rw [SortedMap.mk.injEq, hent', List.nil_append, ← hent]
      rfl
    rw [hmasters, hm, hscan]

/-- A table without an entry. -/
def eraseEntry (t : Btree) : Option (Dbt × Bytes) → Btree
  | none => t
  | some e => t.erase e.1

/-- The turn of the scan of DROP INDEX that finds the name equal. -/
theorem indexHit_ends {zName : Bytes} {tab : Table} {s : Vm} {d : Nat} {t : Btree} {e : Dbt × Bytes}
    (hcode : CodeAt prog base (dropIndexOps base zName)) (hcol : 1 < tab.nCol) (h : On zName s d t e.1)
    (he : e ∈ t.entries) (htab : e ∈ tab.t.entries) (heq : isEq ar zName (columnVal tab e.1 1) = true) :
    Ends (exec ar hdr) prog (fun x => x.1 = base + 9 ∧ x.2.stack = [] ∧
      x.2.masters = Function.update s.masters d (t.erase e.1)) (base + 3, s) := by
  have hs : { s with stack := [] } = s := by
    rw [← h.stack]
  obtain ⟨s', hexec, hon, hmasters⟩ :=
    exec_delete ar hdr (base + 8) h (List.mem_map_of_mem he)
  refine load_ends (hcode 3 _ rfl) (hcode 4 _ rfl) h he htab hcol (.op (hcode 5 _ rfl) (exec_eq (by omega)) ?_)
  rw [if_pos heq, hs]
  exact .op (hcode 8 _ rfl) hexec (.here ⟨rfl, hon.stack, hmasters⟩)

/-- A turn that finds it different, and goes on with the next entry if there is one. -/
theorem indexMiss_ends {zName : Bytes} {tab : Table} {s : Vm} {d : Nat} {t : Btree} {done rest : List (Dbt × Bytes)}
    {e : Dbt × Bytes} (hcode : CodeAt prog base (dropIndexOps base zName)) (hcol : 1 < tab.nCol)
    (h : On zName s d t e.1) (hent : t.entries = done ++ e :: rest) (htab : e ∈ tab.t.entries)
    (hne : isEq ar zName (columnVal tab e.1 1) = false) :
    Ends (exec ar hdr) prog (fun x => x.1 = (if rest = [] then base + 9 else base + 3) ∧ x.2.stack = [] ∧
      x.2.masters = s.masters ∧ ∀ e', rest.head? = some e' → On zName x.2 d t e'.1) (base + 3, s) := by
  have he : e ∈ t.entries := hent ▸ List.mem_append_right _ List.mem_cons_self
  have hs : { s with stack := [] } = s := by
    rw [← h.stack]
  obtain ⟨hdone, hrest⟩ := entries_lt hent
  have hle : ∀ y ∈ done ++ [e], y.1 ≤ e.1 := by
    intro y hy
    rcases List.mem_append.1 hy with hy | hy
    · exact hdone y hy
    · rw [List.mem_singleton.1 hy]
  have hent' : t.entries = (done ++ [e]) ++ rest := by
    rw [hent, List.append_assoc, List.singleton_append]
  obtain ⟨s', hexec, hm, hstack, -, hon⟩ :=
    exec_next ar hdr (base + 6) (base + 3) h hent' hle hrest
  refine load_ends (hcode 3 _ rfl) (hcode 4 _ rfl) h he htab hcol (.op (hcode 5 _ rfl) (exec_eq (by omega)) ?_)
  rw [if_neg (Bool.eq_false_iff.1 hne), hs]
  refine .op (hcode 6 _ rfl) hexec ?_
  cases rest with
  | nil => exact .op (hcode 7 _ rfl) rfl (.here ⟨rfl, hstack, hm, hon⟩)
  | cons e' rest => exact .here ⟨rfl, hstack, hm, hon⟩

/-- The scan of DROP INDEX from an entry: it deletes the first one, of this entry and those behind
it, that `OP_Eq` finds equal. By induction on the entries behind. -/
theorem indexLoop_ends {zName : Bytes} {tab : Table} {d : Nat} {t : Btree}
    (hcode : CodeAt prog base (dropIndexOps base zName)) (hcol : 1 < tab.nCol) (rest : List (Dbt × Bytes)) :
    ∀ (done : List (Dbt × Bytes)) {s : Vm} {e : Dbt × Bytes}, On zName s d t e.1 → t.entries = done ++ e :: rest →
      (∀ x ∈ e :: rest, x ∈ tab.t.entries) →
      Ends (exec ar hdr) prog (fun x => x.1 = base + 9 ∧ x.2.stack = [] ∧ x.2.masters = Function.update s.masters d
        (eraseEntry t ((e :: rest).find? fun x => isEq ar zName (columnVal tab x.1 1)))) (base + 3, s) := by
  induction rest with
  | nil =>
    intro done s e h hent htab
    have he : e ∈ t.entries := hent ▸ List.mem_append_right _ List.mem_cons_self
    cases heq : isEq ar zName (columnVal tab e.1 1) with
    | true =>
      have hfind : [e].find? (fun x => isEq ar zName (columnVal tab x.1 1)) = some e := List.find?_cons_of_pos heq
      rw [hfind]
      exact indexHit_ends hcode hcol h he (htab e List.mem_cons_self) heq
    | false =>
      have hfind : [e].find? (fun x => isEq ar zName (columnVal tab x.1 1)) = none :=
        List.find?_cons_of_neg (Bool.eq_false_iff.1 heq)
      refine (indexMiss_ends hcode hcol h hent (htab e List.mem_cons_self) heq).mono ?_
      rintro ⟨pc, x⟩ ⟨hpc, hstack, hm, -⟩
      rw [hfind, eraseEntry, ← h.t, Function.update_eq_self]
      exact ⟨hpc, hstack, hm⟩
  | cons e' rest ih =>
    intro done s e h hent htab
    have he : e ∈ t.entries := hent ▸ List.mem_append_right _ List.mem_cons_self
    cases heq : isEq ar zName (columnVal tab e.1 1) with
    | true =>
      have hfind : (e :: e' :: rest).find? (fun x => isEq ar zName (columnVal tab x.1 1)) = some e :=
        List.find?_cons_of_pos heq
      rw [hfind]
      exact indexHit_ends hcode hcol h he (htab e List.mem_cons_self) heq
    | false =>
      refine (indexMiss_ends hcode hcol h hent (htab e List.mem_cons_self) heq).bind ?_
      rintro ⟨pc, x⟩ ⟨rfl, hstack, hm, hon⟩
      have hent' : t.entries = (done ++ [e]) ++ e' :: rest := by
        rw [hent, List.append_assoc, List.singleton_append]
      have hfind : (e :: e' :: rest).find? (fun x => isEq ar zName (columnVal tab x.1 1)) =
          (e' :: rest).find? (fun x => isEq ar zName (columnVal tab x.1 1)) :=
        List.find?_cons_of_neg (Bool.eq_false_iff.1 heq)
      rw [hfind, ← hm]
      exact ih _ (hon e' rfl) hent' fun y hy => htab y (List.mem_cons_of_mem _ hy)

/-- The code of DROP INDEX. -/
theorem dropIndex_ends {zName : Bytes} {tab : Table} {iDb : UInt8} {s : Vm}
    (hcode : CodeAt prog base (dropIndexCode base iDb zName)) (hcol : 1 < tab.nCol) (hstack : s.stack = [])
    (ht : s.masters iDb.toNat = tab.t) :
    Ends (exec ar hdr) prog (fun x => x.1 = base + 11 ∧
      x.2.masters = Function.update s.masters iDb.toNat (eraseEntry tab.t (firstEq ar zName tab))) (base, s) := by
  have hops : CodeAt prog (base + 2) (dropIndexOps (base + 2) zName) := hcode.after rfl
  refine openMaster_ends hcode.left hstack ?_
  refine rewind_ends (hops 0 _ rfl) (hops 1 _ rfl) (hops 2 _ rfl) rfl rfl ht ?_ ?_
  · intro hent c
    rw [firstEq, hent, List.find?_nil, eraseEntry, ← ht, Function.update_eq_self]
    exact ⟨rfl, rfl⟩
  · intro e rest hent s' hon hm
    refine (indexLoop_ends hops hcol rest [] hon hent fun x hx => hent ▸ hx).mono ?_
    rintro ⟨pc, x⟩ ⟨rfl, -, hmasters⟩
    rw [firstEq, hent, hmasters, hm]
    exact ⟨rfl, rfl⟩

/-- The code of DROP TABLE: the schema table of the table's database and that of the temporary one. -/
theorem dropTable_ends {zName : Bytes} {sch : Nat → Table} {iDb : UInt8} {s : Vm}
    (hcode : CodeAt prog base (dropTableCode base iDb zName)) (hcol : ∀ d, (sch d).nCol = 5) (hstack : s.stack = [])
    (ht : ∀ d, s.masters d = (sch d).t) :
    Ends (exec ar hdr) prog (fun x => x.1 = base + (dropTableCode base iDb zName).length ∧
      ∀ d, x.2.masters d = if d = iDb.toNat ∨ d = 1 then dropScan ar zName (sch d) else (sch d).t) (base, s) := by
  have hcol2 : ∀ d, 2 < (sch d).nCol := fun d => by
    rw [hcol]
    omega
  have hleft : CodeAt prog base (openMasterTable iDb ++ dropTableOps (base + 2) zName) := by
    rw [dropTableCode, ← List.append_assoc] at hcode
    exact hcode.left
  refine (dropScan_ends hleft (hcol2 _) hstack (ht _)).bind ?_
  rintro ⟨pc, x⟩ ⟨rfl, hstack', hm⟩
  by_cases hdb : iDb = 1
  · subst hdb
    refine .here ⟨rfl, fun d => ?_⟩
    rw [hm]
    rcases eq_or_ne d (1 : UInt8).toNat with rfl | hd
    · rw [Function.update_self, if_pos (.inl rfl)]
    · rw [Function.update_of_ne hd, if_neg (by tauto), ht]
  · have hright : CodeAt prog (base + 10) (openMasterTable 1 ++ dropTableOps (base + 10 + 2) zName) := by
      rw [dropTableCode, ← List.append_assoc, if_pos hdb] at hcode
      exact hcode.after rfl
    have hne : (1 : Nat) ≠ iDb.toNat := fun h => hdb (UInt8.toNat_inj.1 h.symm)
    have ht1 : x.masters (1 : UInt8).toNat = (sch 1).t := by
      rw [hm]
      exact (Function.update_of_ne hne ..).trans (ht 1)
    refine (dropScan_ends hright (hcol2 _) hstack' ht1).mono ?_
    rintro ⟨pc, y⟩ ⟨rfl, -, hm'⟩
    refine ⟨?_, fun d => ?_⟩
    · rw [dropTableCode, if_pos hdb]
      rfl
    · rw [hm', hm]
      rcases eq_or_ne d 1 with rfl | hd1
      · rw [if_pos (.inr rfl)]
        exact Function.update_self ..
      · have hup : Function.update (Function.update s.masters iDb.toNat (dropScan ar zName (sch iDb.toNat)))
            (UInt8.toNat 1) (dropScan ar zName (sch 1)) d =
            Function.update s.masters iDb.toNat (dropScan ar zName (sch iDb.toNat)) d := Function.update_of_ne hd1 ..
        rw [hup]
        rcases eq_or_ne d iDb.toNat with rfl | hd
        · rw [Function.update_self, if_pos (.inl rfl)]
        · rw [Function.update_of_ne hd, if_neg (by tauto), ht]

/-! ## The rows of an object -/

/-- `strcasecmp` finds two names the same, as the hash tables of the schema do. -/
def sameName (a b : Bytes) : Bool := a.map HashTable.strUpperToLower == b.map HashTable.strUpperToLower

section
variable {L : Type} (ar : Arith L) {zName w : Bytes}

theorem strcmp_eq_zero {a b : Bytes} : strcmp a b = 0 ↔ cstr a = cstr b := by
  have hcode : ∀ o : Ordering, BitVec.ofInt 32 (ordInt o) = 0 ↔ ordInt o = 0 := by
    intro o
    cases o <;> decide
  rw [strcmp, hcode, ← smCmpValues_eq, smCmpValues_eq_zero]

/-- A name that is no number is equal to the names with the same bytes. -/
theorem strNumericCmp_name (hz : 0 ∉ zName) (hw : 0 ∉ w)
    (h : strIsNumeric zName = false ∨ strIsNumeric w = false) :
    strNumericCmp ar (Stack.nulTerm zName) (Stack.nulTerm w) = 0 ↔ zName = w := by
  have hstr : strcmp (Stack.nulTerm zName) (Stack.nulTerm w) = 0 ↔ zName = w := by
    rw [strcmp_eq_zero, Stack.nulTerm, Stack.nulTerm, cstr_terminated hz, cstr_terminated hw]
  rw [strNumericCmp, Stack.nulTerm, Stack.nulTerm, cstr_terminated hz, cstr_terminated hw]
  cases hzn : strIsNumeric zName with
  | true =>
    have hwn : strIsNumeric w = false := h.resolve_left (by simp [hzn])
    have hne : zName ≠ w := fun heq => by simp [heq, hwn] at hzn
    simp [hwn, hne]
  | false =>
    cases hwn : strIsNumeric w with
    | true =>
      have hne : zName ≠ w := fun heq => by simp [heq, hwn] at hzn
      simp [hne]
    | false => simpa [Stack.nulTerm] using hstr

/-- **Where the opcodes tell names as `strcasecmp` does**: of two names that are not both numbers,
when they are spelled the same or differ in more than case. -/
theorem isEq_sameName_iff (hz : 0 ∉ zName) (hw : 0 ∉ w)
    (h : strIsNumeric zName = false ∨ strIsNumeric w = false) :
    (isEq ar zName (.str (Stack.nulTerm w)) = sameName zName w ∧
      notNe ar zName (.str (Stack.nulTerm w)) = sameName zName w) ↔ (sameName zName w = true → zName = w) := by
  have hcmp : numCmp ar (.str (Stack.nulTerm zName)) (.str (Stack.nulTerm w)) =
      strNumericCmp ar (Stack.nulTerm zName) (Stack.nulTerm w) := rfl
  have heq : isEq ar zName (.str (Stack.nulTerm w)) = decide (zName = w) := by
    simp only [isEq, compare3, Val.isNull, hcmp, Cmp.test, Stack.cmpJumps]
    simpa using strNumericCmp_name ar hz hw h
  have hne : notNe ar zName (.str (Stack.nulTerm w)) = decide (zName = w) := by
    simp only [notNe, compare3, Val.isNull, hcmp, Cmp.test, Stack.cmpJumps]
    simpa using strNumericCmp_name ar hz hw h
  rw [heq, hne, and_self]
  constructor
  · intro hs hsame
    exact of_decide_eq_true (hs.trans hsame)
  · intro hs
    by_cases hzw : zName = w
    · rw [hzw, decide_eq_true rfl]
      exact (beq_self_eq_true _).symm
    · rw [decide_eq_false hzw, eq_comm, Bool.eq_false_iff]
      exact fun hsame => hzw (hs hsame)

end

/-- A schema: the schema table of each database, and the database of the table that each row of the
temporary one is about; a temporary trigger can be on a table of any database. -/
structure Schema where
  master : Nat → Table
  nCol : ∀ d, (master d).nCol = 5
  tempDb : Dbt → Nat

/-- The database of the table that a row is about. -/
def Schema.tabDb (sch : Schema) (d : Nat) (k : Dbt) : Nat := if d = 1 then sch.tempDb k else d

/-- A row of the schema table of database `d` describes the table `zName` of `iDb`, an index of it
or a trigger on it. -/
def Schema.ofTable (sch : Schema) (iDb : UInt8) (zName : Bytes) (d : Nat) (x : Dbt × Bytes) : Bool :=
  sch.tabDb d x.1 = iDb.toNat && (((sch.master d).value x.1 2).map (sameName zName)).getD false

/-- A row of the schema table of database `d` describes the index `zName` of `iDb`. -/
def Schema.ofIndex (sch : Schema) (iDb : UInt8) (zName : Bytes) (d : Nat) (x : Dbt × Bytes) : Bool :=
  d = iDb.toNat && (sch.master d).value x.1 0 = some (ascii "index") &&
    (((sch.master d).value x.1 1).map (sameName zName)).getD false

/-- The statement `code` halts with just the rows gone that meet `gone`. -/
def Drops {L : Type} (ar : Arith L) (hdr : Bytes) (sch : Schema) (base : Nat) (code : List Op)
    (gone : Nat → Dbt × Bytes → Bool) : Prop :=
  ∀ s : Vm, s.stack = [] → (∀ d, s.masters d = (sch.master d).t) →
    Ends (exec ar hdr) (block base code) (fun x => Halted (exec ar hdr) (block base code) x ∧
      ∀ d, x.2.masters d = (sch.master d).t.filter fun e => !gone d e) (base, s)

/-- A statement that ends behind its code with the schema tables `m` deletes just the rows `gone`
when these are the entries that `m` lacks. -/
theorem drops_iff {sch : Schema} {code : List Op} (gone : Nat → Dbt × Bytes → Bool) (m : Nat → Btree)
    (h : ∀ s : Vm, s.stack = [] → (∀ d, s.masters d = (sch.master d).t) →
      Ends (exec ar hdr) (block base code) (fun x => x.1 = base + code.length ∧ x.2.masters = m) (base, s)) :
    Drops ar hdr sch base code gone ↔ ∀ d, (m d).entries = (sch.master d).t.entries.filter fun e => !gone d e := by
  have hends : ∀ s : Vm, s.stack = [] → (∀ d, s.masters d = (sch.master d).t) →
      Ends (exec ar hdr) (block base code) (fun x => Halted (exec ar hdr) (block base code) x ∧ x.2.masters = m)
        (base, s) := by
    intro s hs hm
    refine (h s hs hm).mono fun x hx => ⟨halted_of_none ?_, hx.2⟩
    rw [hx.1]
    exact block_none (.inr le_rfl)
  constructor
  · intro hd d
    obtain ⟨x, hx, hx'⟩ := (hends ⟨[], .null, fun d => (sch.master d).t, 0, .opened⟩ rfl fun _ => rfl).halted_unique
      (hd _ rfl fun _ => rfl)
    rw [← hx, hx']
    rfl
  · intro hm s hs ht
    refine (hends s hs ht).mono fun x hx => ⟨hx.1, fun d => ?_⟩
    rw [hx.2, SortedMap.mk.injEq]
    exact hm d

/-- DROP TABLE deletes just the rows of the table when `OP_Ne` tells them from the others in the two
schema tables that it scans. -/
theorem dropTable_iff (sch : Schema) (iDb : UInt8) (zName : Bytes) :
    Drops ar hdr sch base (dropTableCode base iDb zName) (sch.ofTable iDb zName) ↔
      ∀ d, d = iDb.toNat ∨ d = 1 → ∀ e ∈ (sch.master d).t.entries,
        notNe ar zName (columnVal (sch.master d) e.1 2) = sch.ofTable iDb zName d e := by
  rw [drops_iff (sch.ofTable iDb zName)
    (fun d => if d = iDb.toNat ∨ d = 1 then dropScan ar zName (sch.master d) else (sch.master d).t)
    fun s hs ht => (dropTable_ends (codeAt_block base _) sch.nCol hs ht).mono fun x hx => ⟨hx.1, funext hx.2⟩]
  refine forall_congr' fun d => ?_
  by_cases hd : d = iDb.toNat ∨ d = 1
  · have hscan : (dropScan ar zName (sch.master d)).entries =
        (sch.master d).t.entries.filter fun x => !notNe ar zName (columnVal (sch.master d) x.1 2) := rfl
    rw [if_pos hd, hscan, filter_eq_filter_iff]
    exact ⟨fun h _ e he => Bool.not_inj (h e he), fun h e he => congrArg (!·) (h hd e he)⟩
  · obtain ⟨hd0, hd1⟩ := not_or.1 hd
    have hkeep : ∀ e ∈ (sch.master d).t.entries, (!sch.ofTable iDb zName d e) = true := by
      intro e _
      rw [Schema.ofTable, Schema.tabDb, if_neg hd1, decide_eq_false hd0]
      rfl
    rw [if_neg hd, List.filter_eq_self.2 hkeep]
    exact iff_of_true rfl fun h => absurd h hd

/-- What is left of a schema table without the first entry that meets a test. -/
theorem eraseEntry_find {t : Btree} (p : Dbt × Bytes → Bool) :
    (eraseEntry t (t.entries.find? p)).entries = t.entries.filter fun x => !decide (t.entries.find? p = some x) := by
  cases h : t.entries.find? p with
  | none => exact (List.filter_eq_self.2 fun _ _ => rfl).symm
  | some e =>
    have he := List.mem_of_find?_eq_some h
    show t.entries.filter (fun x => decide (x.1 ≠ e.1)) = _
    refine List.filter_congr fun x hx => ?_
    rw [← decide_not, decide_eq_decide, not_iff_not]
    exact ⟨fun hk => congrArg some (SortedMap.entry_unique he hx hk.symm), fun hk => by rw [Option.some.inj hk]⟩

/-- DROP INDEX deletes just the row of the index when this is the first row whose name `OP_Eq` finds
equal. -/
theorem dropIndex_iff (sch : Schema) (iDb : UInt8) (zName : Bytes) :
    Drops ar hdr sch base (dropIndexCode base iDb zName) (sch.ofIndex iDb zName) ↔
      ∀ e ∈ (sch.master iDb.toNat).t.entries, sch.ofIndex iDb zName iDb.toNat e = true ↔
        isEq ar zName (columnVal (sch.master iDb.toNat) e.1 1) = true ∧
          ∀ x ∈ (sch.master iDb.toNat).t.entries, x.1 < e.1 →
            isEq ar zName (columnVal (sch.master iDb.toNat) x.1 1) = false := by
  have hcol : 1 < (sch.master iDb.toNat).nCol := by
    rw [sch.nCol]
    omega
  rw [drops_iff (sch.ofIndex iDb zName)
    (Function.update (fun d => (sch.master d).t) iDb.toNat
      (eraseEntry (sch.master iDb.toNat).t (firstEq ar zName (sch.master iDb.toNat))))
    fun s hs ht => (dropIndex_ends (codeAt_block base _) hcol hs (ht _)).mono
      fun x hx => ⟨hx.1, by rw [hx.2, funext ht]⟩]
  constructor
  · intro h e he
    have hd := h iDb.toNat
    rw [Function.update_self, firstEq, eraseEntry_find, filter_eq_filter_iff] at hd
    rw [← Bool.not_inj (hd e he), decide_eq_true_iff, SortedMap.find_entries_iff, and_iff_right he]
  · intro h d
    rcases eq_or_ne d iDb.toNat with rfl | hd
    · rw [Function.update_self, firstEq, eraseEntry_find, filter_eq_filter_iff]
      intro e he
      rw [Bool.not_inj_iff, Bool.eq_iff_iff, decide_eq_true_iff, SortedMap.find_entries_iff, and_iff_right he, h e he]
    · have hkeep : ∀ e ∈ (sch.master d).t.entries, (!sch.ofIndex iDb zName d e) = true := by
        intro e _
        rw [Schema.ofIndex, decide_eq_false hd]
        rfl
      rw [Function.update_of_ne hd, List.filter_eq_self.2 hkeep]

end

/-- For every schema, the statements delete just the rows of the table, or that of the index, when
the opcodes tell these from the others: `OP_Ne` finds the `tbl_name` of a row different just when
the row is not about the table, and the row of the index is the first whose name `OP_Eq` finds
equal. -/
theorem drop_iff {L : Type} (ar : Arith L) (hdr : Bytes) (sch : Schema) (base : Nat) (iDb : UInt8) (zName : Bytes) :
    (Drops ar hdr sch base (dropTableCode base iDb zName) (sch.ofTable iDb zName) ↔
      ∀ d, d = iDb.toNat ∨ d = 1 → ∀ e ∈ (sch.master d).t.entries,
        notNe ar zName (columnVal (sch.master d) e.1 2) = sch.ofTable iDb zName d e) ∧
    (Drops ar hdr sch base (dropIndexCode base iDb zName) (sch.ofIndex iDb zName) ↔
      ∀ e ∈ (sch.master iDb.toNat).t.entries, sch.ofIndex iDb zName iDb.toNat e = true ↔
        isEq ar zName (columnVal (sch.master iDb.toNat) e.1 1) = true ∧
          ∀ x ∈ (sch.master iDb.toNat).t.entries, x.1 < e.1 →
            isEq ar zName (columnVal (sch.master iDb.toNat) x.1 1) = false) :=
  ⟨dropTable_iff sch iDb zName, dropIndex_iff sch iDb zName⟩

/-! ### Tables `1` and `1.0`, and a trigger with the name of an index -/

def textVal (z : Bytes) : StackVal where
  i := 0
  flags := { str := true, static := true }
  r := .nan
  z := z ++ [0]
  kind := .inr (.inl rfl)
  terminated _ := ⟨z, rfl⟩

/-- A schema table with two rows. -/
def twoRows (a b : List StackVal) (ha : a.length = 5 ∧ textSize a + 18 < 2 ^ 24)
    (hb : b.length = 5 ∧ textSize b + 18 < 2 ^ 24) : Table where
  t := ⟨[(⟨rowidKey 1⟩, (opMakeRecord .little 0 0 (a.map (·.toMem))).1.z),
    (⟨rowidKey 2⟩, (opMakeRecord .little 0 0 (b.map (·.toMem))).1.z)],
    List.pairwise_pair.2 (rowidKey_lt.2 (by decide))⟩
  isTable k hk := by
    rcases List.mem_pair.1 hk with rfl | rfl
    · exact ⟨1, rfl⟩
    · exact ⟨2, rfl⟩
  nCol := 5
  iPKey := none
  row k := if k = ⟨rowidKey 1⟩ then a else b
  record e he := by
    rcases List.mem_pair.1 he with rfl | rfl
    · exact ⟨ha.1, (record_iff .little 0 a).2 (by rw [ha.1]; exact ha.2)⟩
    · have hne : (⟨rowidKey 2⟩ : Dbt) ≠ ⟨rowidKey 1⟩ := (rowidKey_lt.2 (by decide)).ne'
      rw [if_neg hne]
      exact ⟨hb.1, (record_iff .little 0 b).2 (by rw [hb.1]; exact hb.2)⟩

def tableRow (z : String) : List StackVal :=
  [textVal (ascii "table"), textVal (ascii z), textVal (ascii z), textVal (ascii "3"), textVal []]

/-- The rows of the tables `1` and `1.0`. -/
def numberTables : Table :=
  twoRows (tableRow "1") (tableRow "1.0") (by decide) (by decide)

/-- The rows of a trigger `i` on a table, and of an index `i` on it. -/
def triggerFirst : Table :=
  twoRows [textVal (ascii "trigger"), textVal (ascii "i"), textVal (ascii "t"), textVal (ascii "0"), textVal []]
    [textVal (ascii "index"), textVal (ascii "i"), textVal (ascii "t"), textVal (ascii "5"), textVal []]
    (by decide) (by decide)

/-- A schema table without rows. -/
def noRows : Table where
  t := ⟨[], .nil⟩
  isTable k hk := by cases hk
  nCol := 5
  iPKey := none
  row _ := []
  record e he := by cases he

/-- A schema whose objects are all in the main database. -/
def mainSchema (tab : Table) (h : tab.nCol = 5) : Schema where
  master d := if d = 0 then tab else noRows
  nCol d := by
    split
    · exact h
    · rfl
  tempDb _ := 1

/-- The rows of the tables `t` and `u`. -/
def lettersTab : Table := twoRows (tableRow "t") (tableRow "u") (by decide) (by decide)

/-- The rows of a table `t` and of an index `i` on it. -/
def indexTab : Table :=
  twoRows (tableRow "t")
    [textVal (ascii "index"), textVal (ascii "i"), textVal (ascii "t"), textVal (ascii "5"), textVal []]
    (by decide) (by decide)

/-- DROP TABLE `t` deletes just the row of `t` beside that of `u`, and DROP INDEX `i` just that of
`i` beside that of its table. -/
theorem drop_iff_letters :
    Drops exactMachine [] (mainSchema lettersTab rfl) 0 (dropTableCode 0 0 (ascii "t"))
      ((mainSchema lettersTab rfl).ofTable 0 (ascii "t")) ∧
    Drops exactMachine [] (mainSchema indexTab rfl) 0 (dropIndexCode 0 0 (ascii "i"))
      ((mainSchema indexTab rfl).ofIndex 0 (ascii "i")) := by
  constructor
  · refine (drop_iff exactMachine [] (mainSchema lettersTab rfl) 0 0 (ascii "t")).1.2 fun d hd e he => ?_
    rcases hd with rfl | rfl
    · rcases List.mem_pair.1 he with rfl | rfl
      · decide +kernel
      · decide +kernel
    · cases he
  · refine (drop_iff exactMachine [] (mainSchema indexTab rfl) 0 0 (ascii "i")).2.2 fun e he => ?_
    rcases List.mem_pair.1 he with rfl | rfl
    · decide +kernel
    · decide +kernel
/-- DROP TABLE of `1` deletes the row of `1.0`, and DROP INDEX of `i` that of the trigger `i`. -/
theorem drop_numberTables :
    ¬ Drops exactMachine [] (mainSchema numberTables rfl) 0 (dropTableCode 0 0 (ascii "1"))
      ((mainSchema numberTables rfl).ofTable 0 (ascii "1")) ∧
    ¬ Drops exactMachine [] (mainSchema triggerFirst rfl) 0 (dropIndexCode 0 0 (ascii "i"))
      ((mainSchema triggerFirst rfl).ofIndex 0 (ascii "i")) := by
  constructor
  · intro h
    have hrow := (dropTable_iff _ _ _).1 h 0 (.inl rfl) _ (List.mem_cons_of_mem _ List.mem_cons_self)
    revert hrow
    decide +kernel
  · intro h
    have hrow := ((dropIndex_iff _ _ _).1 h _ List.mem_cons_self).2
    revert hrow
    decide +kernel

end Dbsql.L5.Drop
