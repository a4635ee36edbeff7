import Dbsql.L5Codegen.RowStore
/-!
# One row of a statement

The code of a row of an INSERT, an UPDATE or a DELETE, with what its loop has set up (`Starts`).

It keeps every index in step with the table, and the stack as it was before the row, unless
* an UPDATE's row has gone since it was listed: its rowid stays on the stack, or the row behind
  it is taken for it;
* `OP_NotExists` finds a row behind the rowid that is to be replaced, or deleted;
* `OP_IsUnique` stops at an entry with smaller fields, and a REPLACE follows;
* a REPLACE comes from `BEGIN ON CONFLICT`, in an UPDATE that has not opened all indices;
* an UPDATE replaces more than one row, or one besides the row that has the new rowid: after the
  first the cursor waits to be moved back, and the next REPLACE deletes the row of the UPDATE;
* the record does not give back the values that the keys were made of;
* in an UPDATE a NOT NULL column that it does not assign is NULL in the row, and gets its default.

`Safe` says that nothing of this happens.

Results:
* `keysStored_of_text`: which records give back the keys.
* `newKey_spared`: an index that an UPDATE leaves alone has the key of the row before.
* `rowStmt_keeps`: the code of a row keeps the indices and the stack, where it is `Safe`.
* `update_gone`: an UPDATE of a row that has gone leaves its rowid.
-/
namespace Dbsql.L5.Rows
open Dbsql.Core Dbsql.L1 Dbsql.L2 Dbsql.L3 Dbsql.L3.Row

/-! ## The code of a row -/

/-- What the statements of a program have in common: their cursor, and what the checks read. -/
structure Ctx where
  base : Nat
  onError : Option Conflict
  override : Option Conflict
  trigStack : Bool
  ignoreDest : Nat
  deriving DecidableEq, Repr

/-- A statement, with the row that it works on. -/
inductive RowStmt
  /-- the row that has been pushed; `keyCol` tells whether its rowid comes from a column -/
  | insert (keyCol : Bool) (newIdx : Option Nat) (new : CInt) (text : Option Bytes) (cols : List Val)
  /-- the row whose rowid has come from the list -/
  | update (ch : Changes) (r : CInt)
  | delete (count : Bool) (r : CInt)

namespace RowStmt
variable (tab : Table) (x : Ctx)

def code : RowStmt → Nat → List Op
  | insert keyCol newIdx _ _ _ =>
    insertRow tab x.base keyCol x.onError x.override x.trigStack newIdx x.ignoreDest
  | update ch _ => updateRow tab x.base ch x.onError x.override x.trigStack x.ignoreDest
  | delete count _ => rowDelete tab x.base count

/-- What has been pushed for the row. -/
def pushed : RowStmt → List Val
  | insert _ _ new text cols => cols.reverse ++ [.int new text]
  | update _ r => [.int r none, .int r none]
  | delete _ r => [.int r none]

/-- The pseudo-table of the triggers. -/
def newIdx : RowStmt → Option Nat
  | insert _ newIdx _ _ _ => newIdx
  | _ => none

/-- The columns that have been pushed. -/
def cols : RowStmt → Option (List Val)
  | insert _ _ _ _ cols => some cols
  | _ => none

/-- The indices that have been opened. -/
def opens : RowStmt → Nat → Bool
  | update ch _, n => openAll tab x.override || (ch.idxUsed tab).getD n false
  | _, _ => true

/-- The arguments of `__generate_constraint_checks`. -/
def insertArgs (keyCol : Bool) : Args :=
  ⟨x.base, none, keyCol, false, x.override, x.ignoreDest, x.onError, x.trigStack, none⟩

end RowStmt

section
variable {L : Type} (ar : Arith L) (en : Endian) (junk : Unset) (tab : Table) (x : Ctx)

/-- The value of the column `i` after an UPDATE of a row, unless its record is corrupt. -/
def updatedVal (ch : Changes) (record : Bytes) (i : Nat) : Option Val :=
  if tab.iPKey = some i then some .null
  else
    match ch.xref.getD i none with
    | none => pushedVal (opColumn record i junk.hdr)
    | some v => some v

/-- The columns after an UPDATE. -/
def updatedCols (ch : Changes) (record : Bytes) : Option (List Val) :=
  (List.range tab.nCol).mapM (updatedVal junk tab ch record)

/-- The rowid after an UPDATE, unless it is no integer. -/
def updatedRowid (ch : Changes) (r : CInt) : Option CInt :=
  match ch.recno with
  | none => some r
  | some v => mustBeInt ar v

/-- The record that is stored gives back the values of the row, as an index takes them: its key is
the one that is made from the values. -/
def KeysStored (w : NewRow) (cols : List Val) : Prop :=
  ∀ (n : Nat) (ix : Index), tab.pIndex[n]? = some ix →
    rowKey ar.ld junk.toJunk tab ix (⟨rowidKey w.new⟩, newRecord en cols) =
      some ⟨newKey ar.ld tab w cols ix⟩

/-- An UPDATE assigns no column of the index, and not the rowid. -/
def Changes.Spares (ch : Changes) (ix : Index) : Prop :=
  ch.recno = none ∧ ∀ c ∈ ix.aiColumn, ch.xref.getD c none = none

/-- Where an UPDATE assigns no column of an index, REPLACE fills none of them with its default: the
row has no NULL there. -/
def Unfilled (g : Args) (ch : Changes) (record : Bytes) : Prop :=
  ∀ ix ∈ tab.pIndex, ch.Spares ix → ∀ c ∈ ix.aiColumn, ∀ col declared, tab.aCol[c]? = some col →
    tab.iPKey ≠ some c → col.notNull = some declared → notNullAction g col declared = .replace →
    opColumn record c junk.hdr ≠ .null

namespace RowStmt

/-- Where the code of a row begins: the row is on the stack, over `st`, the table and its indices
are open, and agree. -/
structure Starts (stmt : RowStmt) (st : List Val) (s : Vm) : Prop where
  stack : s.stack = stmt.pushed ++ st
  cursor : ∃ c, s.aCsr x.base = .table c
  opened : ∀ n, n < tab.pIndex.length → stmt.opens tab x n = true →
    ∃ pos, s.aCsr (x.base + (n + 1)) = .index n pos
  pseudo : ∀ m, stmt.newIdx = some m → ∃ row, s.aCsr m = .pseudo row
  columns : ∀ cols, stmt.cols = some cols → cols.length = tab.nCol
  consistent : Consistent ar.ld junk.toJunk tab s.t s.idx

/-- When the code of a row keeps the indices and the stack, for each kind of statement. -/
def Holds (s : Vm) : RowStmt → Prop
  | insert keyCol _ new text cols =>
    let g := insertArgs x keyCol
    let cols := fillDefaults tab g 0 tab.aCol cols
    Safe ar.ld junk.toJunk tab g ⟨new, text, new, []⟩ cols s ∧
      KeysStored ar en junk tab ⟨new, text, new, []⟩ cols
  | update ch r =>
    let g := updateArgs tab x.base ch x.onError x.override x.trigStack x.ignoreDest
    ∃ row ∈ s.t.entries, row.1 = ⟨rowidKey r⟩ ∧ ∀ new cols₀, updatedRowid ar ch r = some new →
      updatedCols junk tab ch row.2 = some cols₀ →
        let cols := fillDefaults tab g 0 tab.aCol cols₀
        Safe ar.ld junk.toJunk tab g ⟨new, none, r, []⟩ cols s ∧
          KeysStored ar en junk tab ⟨new, none, r, []⟩ cols ∧ Unfilled junk tab g ch row.2
  | delete _ r => (⟨rowidKey r⟩ : Dbt) ∈ s.t ∨ ∀ k ∈ s.t, k < ⟨rowidKey r⟩

/-- The indices and the stack are kept: no move of the cursor is pending, and what the kind of
statement needs. -/
structure Safe (stmt : RowStmt) (s : Vm) : Prop where
  still : ∀ c, s.aCsr x.base = .table c → c.deferredMoveto = false
  holds : stmt.Holds ar en junk tab x s

/-- Where the code of a row leaves off. -/
inductive Outcome (stmt : RowStmt) (a : Nat) (st : List Val) (s : Vm) (prog : Nat → Option Op) :
    Nat × Vm → Prop
  /-- at its end, or at the label of IGNORE: the stack is as before the row was pushed -/
  | left {pc : Nat} {s' : Vm} (hpc : pc = a + (stmt.code tab x a).length ∨ pc = x.ignoreDest)
      (hst : s'.stack = st) (hcons : Consistent ar.ld junk.toJunk tab s'.t s'.idx) :
      Outcome stmt a st s prog (pc, s')
  /-- at a constraint: what the row has changed so far stays with FAIL alone -/
  | constraint {pc : Nat} {s' : Vm} {oe : Oe} {msg : Bytes}
      (hpc : prog pc = some (.halt .constraint oe msg))
      (hcons : oe = .fail → Consistent ar.ld junk.toJunk tab s'.t s'.idx) :
      Outcome stmt a st s prog (pc, s')
  /-- at a rowid that is no integer, or a corrupt record: nothing has changed -/
  | error {pc : Nat} {s' : Vm} (hpc : prog pc = some .mustBeInt ∨ ∃ c i, prog pc = some (.column c i))
      (ht : s'.t = s.t) (hidx : s'.idx = s.idx) : Outcome stmt a st s prog (pc, s')

end RowStmt
end

/-! ## The keys of a record -/

section
variable {L : Type} {ar : Arith L} {en : Endian} {junk : Unset} {tab : Table}

theorem mapM_eq_map {α β : Type} {f : α → Option β} {v : α → β} : ∀ {l : List α},
    (∀ a ∈ l, f a = some (v a)) → l.mapM f = some (l.map v) := by
  intro l
  induction l with
  | nil => exact fun _ => rfl
  | cons a l ih =>
    intro h
    rw [List.mapM_cons, h a (List.mem_cons_self ..), ih fun b hb => h b (List.mem_cons_of_mem _ hb)]
    rfl

/-- A column of the row that is stored, as it is read from the record: as its text. -/
theorem newRecord_column {cols : List Val}
    (hterm : ∀ v ∈ cols, v.toMem.flags.str = true → ∃ z, v.toMem.z = z ++ [0])
    (hsize : (cols.map fun v => if v.isNull then 0 else v.text.length).sum + 3 * (cols.length + 1) < 2 ^ 24)
    {c : Nat} (hc : c < cols.length) (hdr : Bytes) :
    opColumn (newRecord en cols) c hdr = if cols[c].isNull then .null else .str cols[c].text := by
  have hkind : ∀ v : Val, v.toMem.flags.null ∨ v.toMem.flags.str ∨ v.toMem.flags.int ∨ v.toMem.flags.real := by
    intro v
    cases v with
    | int i x => cases x <;> simp [Val.toMem]
    | _ => simp [Val.toMem]
  have hnull : ∀ v : Val, v.toMem.flags.null = v.isNull := by
    intro v
    cases v with
    | int i x => cases x <;> rfl
    | _ => rfl
  let vs : List StackVal := cols.attach.map fun v => ⟨v.1.toMem, hkind v.1, hterm v.1 v.2⟩
  have hmem : vs.map (·.toMem) = cols.map Val.toMem := by
    rw [List.map_map]
    exact List.attach_map_val (f := Val.toMem)
  have hsizes : textSize vs = (cols.map fun v => if v.isNull then 0 else v.text.length).sum := by
    rw [textSize, List.map_map, ← List.attach_map_val (l := cols)]
    congr 1
    refine List.map_congr_left fun v _ => ?_
    show (if v.1.toMem.flags.null = true then _ else _) = _
    rw [hnull]
    rfl
  have hlen : vs.length = cols.length := (List.length_map ..).trans List.length_attach
  have hspec := (record_iff en 0 vs).2 (by rw [hsizes, hlen]; exact hsize)
  rw [hmem] at hspec
  refine (hspec.column c (hlen ▸ hc) hdr).trans ?_
  show (if vs[c].toMem.flags.null = true then _ else _) = _
  have hget : vs[c].toMem = cols[c].toMem := by simp [vs]
  rw [hget, hnull]
  rfl

/-- The record gives back its keys, if it is below 2^24 bytes and the columns of the indices are NULL
or have the field of their text. -/
theorem keysStored_of_text {w : NewRow} {cols : List Val} (hlen : cols.length = tab.nCol) (hw : w.text = none)
    (hterm : ∀ v ∈ cols, v.toMem.flags.str = true → ∃ z, v.toMem.z = z ++ [0])
    (hsize : (cols.map fun v => if v.isNull then 0 else v.text.length).sum + 3 * (cols.length + 1) < 2 ^ 24)
    (hsame : ∀ ix ∈ tab.pIndex, ∀ c ∈ ix.aiColumn, tab.iPKey ≠ some c → (cols.getD c .null).isNull = false →
      SameField ar.ld (cols.getD c .null).toMem (.ofBytes (cols.getD c .null).text)) :
    KeysStored ar en junk tab w cols := by
  intro n ix hix
  have hmem := List.mem_of_getElem? hix
  let read (c : Nat) : Mem :=
    if tab.iPKey = some c then ⟨w.new, { int := true }, .nan, []⟩
    else if (cols.getD c .null).isNull then ⟨0, { null := true }, .nan, []⟩
    else .ofBytes (cols.getD c .null).text
  have hcol : ∀ c ∈ ix.aiColumn,
      indexedColumn (idxDef tab ix) (newRecord en cols) w.new junk.hdr c = some (read c) := by
    intro c hc
    have hlt : c < cols.length := hlen ▸ (tab.columns ix hmem).2 c hc
    have hget : cols[c] = cols.getD c .null := by
      rw [List.getD_eq_getElem?_getD, List.getElem?_eq_getElem hlt, Option.getD_some]
    unfold indexedColumn
    by_cases hpk : tab.iPKey = some c
    · rw [if_pos (show (idxDef tab ix).iPKey = some c from hpk)]
      exact congrArg some (if_pos hpk).symm
    · rw [if_neg (show (idxDef tab ix).iPKey ≠ some c from hpk), newRecord_column hterm hsize hlt, hget]
      simp only [read, if_neg hpk]
      cases (cols.getD c .null).isNull <;> rfl
  have hfields : rowFields (idxDef tab ix) junk.toJunk (⟨rowidKey w.new⟩, newRecord en cols) =
      some (ix.aiColumn.map read) := by
    rw [rowFields, indexedColumns, keyRowid_rowidKey]
    exact mapM_eq_map hcol
  have hall : List.Forall₂ (SameField ar.ld)
      ((pushedVals tab ix (.int w.new w.text) cols).map Val.toMem) (ix.aiColumn.map read) := by
    rw [pushedVals, List.map_map, List.forall₂_map_left_iff, List.forall₂_map_right_iff, List.forall₂_same]
    intro c hc
    simp only [Function.comp_apply, read]
    by_cases hpk : tab.iPKey = some c
    · rw [if_pos hpk, if_pos hpk, hw]
      exact .refl _
    · rw [if_neg hpk, if_neg hpk]
      cases hv : cols.getD c .null with
      | null => exact .refl _
      | _ =>
        have hfield := hsame ix hmem c hc hpk
        rw [hv] at hfield
        exact hfield rfl
  rw [rowKey, hfields, Option.map_some, newKey, pushedKey, makeIdxKey, makeIdxKey, makeKey_congr hall,
    keyRowid_rowidKey]

end

/-! ## Indices that are left alone -/

section
variable {L : Type} {fp : LongDouble L} {junk : Unset} {tab : Table} {g : Args} {ch : Changes}

/-- An UPDATE codes nothing for an index if and only if it assigns nothing that the index holds. -/
theorem spares_iff {ix : Index} {n : Nat} (hix : tab.pIndex[n]? = some ix) :
    ch.Spares ix ↔ (ch.idxUsed tab).getD n false = false := by
  have hcols := (tab.columns ix (List.mem_of_getElem? hix)).1
  rw [Changes.Spares, Changes.idxUsed, List.getD_eq_getElem?_getD, List.getElem?_map, hix,
    Option.map_some, Option.getD_some]
  cases hr : ch.recno with
  | none => simp
  | some v => simp [hcols]

theorem mapM_forall₂ {α β γ : Type} {f : α → Option β} {v : α → γ} {R : γ → β → Prop} : ∀ {l : List α}
    {m : List β}, l.mapM f = some m → (∀ a ∈ l, ∀ b, f a = some b → R (v a) b) →
    List.Forall₂ R (l.map v) m := by
  intro l
  induction l with
  | nil =>
    intro m h _
    rw [List.mapM_nil] at h
    cases h
    exact .nil
  | cons a l ih =>
    intro m h hR
    rw [List.mapM_cons] at h
    obtain ⟨b, hb, h⟩ := Option.bind_eq_some_iff.1 h
    obtain ⟨bs, hbs, h⟩ := Option.bind_eq_some_iff.1 h
    cases h
    exact .cons (hR a (List.mem_cons_self ..) b hb) (ih hbs fun a ha => hR a (List.mem_cons_of_mem _ ha))

theorem mapM_length {α β : Type} {f : α → Option β} {l : List α} {m : List β} (h : l.mapM f = some m) :
    m.length = l.length := by
  have hall := mapM_forall₂ (v := id) (R := fun _ _ => True) h fun _ _ _ _ => trivial
  rw [← hall.length_eq, List.length_map]

theorem updatedCols_getD {record : Bytes} {cols : List Val} (h : updatedCols junk tab ch record = some cols)
    {c : Nat} (hc : c < tab.nCol) : updatedVal junk tab ch record c = some (cols.getD c .null) := by
  have hall := mapM_forall₂ (v := id) (R := fun i v => updatedVal junk tab ch record i = some v) h
    fun _ _ _ hv => hv
  have hlen := mapM_length h
  rw [List.length_range] at hlen
  have hget := hall.get (i := c) (by simpa using hc) (by omega)
  simpa [List.getD_eq_getElem?_getD, List.getElem?_eq_getElem (hlen ▸ hc : c < cols.length)] using hget

theorem fillOne_getD {i c : Nat} {col : Column} {cols : List Val}
    (hfill : c = i → tab.iPKey ≠ some c → ∀ declared, col.notNull = some declared →
      notNullAction g col declared = .replace → (cols.getD c .null).isNull = false) :
    (fillOne tab g i col cols).getD c .null = cols.getD c .null := by
  unfold fillOne
  split
  · rfl
  rename_i hpk
  split
  · rfl
  rename_i declared hnn
  split
  · rename_i hnull
    by_cases hci : c = i
    · subst hci
      have hset := hfill rfl hpk declared hnn hnull.1
      rw [hset] at hnull
      cases hnull.2
    · rw [List.getD_eq_getElem?_getD, List.getElem?_set_ne (Ne.symm hci), ← List.getD_eq_getElem?_getD]
  · rfl

/-- A column that is not NULL is not filled. -/
theorem fillDefaults_getD (rest : List Column) : ∀ {i c : Nat} {cols : List Val},
    (∀ j col declared, rest[j]? = some col → c = i + j → tab.iPKey ≠ some c → col.notNull = some declared →
      notNullAction g col declared = .replace → (cols.getD c .null).isNull = false) →
    (fillDefaults tab g i rest cols).getD c .null = cols.getD c .null := by
  induction rest with
  | nil => exact fun _ => rfl
  | cons col rest ih =>
    intro i c cols hfill
    have hone := @fillOne_getD tab g i c col cols fun hci hpk declared =>
      hfill 0 col declared rfl hci hpk
    rw [fillDefaults, ih fun j col' declared hj hci => ?_, hone]
    rw [hone]
    exact hfill (j + 1) col' declared hj (by omega)

theorem pushedVal_isNull {out : ColumnOut} {v : Val} (h : pushedVal out = some v) (hnull : out ≠ .null) :
    v.isNull = false := by
  cases out with
  | null => exact absurd rfl hnull
  | str z =>
    cases h
    rfl
  | corrupt => cases h

/-- **An index that is left alone.** Where an UPDATE assigns nothing that the index holds, the key of
the new values is the key of the row before. -/
theorem newKey_spared {ix : Index} {r : CInt} {st : List Val} {row : Dbt × Bytes} {cols : List Val}
    {k : Dbt} (hix : ix ∈ tab.pIndex) (hspares : ch.Spares ix) (hkey : row.1 = ⟨rowidKey r⟩)
    (hcols : updatedCols junk tab ch row.2 = some cols) (hfill : Unfilled junk tab g ch row.2)
    (hk : rowKey fp junk.toJunk tab ix row = some k) :
    k = ⟨newKey fp tab ⟨r, none, r, st⟩ (fillDefaults tab g 0 tab.aCol cols) ix⟩ := by
  obtain ⟨fields, hfields, rfl⟩ := Option.map_eq_some_iff.1 hk
  rw [rowFields, indexedColumns, hkey, keyRowid_rowidKey] at hfields
  -- column by column: the field that is read from the row is that of the value that was pushed
  have hsame : List.Forall₂ (SameField fp)
      ((pushedVals tab ix (.int r none) (fillDefaults tab g 0 tab.aCol cols)).map Val.toMem) fields := by
    rw [pushedVals, List.map_map]
    refine mapM_forall₂ hfields fun c hc m hm => ?_
    have hlt := (tab.columns ix hix).2 c hc
    rw [Function.comp_apply]
    by_cases hpk : tab.iPKey = some c
    · rw [if_pos hpk]
      rw [indexedColumn, if_pos (show (idxDef tab ix).iPKey = some c from hpk)] at hm
      cases hm
      exact .refl _
    · rw [if_neg hpk]
      obtain ⟨v, hv, hvm⟩ := sameField_column (d := idxDef tab ix) hpk hm
      have hold := updatedCols_getD hcols hlt
      rw [updatedVal, if_neg hpk, hspares.2 c hc] at hold
      have hvc : cols.getD c .null = v := Option.some.inj (hold.symm.trans hv)
      have hkept : (fillDefaults tab g 0 tab.aCol cols).getD c .null = cols.getD c .null := by
        refine fillDefaults_getD tab.aCol fun j col declared hj hcj hpk hnn hact => ?_
        rw [Nat.zero_add] at hcj
        subst hcj
        rw [hvc]
        exact pushedVal_isNull hv (hfill ix hix hspares c hc col declared hj hpk hnn hact)
      rw [hkept, hvc]
      exact hvm
  rw [newKey, pushedKey, makeIdxKey, makeIdxKey, makeKey_congr hsame, hkey, keyRowid_rowidKey]

end

section
variable {L : Type} {ar : Arith L} {en : Endian} {junk : Unset} {prog : Nat → Option Op}
variable {tab : Table} {x : Ctx} {Q : Nat × Vm → Prop}

/-- The columns of an UPDATE are pushed, or a record is corrupt. -/
theorem pushUpdated_runs {cur : Nat} {ch : Changes} {c : Cursor} {z : Bytes}
    (hd : c.deferredMoveto = false) : ∀ (rest : List Nat) (a : Nat) (s : Vm),
      CodeAt prog a (rest.map (pushUpdated tab cur ch)) → s.aCsr cur = .table c →
      L3.payload s.t c = z →
      (∀ cols, rest.mapM (updatedVal junk tab ch z) = some cols →
        Ends (Row.exec ar en junk) prog Q (a + (rest.map (pushUpdated tab cur ch)).length,
          { s with stack := cols.reverse ++ s.stack })) →
      (∀ pc s', (∃ c i, prog pc = some (.column c i)) → Halted (Row.exec ar en junk) prog (pc, s') →
        s'.t = s.t → s'.idx = s.idx → Q (pc, s')) →
      Ends (Row.exec ar en junk) prog Q (a, s) := by
  intro rest
  induction rest with
  | nil =>
    intro a s _ _ _ hend _
    exact hend [] rfl
  | cons n rest ih =>
    intro a s hc hcsr hpay hend herr
    rw [List.map_cons] at hc
    have hone : ∀ v, updatedVal junk tab ch z n = some v →
        Row.exec ar en junk (pushUpdated tab cur ch n) (a, s) =
          some (a + 1, { s with stack := v :: s.stack }) →
        Ends (Row.exec ar en junk) prog Q (a, s) := fun v hv hexec => by
      refine Ends.op hc.head hexec (ih (a + 1) { s with stack := v :: s.stack } hc.tail hcsr hpay
        (fun cols hcols => ?_) herr)
      have hdone := hend (v :: cols) (by rw [List.mapM_cons, hv, hcols]; rfl)
      rw [List.map_cons, List.length_cons, Nat.add_comm (List.length _), ← Nat.add_assoc,
        List.reverse_cons, List.append_assoc] at hdone
      exact hdone
    by_cases hpk : tab.iPKey = some n
    · refine hone .null (if_pos hpk) ?_
      rw [pushUpdated, if_pos hpk]
      rfl
    cases hx : ch.xref.getD n none with
    | some v =>
      refine hone v ?_ ?_
      · rw [updatedVal, if_neg hpk, hx]
      · rw [pushUpdated, if_neg hpk, hx]
        rfl
    | none =>
      have hop : pushUpdated tab cur ch n = .column cur n := by
        rw [pushUpdated, if_neg hpk, hx]
      have hval : updatedVal junk tab ch z n = pushedVal (opColumn z n junk.hdr) := by
        rw [updatedVal, if_neg hpk, hx]
      have hexec : Row.exec ar en junk (.column cur n) (a, s) =
          (pushedVal (opColumn z n junk.hdr)).map fun v =>
            (a + 1, { s with stack := v :: s.stack }) := by
        simp only [Row.exec, execColumn, hcsr, vdbeCursorMoveto_of_not_deferred hd, hpay,
          setCsr_self hcsr]
      cases hv : pushedVal (opColumn z n junk.hdr) with
      | some v =>
        refine hone v (hval.trans hv) ?_
        rw [hop, hexec, hv]
        rfl
      | none =>
        refine .here (herr a s ⟨cur, n, hop ▸ hc.head⟩ ?_ rfl rfl)
        rw [Halted, Core.step, hc.head, hop]
        rw [hv] at hexec
        exact hexec


theorem insert_runs {keyCol : Bool} {newIdx : Option Nat} {new : CInt} {text : Option Bytes}
    {cols₀ : List Val} {a : Nat} {st : List Val} {s : Vm} (hj : junk.v.length = 4)
    (hc : CodeAt prog a ((RowStmt.insert keyCol newIdx new text cols₀).code tab x a))
    (hs : (RowStmt.insert keyCol newIdx new text cols₀).Starts ar junk tab x st s)
    (hsafe : (RowStmt.insert keyCol newIdx new text cols₀).Safe ar en junk tab x s)
    (hend : ∀ s', s'.stack = st → Consistent ar.ld junk.toJunk tab s'.t s'.idx →
      Ends (Row.exec ar en junk) prog Q
        (a + ((RowStmt.insert keyCol newIdx new text cols₀).code tab x a).length, s'))
    (hign : ∀ s', s'.stack = st → s'.t = s.t → s'.idx = s.idx →
      Ends (Row.exec ar en junk) prog Q (x.ignoreDest, s'))
    (hhalt : ∀ b s' oe msg, prog b = some (.halt .constraint oe msg) →
      (oe = .fail → s'.t = s.t ∧ s'.idx = s.idx) → Q (b, s')) :
    Ends (Row.exec ar en junk) prog Q (a, s) := by
  obtain ⟨c, hcsr⟩ := hs.cursor
  obtain ⟨hchecks, hkeys⟩ := hsafe.holds
  have hlen := hs.columns cols₀ rfl
  have hopen : UsedOpen tab s x.base fun _ => true := fun n hn _ => hs.opened n hn rfl
  simp only [RowStmt.code, insertRow, emit, List.append_nil] at hc hend
  let w : NewRow := ⟨new, text, new, st⟩
  let g := RowStmt.insertArgs x keyCol
  let g' : Args := ⟨x.base, none, false, false, x.override, x.ignoreDest, x.onError, x.trigStack,
    newIdx⟩
  have hno {p : Prop} (hu : g.update = true) : p := Bool.noConfusion hu
  refine @constraintChecks_runs L ar en junk prog tab g w _ s Q a c cols₀ hj rfl
    ⟨hchecks.fresh, hchecks.exact, hchecks.ordered, hchecks.opened, hno⟩ hlen (fun _ => rfl)
    hs.consistent hopen (fun _ _ _ => rfl) hc.left (hs.stack.trans (List.append_assoc ..)) hcsr
      (hsafe.still c hcsr) hno
    (fun pend s' h' => ?_) hign hhalt
  have hkeysOf : ∀ n, keysOf ar.ld tab g w (fillDefaults tab g 0 tab.aCol cols₀) n =
      keysOf ar.ld tab g' w (fillDefaults tab g 0 tab.aCol cols₀) n := fun n => by
    induction n with
    | zero => rfl
    | succ n ih => simp only [keysOf, ih]; rfl
  obtain ⟨s'', hst, ht, hidx, hruns⟩ := @completeInsertion_runs L ar en junk prog tab g' w
    (fillDefaults tab g 0 tab.aCol cols₀) s' _ ((fillDefaults_length ..).trans hlen) hc.right
    (hopen.like h'.stored.like) (h'.stored.like.table hcsr)
    (fun m hm => h'.stored.like.pseudo (hs.pseudo m hm))
    (h'.stack.trans (by rw [hkeysOf]; rfl))
  refine Ends.trans hruns ?_
  rw [List.length_append, ← Nat.add_assoc] at hend
  refine hend s'' hst ?_
  rw [ht, hidx]
  exact h'.stored.inserted rfl (fun _ _ => rfl) hkeys


/-- After the tests an UPDATE removes the old keys, and the row if its rowid changes, and stores
the new row. -/
theorem storeUpdated_runs {g : Args} {w : NewRow} {cols : List Val} {pend : Bool} {a : Nat} {s₀ s :
    Vm}
    {row : Dbt × Bytes} (hj : junk.v.length = 4) (hlen : cols.length = tab.nCol)
      (hu : g.update = true)
    (hself : g.twoRecnos = 0 → w.self = w.new) (hnew : g.newIdx = none)
    (hopen : UsedOpen tab s₀ g.base g.used)
    (hall : g.willRecnoChng = true → ∀ n, n < tab.pIndex.length → g.used n = true)
    (hrow : row ∈ s₀.t.entries) (hkey : row.1 = ⟨rowidKey w.self⟩)
    (hkeys : ∀ n ix, tab.pIndex[n]? = some ix →
      rowKey ar.ld junk.toJunk tab ix (⟨rowidKey w.new⟩, newRecord en cols) =
        if g.used n then some ⟨newKey ar.ld tab w cols ix⟩ else rowKey ar.ld junk.toJunk tab ix row)
    (hc : CodeAt prog a (rowIndexDelete tab g.base g.used ++
      ((if g.willRecnoChng then [Op.delete g.base false] else []) ++ completeInsertion tab g)))
    (h : Checked ar.ld junk.toJunk tab g w cols s₀ pend tab.pIndex.length s)
    (hend : ∀ s', s'.stack = w.st → Consistent ar.ld junk.toJunk tab s'.t s'.idx →
      Ends (Row.exec ar en junk) prog Q (a + (rowIndexDelete tab g.base g.used ++
        ((if g.willRecnoChng then [Op.delete g.base false] else []) ++
        completeInsertion tab g)).length,
          s')) :
    Ends (Row.exec ar en junk) prog Q (a, s) := by
  obtain ⟨c, hcsr, hp, -⟩ := h.ready
  have hin : row ∈ s.t.entries := by
    obtain ⟨e, he, hek⟩ := SortedMap.mem_iff.1 (hp hu).mem
    exact SortedMap.entry_unique (h.stored.rows e he) hrow (hek.trans hkey.symm) ▸ he
  have hkept : Kept w pend row := fun hpend hn => by
    rw [hkey, Dbt.mk.injEq, rowidKey_inj] at hn
    exact h.stored.apart hpend hu hn
  obtain ⟨s₁, hgone, hruns₁⟩ :=
    @rowIndexDelete_runs L ar en junk prog tab g.base a g.used w.self row s
    hj hc.left ⟨⟨c, hcsr, hp hu⟩, hin, hkey, hopen.like h.stored.like⟩
    fun n ix hix _ => (h.stored.synced n ix hix).complete row ⟨hin, hkept⟩
  obtain ⟨c₁, hcsr₁, hp₁, -⟩ := hgone.cursor
  have hidx₁ : s₁.idx = idxWithout ar.ld junk.toJunk tab g.used row s.idx := funext hgone.idx
  -- the row itself goes when its rowid changes
  obtain ⟨s₂, hst₂, ht₂, hidx₂, hlike₂, hruns₂⟩ : ∃ s₂, s₂.stack = s₁.stack ∧
      s₂.t = (if g.willRecnoChng then s.t.erase ⟨rowidKey w.self⟩ else s.t) ∧ s₂.idx = s₁.idx ∧
      s₁.Like s₂ ∧ Ends (Row.exec ar en junk) prog
        (· = (a + (rowIndexDelete tab g.base g.used).length +
        (if g.willRecnoChng then [Op.delete g.base false] else []).length, s₂))
        (a + (rowIndexDelete tab g.base g.used).length, s₁) := by
    cases hr : g.willRecnoChng with
    | false =>
      rw [if_neg (by simp), if_neg (by simp)]
      exact ⟨s₁, rfl, hgone.t, rfl, .refl s₁, .here rfl⟩
    | true =>
      rw [hr, if_pos rfl] at hc
      rw [if_pos rfl, if_pos rfl]
      obtain ⟨c₂, -, hexec⟩ :=
        @exec_delete L ar en junk (a + (rowIndexDelete tab g.base g.used).length)
        s₁ g.base false c₁ w.self hcsr₁ hp₁
      refine ⟨_, ?_, ?_, ?_, ?_, Ends.op hc.right.head hexec (.here rfl)⟩
      · rfl
      · exact congrArg (fun t => SortedMap.erase t ⟨rowidKey w.self⟩) hgone.t
      · rfl
      · exact (Vm.Like.refl s₁).setCsr (hcsr₁ ▸ .table c₁ c₂)
  have hlike := (h.stored.like.trans hgone.like).trans hlike₂
  obtain ⟨s₃, hst₃, ht₃, hidx₃, hruns₃⟩ :=
    @completeInsertion_runs L ar en junk prog tab g w cols s₂ _
    hlen hc.right.right (hopen.like hlike) ((hgone.like.trans hlike₂).table hcsr)
    (fun m hm => absurd (hnew.symm.trans hm) (by simp)) (hst₂.trans (hgone.stack.trans h.stack))
  refine Ends.trans hruns₁ (Ends.trans hruns₂ (Ends.trans hruns₃ ?_))
  rw [List.length_append, List.length_append, ← Nat.add_assoc, ← Nat.add_assoc] at hend
  refine hend s₃ hst₃ ?_
  rw [ht₃, ht₂, hidx₃, hidx₂, hidx₁]
  exact h.stored.updated hu hself hall hin hkey hkeys


/-- The opcodes that push the new rowid of an UPDATE. -/
def pushRecno (ch : Changes) : List Op :=
  match ch.recno with
  | none => []
  | some v => [.expr v, .mustBeInt]

theorem pushRecno_runs {ch : Changes} {r : CInt} {a : Nat} {s : Vm} {st : List Val}
    (hc : CodeAt prog a (pushRecno ch)) (hst : s.stack = .int r none :: st)
    (hend : ∀ new, updatedRowid ar ch r = some new → Ends (Row.exec ar en junk) prog Q
      (a + (pushRecno ch).length,
        { s with stack := .int new none :: if ch.recno.isSome then .int r none :: st else st }))
    (herr : ∀ pc s', prog pc = some .mustBeInt → Halted (Row.exec ar en junk) prog (pc, s') →
      s'.t = s.t → s'.idx = s.idx → Q (pc, s')) :
    Ends (Row.exec ar en junk) prog Q (a, s) := by
  rw [pushRecno] at hc hend
  rw [updatedRowid] at hend
  cases hr : ch.recno with
  | none =>
    simp only [hr, Option.isSome_none, Bool.false_eq_true, if_false] at hend
    have hdone := hend r rfl
    rw [← hst] at hdone
    exact hdone
  | some v =>
    simp only [hr, Option.isSome_some, if_true] at hc hend
    refine Ends.op hc.head rfl ?_
    cases hv : mustBeInt ar v with
    | none =>
      refine .here (herr _ _ hc.tail.head ?_ rfl rfl)
      rw [Halted, Core.step, hc.tail.head]
      simp only [Option.bind_some, Row.exec, hv, Option.map_none]
    | some i =>
      refine Ends.op (t := (a + 1 + 1, { s with stack := .int i none :: s.stack })) hc.tail.head ?_
        ?_
      · simp only [Row.exec, hv, Option.map_some]
      · rw [hst]
        exact hend i hv

theorem updateArgs_used {ch : Changes} {onError override : Option Conflict} {trigStack : Bool}
    {base addr : Nat} (h : ch.recno.isSome = true) {n : Nat} (hn : n < tab.pIndex.length) :
    (updateArgs tab base ch onError override trigStack addr).used n = true := by
  have hcols := (tab.columns _ (List.getElem_mem hn)).1
  simp only [updateArgs, Args.used, Changes.idxUsed, h, if_true, List.getD_eq_getElem?_getD,
    List.getElem?_map, List.getElem?_eq_getElem hn, Option.map_some, Option.getD_some]
  exact decide_eq_true (List.length_pos_iff.2 hcols)

theorem update_runs {ch : Changes} {r : CInt} {a : Nat} {st : List Val} {s : Vm}
    (hj : junk.v.length = 4) (hc : CodeAt prog a ((RowStmt.update ch r).code tab x a))
    (hs : (RowStmt.update ch r).Starts ar junk tab x st s)
    (hsafe : (RowStmt.update ch r).Safe ar en junk tab x s)
    (hend : ∀ s', s'.stack = st → Consistent ar.ld junk.toJunk tab s'.t s'.idx →
      Ends (Row.exec ar en junk) prog Q (a + ((RowStmt.update ch r).code tab x a).length, s'))
    (hign : ∀ s', s'.stack = st → s'.t = s.t → s'.idx = s.idx →
      Ends (Row.exec ar en junk) prog Q (x.ignoreDest, s'))
    (hhalt : ∀ b s' oe msg, prog b = some (.halt .constraint oe msg) →
      (oe = .fail → s'.t = s.t ∧ s'.idx = s.idx) → Q (b, s'))
    (herr : ∀ pc s', (prog pc = some .mustBeInt ∨ ∃ c i, prog pc = some (.column c i)) →
      Halted (Row.exec ar en junk) prog (pc, s') → s'.t = s.t → s'.idx = s.idx → Q (pc, s')) :
    Ends (Row.exec ar en junk) prog Q (a, s) := by
  obtain ⟨c, hcsr⟩ := hs.cursor
  obtain ⟨row, hrow, hkey, hvals⟩ := hsafe.holds
  have hd := hsafe.still c hcsr
  have hmem : (⟨rowidKey r⟩ : Dbt) ∈ s.t := hkey ▸ SortedMap.mem_of_entry hrow
  have hp := Points.ofNotExists hmem hd
  have hd' := (opNotExists_deferred s.t c r).trans hd
  let g := updateArgs tab x.base ch x.onError x.override x.trigStack x.ignoreDest
  have hall : g.willRecnoChng = true → ∀ n, n < tab.pIndex.length → g.used n = true :=
    fun hr n hn => updateArgs_used hr hn
  have hlike : s.Like (s.setCsr x.base (.table (opNotExists s.t c r).1)) :=
    (Vm.Like.refl s).setCsr (hcsr ▸ .table c _)
  have hopen : UsedOpen tab s x.base g.used := fun n hn hu =>
    hs.opened n hn (Bool.or_eq_true_iff.2 (.inr hu))
  have hcode : (RowStmt.update ch r).code tab x a =
      emit [fun _ => [.notExists x.base x.ignoreDest], fun _ => pushRecno ch,
        fun _ => (List.range tab.nCol).map (pushUpdated tab x.base ch), constraintChecks tab g,
        fun _ => rowIndexDelete tab x.base g.used,
        fun _ => if ch.recno.isSome then [.delete x.base false] else [],
        fun _ => completeInsertion tab g] a := rfl
  rw [hcode] at hc hend
  simp only [emit, List.append_nil] at hc hend
  -- the row is there
  refine Ends.op hc.left.head (exec_notExists (hs.stack.trans rfl) hcsr) ?_
  rw [opNotExists_mem hmem, if_neg (by simp)]
  refine pushRecno_runs hc.right.left rfl (fun new hnew => ?_) fun pc s' hpc =>
    herr pc s' (.inl hpc)
  refine pushUpdated_runs (c := (opNotExists s.t c r).1) (z := row.2) hd'
    (List.range tab.nCol) _ _
    hc.right.right.left (Function.update_self ..) ?_ (fun cols₀ hcols => ?_)
    fun pc s' hpc => herr pc s' (.inr hpc)
  · have hpay := hp.payload hrow hkey
    rw [vdbeCursorMoveto_of_not_deferred hd'] at hpay
    exact hpay
  obtain ⟨hchecks, hstored, hfill⟩ := hvals new cols₀ hnew hcols
  have hlen : cols₀.length = tab.nCol := (mapM_length hcols).trans List.length_range
  let w : NewRow := ⟨new, none, r, st⟩
  have htwo : g.twoRecnos = if ch.recno.isSome then 1 else 0 := rfl
  have hself : g.twoRecnos = 0 → w.self = w.new := by
    intro h0
    cases hr : ch.recno with
    | none =>
      rw [updatedRowid, hr] at hnew
      exact Option.some.inj hnew
    | some v =>
      rw [htwo, hr] at h0
      exact absurd h0 (by simp)
  let s₁ : Vm := { s.setCsr x.base (.table (opNotExists s.t c r).1) with
    stack := cols₀.reverse ++ .int new none :: if ch.recno.isSome then .int r none :: st else st }
  have hst₁ : s₁.stack = w.stack g [] cols₀ := by
    show cols₀.reverse ++ .int new none :: (if ch.recno.isSome then _ else st) = _
    rw [NewRow.stack, htwo]
    cases ch.recno.isSome <;> rfl
  refine @constraintChecks_runs L ar en junk prog tab g w _ s₁ Q _ _ cols₀ hj rfl
    ⟨hchecks.fresh, hchecks.exact, hchecks.ordered, fun h => (hchecks.opened h).like hlike,
      hchecks.victims⟩
    hlen hself hs.consistent (hopen.like hlike) hall hc.right.right.right.left hst₁
    (Function.update_self ..) hd' (fun _ => hp) (fun pend s' h' => ?_) hign hhalt
  have hopen₁ : UsedOpen tab s₁ x.base g.used := hopen.like hlike
  have hkeys : ∀ n ix, tab.pIndex[n]? = some ix →
      rowKey ar.ld junk.toJunk tab ix (⟨rowidKey w.new⟩, newRecord en (fillDefaults tab g 0 tab.aCol cols₀)) =
        if g.used n then some ⟨newKey ar.ld tab w (fillDefaults tab g 0 tab.aCol cols₀) ix⟩
        else rowKey ar.ld junk.toJunk tab ix row := by
    intro n ix hix
    have hput : rowKey ar.ld junk.toJunk tab ix
        (⟨rowidKey new⟩, newRecord en (fillDefaults tab g 0 tab.aCol cols₀)) = some ⟨newKey ar.ld tab w _ ix⟩ :=
      hstored n ix hix
    cases hused : g.used n with
    | true => exact hput
    | false =>
      have hspares : ch.Spares ix := (spares_iff hix).2 hused
      rw [updatedRowid, hspares.1] at hnew
      cases hnew
      obtain ⟨k, hk, -⟩ := (hs.consistent.synced n ix hix).complete row hrow
      have hsame : k = ⟨newKey ar.ld tab w (fillDefaults tab g 0 tab.aCol cols₀) ix⟩ :=
        newKey_spared (List.mem_of_getElem? hix) hspares hkey hcols hfill hk
      rw [if_neg (by simp), hk, hsame]
      exact hput
  refine storeUpdated_runs (g := g) (w := w) hj ((fillDefaults_length ..).trans hlen) rfl hself rfl
    hopen₁ hall hrow hkey hkeys hc.right.right.right.right h' fun s'' hst hcons => ?_
  have hdone := hend s'' hst hcons
  rw [List.length_append, List.length_append, List.length_append, List.length_append,
    ← Nat.add_assoc,
    ← Nat.add_assoc, ← Nat.add_assoc, ← Nat.add_assoc] at hdone
  exact hdone

/-- A row leaves the table with its keys. -/
theorem Consistent.erase {fp : LongDouble L} {t : Btree} {idx : Nat → Btree} {row : Dbt × Bytes}
    (h : Consistent fp junk.toJunk tab t idx) (hrow : row ∈ t.entries) :
    Consistent fp junk.toJunk tab (t.erase row.1)
      (idxWithout fp junk.toJunk tab (fun _ => true) row idx) := by
  have hall : Synced fp junk.toJunk tab (fun e => e ∈ t.entries ∧ True) idx :=
    fun n ix hix => (h.synced n ix hix).congr fun e => and_iff_left trivial
  refine ⟨h.table.erase row.1, fun n ix hix => ?_⟩
  exact (hall.erase h.table hrow trivial n ix hix).congr fun e => (and_iff_left trivial).symm

theorem delete_runs {count : Bool} {r : CInt} {a : Nat} {st : List Val} {s : Vm}
    (hj : junk.v.length = 4) (hc : CodeAt prog a ((RowStmt.delete count r).code tab x a))
    (hs : (RowStmt.delete count r).Starts ar junk tab x st s)
    (hsafe : (RowStmt.delete count r).Safe ar en junk tab x s)
    (hend : ∀ s', s'.stack = st → Consistent ar.ld junk.toJunk tab s'.t s'.idx →
      Ends (Row.exec ar en junk) prog Q (a + ((RowStmt.delete count r).code tab x a).length, s')) :
    Ends (Row.exec ar en junk) prog Q (a, s) := by
  obtain ⟨c, hcsr⟩ := hs.cursor
  have hcons := hs.consistent
  rcases hsafe.holds with hmem | habove
  · obtain ⟨row, hrow, hkey⟩ := SortedMap.mem_iff.1 hmem
    obtain ⟨s', hgone, hruns⟩ :=
      @rowDelete_runs L ar en junk prog tab x.base a count r none st row s c hj hc
      hs.stack hcsr (hsafe.still c hcsr) hrow hkey (fun n hn _ => hs.opened n hn rfl)
      fun n ix hix => (hcons.synced n ix hix).complete row hrow
    refine Ends.trans hruns (hend s' hgone.stack ?_)
    rw [hgone.t, hgone.idx]
    exact hcons.erase hrow
  · exact Ends.trans (rowDelete_absent hc hs.stack hcsr habove) (hend _ rfl hcons)

/-- An UPDATE of a row that has gone, when no rowid is above it, leaves the rowid on the stack. -/
theorem update_gone {ch : Changes} {r : CInt} {a : Nat} {st : List Val} {s : Vm} {c : Cursor}
    (hs : (RowStmt.update ch r).Starts ar junk tab x st s) (hcsr : s.aCsr x.base = .table c)
    (habove : ∀ k ∈ s.t, k < ⟨rowidKey r⟩) :
    step (Row.exec ar en junk) (block a ((RowStmt.update ch r).code tab x a)) (a, s) =
      some (x.ignoreDest, { s.setCsr x.base (.table (opNotExists s.t c r).1) with
        stack := .int r none :: st }) := by
  have hop := (codeAt_block a ((RowStmt.update ch r).code tab x a)).head
  rw [Core.step, hop, Option.bind_some, exec_notExists (hs.stack.trans rfl) hcsr,
    opNotExists_jumps.2 habove]
  rfl

end

/-! ## Two tables -/

/-- A table with a UNIQUE column `x` of text. -/
def oneColumn : Table :=
  ⟨ascii "t", [⟨ascii "x", none, none, true⟩], none, none, [⟨[0], some none⟩], by decide⟩

/-- Its cursors, open on nothing yet, with `st` on the stack. -/
def oneColumnVm (st : List Val) : Vm where
  stack := st
  aCsr n := if n = 0 then .table Cursor.opened else if n = 1 then .index 0 none else .closed
  t := .empty
  idx _ := .empty
  numLastChanges := 0
  numTotalChanges := 0
  lastRowid := 0

def oneColumnCtx (ignoreDest : Nat) : Ctx := ⟨0, none, none, false, ignoreDest⟩

def fourBytes : Unset := ⟨⟨[0, 0, 0, 0], [], 0, 0, 0⟩, 0⟩

theorem oneColumn_starts {stmt : RowStmt} {dest : Nat} (hnew : stmt.newIdx = none)
    (hcols : ∀ cols, stmt.cols = some cols → cols.length = 1) :
    stmt.Starts exactMachine fourBytes oneColumn (oneColumnCtx dest) []
      (oneColumnVm (stmt.pushed ++ [])) := by
  refine ⟨rfl, ⟨_, rfl⟩, fun n hn _ => ?_, fun m hm => ?_, hcols, ?_⟩
  · obtain rfl : n = 0 := Nat.lt_one_iff.1 hn
    exact ⟨none, rfl⟩
  · rw [hnew] at hm
    cases hm
  · refine ⟨fun k hk => absurd hk SortedMap.not_mem_empty, fun n ix _ =>
      ⟨fun e he => ?_, fun k hk => ?_⟩⟩
    · cases he
    · exact absurd hk SortedMap.not_mem_empty

/-- A table with a UNIQUE column `x` of text, and a column `y` of text with an index of its own. -/
def twoColumns : Table :=
  ⟨ascii "t", [⟨ascii "x", none, none, true⟩, ⟨ascii "y", none, none, true⟩], none, none,
    [⟨[0], some none⟩, ⟨[1], none⟩], by decide⟩

/-- The rows `a`, `p` and `b`, `q`, whose rowids are 1 and 2. -/
def rowA : List Val := [.str [97, 0], .str [112, 0]]

def rowB : List Val := [.str [98, 0], .str [113, 0]]

def rowNum (i : CInt) : NewRow := ⟨i, none, i, []⟩

/-- The table with both rows, and its indices. -/
def twoRowsVm (st : List Val) : Vm where
  stack := st
  aCsr n := if n = 0 then .table Cursor.opened else if n < 3 then .index (n - 1) none else .closed
  t := (SortedMap.empty.insert ⟨rowidKey 1⟩ (newRecord .little rowA)).insert ⟨rowidKey 2⟩ (newRecord .little rowB)
  idx n :=
    match twoColumns.pIndex[n]? with
    | none => .empty
    | some ix =>
      (SortedMap.empty.insert ⟨newKey exactMachine.ld twoColumns (rowNum 1) rowA ix⟩ []).insert
        ⟨newKey exactMachine.ld twoColumns (rowNum 2) rowB ix⟩ []
  numLastChanges := 0
  numTotalChanges := 0
  lastRowid := 0

/-- `UPDATE OR REPLACE t SET x = 'b'`, at the first row: the second one goes, and the index of `y` is
left alone. -/
def replaceB : RowStmt := .update ⟨none, [some (.str [98, 0]), none]⟩ 1

def replaceCtx : Ctx := ⟨0, none, some .replace, false, 0⟩

theorem twoRows_entries {e : Dbt × Bytes} {st : List Val} : e ∈ (twoRowsVm st).t.entries ↔
    e = (⟨rowidKey 1⟩, newRecord .little rowA) ∨ e = (⟨rowidKey 2⟩, newRecord .little rowB) := by
  have hne : (⟨rowidKey 1⟩ : Dbt) ≠ ⟨rowidKey 2⟩ := by decide +kernel
  have hempty : e ∉ (SortedMap.empty : Btree).entries := List.not_mem_nil
  rw [twoRowsVm, SortedMap.entry_insert, SortedMap.entry_insert]
  constructor
  · rintro (rfl | ⟨rfl | ⟨he, -⟩, -⟩)
    · exact .inr rfl
    · exact .inl rfl
    · exact absurd he hempty
  · rintro (rfl | rfl)
    · exact .inr ⟨.inl rfl, hne⟩
    · exact .inl rfl

/-- Texts come back. -/
theorem twoColumns_stored (i : CInt) (x y : UInt8) : KeysStored exactMachine .little fourBytes twoColumns
    (rowNum i) [.str [x, 0], .str [y, 0]] := by
  refine keysStored_of_text rfl rfl (fun v hv _ => ?_) ?_ fun ix hix c hc _ _ => ?_
  · simp only [List.mem_cons, List.not_mem_nil, or_false] at hv
    rcases hv with rfl | rfl
    · exact ⟨[x], rfl⟩
    · exact ⟨[y], rfl⟩
  · simp [Val.isNull, Val.text, Mem.text, Mem.asString, Val.toMem]
  · have hlt : c < 2 := (twoColumns.columns ix hix).2 c hc
    obtain rfl | rfl : c = 0 ∨ c = 1 := by omega
    · exact sameField_str [x, 0]
    · exact sameField_str [y, 0]

theorem twoRows_consistent (st : List Val) :
    Consistent exactMachine.ld fourBytes.toJunk twoColumns (twoRowsVm st).t (twoRowsVm st).idx := by
  have hempty : IsTable .empty := fun k hk => absurd hk SortedMap.not_mem_empty
  refine ⟨(hempty.insert 1 _).insert 2 _, fun n ix hix => ?_⟩
  have hnone : IndexOf (rowKey exactMachine.ld fourBytes.toJunk twoColumns ix) (fun _ => False)
      (SortedMap.empty : Btree) := ⟨fun _ => False.elim, fun k hk => absurd hk SortedMap.not_mem_empty⟩
  have hboth := (hnone.insert (twoColumns_stored 1 97 112 n ix hix) []).insert
    (twoColumns_stored 2 98 113 n ix hix) []
  have hentries (e : Dbt × Bytes) : e ∈ (twoRowsVm st).t.entries ↔
      e = (⟨rowidKey 1⟩, newRecord .little rowA) ∨ e = (⟨rowidKey 2⟩, newRecord .little rowB) := twoRows_entries
  simp only [twoRowsVm, hix]
  refine hboth.congr fun e => ?_
  rw [false_or]
  exact hentries e

theorem replaceB_starts : replaceB.Starts exactMachine fourBytes twoColumns replaceCtx []
    (twoRowsVm (replaceB.pushed ++ [])) := by
  refine ⟨rfl, ⟨_, rfl⟩, fun n hn _ => ⟨none, ?_⟩, fun m hm => ?_, fun cols hcols => ?_, twoRows_consistent _⟩
  · have hn : n < 2 := hn
    rw [replaceCtx, Nat.zero_add, twoRowsVm]
    dsimp only
    rw [if_neg (by omega), if_pos (by omega)]
    rfl
  · cases hm
  · cases hcols

theorem replaceB_safe : replaceB.Safe exactMachine .little fourBytes twoColumns replaceCtx
    (twoRowsVm (replaceB.pushed ++ [])) := by
  refine ⟨fun c hc => ?_, (⟨rowidKey 1⟩, newRecord .little rowA), twoRows_entries.2 (.inl rfl), rfl,
    fun new cols₀ hnew hcols => ?_⟩
  · cases hc
    rfl
  have hvals : updatedCols fourBytes twoColumns ⟨none, [some (.str [98, 0]), none]⟩ (newRecord .little rowA) =
    some [.str [98, 0], .str [112, 0]] := by decide +kernel
  cases hnew
  cases hvals.symm.trans hcols
  refine ⟨⟨fun h => ?_, fun h => ?_, fun n ix hix hrep => ?_, fun _ => ?_, fun _ => ?_⟩,
    twoColumns_stored 1 98 112, fun ix hix _ c _ col declared hcol _ hnn => ?_⟩
  · cases h
  · cases h
  · -- only the index of `x` is used
    have hn : n < 2 := (List.getElem?_eq_some_iff.1 hix).1
    obtain rfl | rfl : n = 0 ∨ n = 1 := by omega
    · cases hix
      show ∀ k ∈ SortedMap.keys _, _
      decide +kernel
    · cases hrep.1
  · intro n hn _
    have hopened := replaceB_starts.opened n hn rfl
    exact hopened
  · intro e he e' he' hv hv'
    rcases twoRows_entries.1 he with rfl | rfl
    · exact absurd rfl hv.1
    rcases twoRows_entries.1 he' with rfl | rfl
    · exact absurd rfl hv'.1
    rfl
  · have hnone : ∀ col ∈ twoColumns.aCol, col.notNull = none := by decide
    rw [hnone col (List.mem_of_getElem? hcol)] at hnn
    cases hnn

end Dbsql.L5.Rows
