import Dbsql.L5Codegen.InTerm
import Dbsql.L5Codegen.MinMax
import Mathlib.Data.List.Nodup
/-!
# Loops driven by an IN term (cg_where.c:846-977, 1394-1419)

Where the left side of an IN is the rowid or the first column of an index, the loop over the
table goes over the elements of the right side instead: for each, to the row with that rowid,
or to the entries of the index that begin with the key of the element. The term is not tested
again. An element is a string; what a pass of the loop works on is the rowid that `OP_Recno`
pushes and the record that `OP_Column` reads.

Results:
* `rowid_sameRows_iff`, `index_sameRows_iff`: the loop passes once over each row with a true IN
  and over nothing else, exactly when each such row belongs to one element and no other row to
  any.
* `in_term_iff`: these, and the test of an IN by its code.
-/
namespace Dbsql.L5.InLoop
open Dbsql.Core Dbsql.L1 Dbsql.L2 Dbsql.L3 Dbsql.L3.Stack
open List (compareLex)
open Dbsql.L5.MinMax (opIdxRecno moveKey opIdxRecno_on)

/-! ## Passes -/

/-- What a pass of the loop works on. -/
structure Pass where
  recno : L3.Out
  row : Option Dbt
  deriving DecidableEq

def passOf (t : Btree) (pC : Cursor) (junk : MinMax.Junk) : Pass :=
  let (pC, recno) := opRecno t pC (store .big junk.v)
  ⟨recno, pC.pos⟩

/-- The pass over a row. -/
def Pass.of (k : Dbt) : Pass := ⟨.int (keyRowid k.data), some k⟩

/-- The cursors of the table and of the index. -/
structure Cursors where
  table : Cursor
  index : Cursor

/-! ## By rowid -/

section
variable {L : Type} (ar : Arith L)

/-- `OP_MustBeInt` (vdbe.c:1380-1425): the integer, or `none` where it jumps. -/
def opMustBeInt : Val → Option CInt
  | .int i _ => some i
  | .real r => if r.toRat = some (ar.toInt r).toInt then some (ar.toInt r) else none
  | .str z =>
    let (v, ok) := dbsqlAtoi z
    if ok then some v
    else if strIsNumeric z then
      let r := dbsqlAtof ar.ld z
      if r.toRat = some (ar.toInt r).toInt then some (ar.toInt r) else none
    else none
  | .null => none

/-- One element: `OP_MustBeInt`, `OP_NotExists`, and a pass (cg_where.c:891-894). -/
def rowidPass (t : Btree) (junk : MinMax.Junk) (z : Bytes) (c : Cursors) : List Pass × Cursors :=
  match opMustBeInt ar (.str z) with
  | none => ([], c)
  | some i =>
    let (pC, jump) := opNotExists t c.table i
    (if jump then [] else [passOf t pC junk], { c with table := pC })

/-! ## By an index -/

/-- `OP_IdxIsNull` (vdbe.c:3750-3772): whether one of the first `p1` fields of a key is NULL. -/
def opIdxIsNull : Nat → Bytes → Bool
  | 0, _ | _, [] => false
  | i + 1, c :: z => c = 97 || opIdxIsNull i ((c :: z).dropWhile (· ≠ 0)).tail

/-- The loop of an equality on the first column: the test on `stop`, `OP_IdxIsNull`,
`OP_IdxRecno`, `OP_MoveTo`, a pass, and `OP_Next` (cg_where.c:978-994). -/
def equalLoop (t ixt : Btree) (junk : MinMax.Junk) (op : IdxOp) (stop : Bytes) (res : Int) :
    Nat → Cursors → List Pass × Cursors
  | 0, c => ([], c)
  | fuel + 1, c =>
    match c.index.pos, opIdxCmp ixt c.index op stop res with
    | some k, some false =>
      let isNull := opIdxIsNull 1 k.data
      let pTos := opIdxRecno ixt c.index junk
      let pC := if isNull then c.table else (opMoveTo t c.table false 0 (moveKey pTos)).1
      let pass := if isNull then [] else [passOf t pC junk]
      let (pIdx, jump) := opNext ixt c.index false
      let rest := if jump then equalLoop t ixt junk op stop res fuel ⟨pC, pIdx⟩ else ([], ⟨pC, pIdx⟩)
      (pass ++ rest.1, rest.2)
    | _, _ => ([], c)

/-- The key of an element, which is never NULL. -/
def elemKey (p3 : Option Bytes) (z : Bytes) : Bytes := (opMakeKey ar.ld 0 p3 [.ofBytes z]).2.z

/-- One element: `OP_MakeKey`, `OP_IncrKey` where the index has more columns, `OP_MoveTo` and the
loop (cg_where.c:957-995). -/
def indexPass {tab : Table} (ix : TableIndex ar tab) (junk : MinMax.Junk) (brk res : Int) (fuel : Nat)
    (z : Bytes) (c : Cursors) : List Pass × Cursors :=
  let key := elemKey ar ix.p3 z
  let (pIdx, jump) := opMoveTo ix.t c.index false brk (.str key)
  let c := { c with index := pIdx }
  if jump then ([], c)
  else if ix.aiColumn.length = 1 then equalLoop tab.t ix.t junk .gt key res fuel c
  else equalLoop tab.t ix.t junk .ge (opIncrKey key) res fuel c

/-! ## Over the elements -/

/-- The elements: the keys of the set, or of the table. -/
def texts : Rhs → List Bytes
  | .list es => setOf es
  | .select vs => (tableOf vs).keys.map Dbt.data

/-- The passes for each element in turn. -/
def elemLoop (pass : Bytes → Cursors → List Pass × Cursors) : List Bytes → Cursors → List Pass
  | [], _ => []
  | z :: zs, c => (pass z c).1 ++ elemLoop pass zs (pass z c).2

/-- `OP_SetFirst` and `OP_SetNext`, or `OP_Rewind`, `OP_FullKey` and `OP_Next`, around the passes.
Behind an empty set `OP_SetNext` asserts that there was an element; `later` says that the set
exists without one because a later one does. -/
def inLoop (pass : Bytes → Cursors → List Pass × Cursors) (pSelect later : Bool) (zs : List Bytes)
    (c : Cursors) : Option (List Pass) :=
  if !pSelect && zs.isEmpty && later then none else some (elemLoop pass zs c)

/-- A pass over each row with a true IN, in the order of a full scan. -/
def trueRows (tab : Table) (rhs : Rhs) (x : Dbt → Val) : List Pass :=
  (tab.t.keys.filter fun k => rhs.truth ar (x k) = some true).map Pass.of

/-- The value of a column of a row. -/
def columnValue (tab : Table) (col : Nat) (k : Dbt) : Val :=
  match tab.column k col with
  | .str z => .str z
  | _ => .null

/-- The rowid of a row. -/
def rowidValue (k : Dbt) : Val := .int (keyRowid k.data) none

/-- The loop, in whatever order its elements come and wherever the cursors stand, passes over
the rows with a true IN. -/
def SameRows (tab : Table) (rhs : Rhs) (later : Bool) (x : Dbt → Val)
    (pass : Bytes → Cursors → List Pass × Cursors) : Prop :=
  ∀ zs c, zs.Perm (texts rhs) → c.table.deferredMoveto = false →
    ∃ ps, inLoop pass rhs.pSelect later zs c = some ps ∧ ps.Perm (trueRows ar tab rhs x)

/-- The set, if there is one, is not empty. -/
def HasElem (rhs : Rhs) (later : Bool) : Prop :=
  (rhs.pSelect || !(texts rhs).isEmpty || !later) = true

end

/-! ## Counting -/

section
variable {α β : Type} [DecidableEq β]

/-- A list of passes over the elements is a set of rows when each of these comes from one
element and nothing else from any. -/
theorem perm_flatMap_iff {zs : List α} {f : α → List β} {l : List β} (hf : ∀ z, (f z).Nodup)
    (hl : l.Nodup) :
    (zs.flatMap f).Perm l ↔ ∀ a, zs.countP (fun z => a ∈ f z) = if a ∈ l then 1 else 0 := by
  have hcount (a : β) : (zs.flatMap f).count a = zs.countP fun z => a ∈ f z := by
    induction zs with
    | nil => rfl
    | cons z zs ih =>
      rw [List.flatMap_cons, List.count_append, List.countP_cons, ih, (hf z).count, Nat.add_comm]
      simp
  rw [List.perm_iff_count]
  exact forall_congr' fun a => by rw [hcount, hl.count]

end

section
variable {pass : Bytes → Cursors → List Pass × Cursors} {f : Bytes → List Pass}
variable {P : Cursors → Prop}

theorem elemLoop_eq {zs : List Bytes} {c : Cursors}
    (h : ∀ z ∈ zs, ∀ c, P c → (pass z c).1 = f z ∧ P (pass z c).2) (hc : P c) :
    elemLoop pass zs c = zs.flatMap f := by
  induction zs generalizing c with
  | nil => rfl
  | cons z zs ih =>
    obtain ⟨hz, hnext⟩ := h z (List.mem_cons_self ..) c hc
    rw [elemLoop, List.flatMap_cons, hz, ih (fun z hz => h z (List.mem_cons_of_mem _ hz)) hnext]

end

theorem Pass.of_inj {k k' : Dbt} (h : Pass.of k = Pass.of k') : k = k' := by
  injection h with _ h
  injection h

section
variable {L : Type} {ar : Arith L} {tab : Table} {rhs : Rhs} {later : Bool} {x : Dbt → Val}

theorem mem_trueRows {a : Pass} : a ∈ trueRows ar tab rhs x ↔
    ∃ k ∈ tab.t, rhs.truth ar (x k) = some true ∧ Pass.of k = a := by
  simp only [trueRows, List.mem_map, List.mem_filter, decide_eq_true_eq, and_assoc]
  rfl

theorem nodup_keys (t : Btree) : t.keys.Nodup := by
  rw [SortedMap.keys, List.Nodup, List.pairwise_map]
  exact t.sorted.imp fun h => h.ne

theorem nodup_trueRows : (trueRows ar tab rhs x).Nodup :=
  List.Nodup.map (fun _ _ h => Pass.of_inj h) ((nodup_keys tab.t).filter _)

/-- The rows are the same when each with a true IN comes from one element. -/
theorem sameRows_iff {pass : Bytes → Cursors → List Pass × Cursors} {f : Bytes → List Pass}
    {P : Cursors → Prop} (hf : ∀ z, (f z).Nodup) (hP : ∀ c, c.table.deferredMoveto = false → P c)
    (h : ∀ z ∈ texts rhs, ∀ c, P c → (pass z c).1 = f z ∧ P (pass z c).2) :
    SameRows ar tab rhs later x pass ↔ HasElem rhs later ∧
      ∀ a, (texts rhs).countP (fun z => a ∈ f z) = if a ∈ trueRows ar tab rhs x then 1 else 0 := by
  have hloop {zs : List Bytes} {c : Cursors} (hp : zs.Perm (texts rhs))
      (hc : c.table.deferredMoveto = false) : elemLoop pass zs c = zs.flatMap f :=
    elemLoop_eq (fun z hz => h z (hp.mem_iff.1 hz)) (hP c hc)
  have hhas {zs : List Bytes} (hp : zs.Perm (texts rhs)) :
      (!rhs.pSelect && zs.isEmpty && later) = false ↔ HasElem rhs later := by
    rw [HasElem, hp.isEmpty_eq]
    cases rhs.pSelect <;> cases (texts rhs).isEmpty <;> cases later <;> decide
  constructor
  · intro hs
    obtain ⟨ps, hps, hperm⟩ := hs (texts rhs) ⟨.opened, .opened⟩ (.refl _) rfl
    unfold inLoop at hps
    split at hps
    · cases hps
    · rename_i hne
      cases hps
      rw [hloop (.refl _) rfl] at hperm
      exact ⟨(hhas (.refl _)).1 (Bool.eq_false_iff.2 hne),
        (perm_flatMap_iff hf nodup_trueRows).1 hperm⟩
  · rintro ⟨he, hcount⟩ zs c hp hc
    refine ⟨zs.flatMap f, ?_, ?_⟩
    · rw [inLoop, (hhas hp).2 he, hloop hp hc]
      rfl
    · exact (hp.flatMap_right f).trans ((perm_flatMap_iff hf nodup_trueRows).2 hcount)

end

/-! ## The passes of an element -/

section
variable {L : Type} {ar : Arith L} {tab : Table}

/-- Behind a deferred move to a row. -/
theorem passOf_moveTo {i : CInt} (h : (⟨rowidKey i⟩ : Dbt) ∈ tab.t) (pC : Cursor) (junk : MinMax.Junk) :
    passOf tab.t (opMoveTo tab.t pC false 0 (.int i)).1 junk = .of ⟨rowidKey i⟩ := by
  simp [passOf, opRecno, opMoveTo, vdbeCursorMoveto, smMoveto_mem h, Pass.of]

/-- What `OP_NotExists` finds for an integer: the first row at or above it. -/
def rowAt (t : Btree) (i : CInt) : Option Dbt := (t.ceil ⟨rowidKey i⟩).map Prod.fst

/-- The passes of an element for the rowid. -/
def rowidPasses (ar : Arith L) (t : Btree) (z : Bytes) : List Pass :=
  ((opMustBeInt ar (.str z)).bind fun i => (rowAt t i).map fun k => ⟨.int i, some k⟩).toList

theorem rowidPass_eq (junk : MinMax.Junk) (z : Bytes) (c : Cursors)
    (hc : c.table.deferredMoveto = false) :
    (rowidPass ar tab.t junk z c).1 = rowidPasses ar tab.t z ∧
      (rowidPass ar tab.t junk z c).2.table.deferredMoveto = false := by
  unfold rowidPass rowidPasses
  cases opMustBeInt ar (.str z) with
  | none => exact ⟨rfl, hc⟩
  | some i =>
    dsimp only [Option.bind_some]
    rcases smMoveto_cases tab.t c.table.pos (rowidKey i) 0 with ⟨e, hceil, h⟩ | ⟨e, hlt, -, h⟩ | ⟨hno, h⟩
    · simp [opNotExists, h, rowAt, hceil, passOf, opRecno, vdbeCursorMoveto, hc]
    · have hceil : tab.t.ceil ⟨rowidKey i⟩ = none := SortedMap.ceil_eq_none.2 hlt
      simp [opNotExists, h, rowAt, hceil, hc]
    · have hceil : tab.t.ceil ⟨rowidKey i⟩ = none :=
        SortedMap.ceil_eq_none.2 fun k hk => absurd hk (hno k)
      simp [opNotExists, h, rowAt, hceil, hc]

/-- The key of an element as a bound. -/
def elemBound (ar : Arith L) (p3 : Option Bytes) {z : Bytes} (hz : ∃ s, z = s ++ [0] ∧ 0 ∉ s) :
    Bound ar.ld p3 1 where
  vs := [⟨.ofBytes z, by unfold Mem.ofBytes; split <;> simp, fun _ => hz.imp fun _ h => h.1⟩]
  length := rfl
  nulFree := by
    obtain ⟨s, rfl, hs⟩ := hz
    intro c hc
    rw [colsOf, List.mapIdx_singleton, List.mem_singleton] at hc
    have hflags : (Mem.ofBytes (s ++ [0])).flags.null = false ∧
        (Mem.ofBytes (s ++ [0])).flags.str = true := by
      unfold Mem.ofBytes
      split <;> exact ⟨rfl, rfl⟩
    have htext : (Mem.ofBytes (s ++ [0])).text.dropLast = s := by
      rw [Mem.text_of_str hflags.2]
      exact List.dropLast_concat
    subst hc
    unfold colOf
    rw [htext]
    split
    · trivial
    · split
      · exact hs
      · split
        · trivial
        · split
          · trivial
          · split
            · trivial
            · exact hs

/-- The strings that begin with `q` and a NUL are those from there to `q` and a raised NUL. -/
theorem prefix_iff_between (q k : Bytes) :
    q ++ [0] <+: k ↔ (⟨q ++ [0]⟩ : Dbt) ≤ ⟨k⟩ ∧ (⟨k⟩ : Dbt) < ⟨q ++ [1]⟩ := by
  rw [← not_lt, Dbt.lt_iff, Dbt.lt_iff]
  dsimp only
  induction q generalizing k with
  | nil =>
    cases k with
    | nil => decide
    | cons c k =>
      have hend : compareLex compare k [] ≠ .lt := by
        rw [compareLex_nil_right]
        split <;> decide
      rw [List.nil_append, List.nil_append, List.compareLex_cons_cons, List.compareLex_cons_cons,
        List.singleton_prefix_cons_iff]
      by_cases hc : c = 0
      · subst hc
        have h1 : compare (0 : UInt8) 1 = .lt := by decide
        simp [hend, h1]
      · have h1 : compare c 1 ≠ .lt := by
          rw [Ne, compare_byte_lt_iff, UInt8.lt_iff_toNat_lt]
          intro h
          exact hc (UInt8.toNat_inj.1 (Nat.lt_one_iff.1 h))
        have hthen : (compare c 1).then (compareLex compare k []) ≠ .lt := by
          cases h : compare c 1 with
          | lt => exact absurd h h1
          | eq => exact hend
          | gt => simp
        simp [hthen, Ne.symm hc]
  | cons b q ih =>
    cases k with
    | nil => simp [List.compareLex_nil_cons]
    | cons c k =>
      rw [List.cons_append, List.cons_append, List.compareLex_cons_cons, List.compareLex_cons_cons,
        List.cons_prefix_cons]
      cases h : compare c b with
      | lt =>
        have hne : b ≠ c := by
          rintro rfl
          simp at h
        simp [hne]
      | eq =>
        have hbc : c = b := Std.LawfulEqCmp.eq_of_compare h
        simp [hbc, ih]
      | gt =>
        have hne : b ≠ c := by
          rintro rfl
          simp at h
        simp [hne]

/-- The key of an element is a column and a NUL, and the column is not NULL. -/
theorem elemKey_eq (p3 : Option Bytes) {z : Bytes} (hz : ∃ s, z = s ++ [0] ∧ 0 ∉ s) :
    ∃ c q, elemKey ar p3 z = (c :: q) ++ [0] ∧ c ≠ 97 ∧ c ≠ 0 := by
  have hkey : elemKey ar p3 z = (colsOf ar.ld p3 (elemBound ar p3 hz).vs).flatMap
      fun c => c.body ++ [0] := by
    rw [← makeKey_eq]
    rfl
  rw [colsOf, elemBound, List.mapIdx_singleton, List.flatMap_singleton] at hkey
  have hnull : (Mem.ofBytes z).flags.null = false := by
    unfold Mem.ofBytes
    split <;> rfl
  have hbody : ∃ c q, (colOf ar.ld (isTextCol p3 0) (.ofBytes z)).body = c :: q ∧ c ≠ 97 ∧ c ≠ 0 := by
    unfold colOf
    rw [if_neg (by simp [hnull])]
    split
    · exact ⟨_, _, rfl, by decide, by decide⟩
    · split
      · exact ⟨_, _, rfl, by decide, by decide⟩
      · split
        · exact ⟨_, _, rfl, by decide, by decide⟩
        · split
          · exact ⟨_, _, rfl, by decide, by decide⟩
          · exact ⟨_, _, rfl, by decide, by decide⟩
  obtain ⟨c, q, hq, hne⟩ := hbody
  exact ⟨c, q, by rw [hkey, hq], hne⟩

/-- The entries that begin with the key of an element are those from it to the raised key. -/
theorem elemKey_prefix (p3 : Option Bytes) {z : Bytes} (hz : ∃ s, z = s ++ [0] ∧ 0 ∉ s) (k : Dbt) :
    elemKey ar p3 z <+: k.data ↔ ⟨elemKey ar p3 z⟩ ≤ k ∧ k < ⟨opIncrKey (elemKey ar p3 z)⟩ := by
  obtain ⟨c, q, hkey, -⟩ : ∃ c q, elemKey ar p3 z = (c :: q) ++ [0] ∧ c ≠ 97 ∧ c ≠ 0 :=
    elemKey_eq p3 hz
  have hincr : opIncrKey (elemKey ar p3 z) = (c :: q) ++ [1] := by
    rw [hkey, opIncrKey, List.modifyLast_concat]
    rfl
  rw [hincr, hkey]
  exact prefix_iff_between _ _

/-- Such an entry is not NULL. -/
theorem elemKey_notNull (p3 : Option Bytes) {z : Bytes} (hz : ∃ s, z = s ++ [0] ∧ 0 ∉ s) {k : Dbt}
    (h : elemKey ar p3 z <+: k.data) : opIdxIsNull 1 k.data = false := by
  obtain ⟨c, q, hkey, hne, -⟩ : ∃ c q, elemKey ar p3 z = (c :: q) ++ [0] ∧ c ≠ 97 ∧ c ≠ 0 :=
    elemKey_eq p3 hz
  obtain ⟨rest, hrest⟩ := h
  rw [← hrest, hkey, List.cons_append, List.cons_append, opIdxIsNull]
  simp [hne, opIdxIsNull]

section
variable {ix : TableIndex ar tab} {junk : MinMax.Junk} {op : IdxOp} {stop key : Bytes} {res : Int}

/-- The loop goes on below the raised key, and passes over the rows of the entries that are not
NULL. -/
theorem equalLoop_eq
    (htest : ∀ k ∈ ix.t, ∀ pC : Cursor, pC.pos = some k →
      opIdxCmp ix.t pC op stop res = some !decide (k < ⟨opIncrKey key⟩))
    (fuel : Nat) : ∀ (e : Dbt × Bytes) (c : Cursors), e ∈ ix.t.entries → c.index.pos = some e.1 →
      c.index.nullRow = false → (equalLoop tab.t ix.t junk op stop res fuel c).1 =
        (((ix.t.scan (fun e => decide (e.1 < ⟨opIncrKey key⟩)) fuel (some e)).map Prod.fst).filter
          fun k => !opIdxIsNull 1 k.data).map fun k => .of (rowKey k) := by
  induction fuel with
  | zero =>
    intro e c he hc hn
    rfl
  | succ fuel ih =>
    intro e c he hc hn
    have hmem := SortedMap.mem_of_entry he
    obtain ⟨e', hkey, hrow, -⟩ := ix.entry e.1 hmem
    have hpass : passOf tab.t
        (opMoveTo tab.t c.table false 0 (moveKey (opIdxRecno ix.t c.index junk))).1 junk =
          .of (rowKey e.1) := by
      rw [hkey, rowKey_key] at hrow ⊢
      rw [opIdxRecno_on e' (hkey ▸ hmem) (hkey ▸ hc)]
      exact passOf_moveTo hrow _ _
    have htest := htest e.1 hmem c.index hc
    by_cases hlt : e.1 < ⟨opIncrKey key⟩
    · rw [decide_eq_true hlt, Bool.not_true] at htest
      have hrest (pC : Cursor) : (if (opNext ix.t c.index false).2 then
          equalLoop tab.t ix.t junk op stop res fuel ⟨pC, (opNext ix.t c.index false).1⟩
          else ([], ⟨pC, (opNext ix.t c.index false).1⟩)).1 =
          (((ix.t.scan (fun e => decide (e.1 < ⟨opIncrKey key⟩)) fuel (ix.t.succ e.1)).map
            Prod.fst).filter fun k => !opIdxIsNull 1 k.data).map fun k => .of (rowKey k) := by
        cases hsucc : ix.t.succ e.1 with
        | none =>
          simp only [opNext, hn, hc, smNext_on, hsucc]
          cases fuel <;> rfl
        | some y =>
          obtain ⟨hy, -⟩ := SortedMap.succ_some hsucc
          have hnext := ih y ⟨pC, (opNext ix.t c.index false).1⟩ hy
          simp only [opNext, hn, hc, smNext_on, hsucc] at hnext ⊢
          exact hnext rfl rfl
      rw [equalLoop, SortedMap.scan, hc, htest, if_pos (decide_eq_true hlt), List.map_cons,
        List.filter_cons]
      dsimp only
      rw [hrest]
      cases opIdxIsNull 1 e.1.data with
      | true => rfl
      | false => exact congrArg (· :: _) hpass
    · rw [decide_eq_false hlt, Bool.not_false] at htest
      rw [equalLoop, SortedMap.scan, hc, htest, if_neg (by simpa using hlt)]
      rfl

/-- The passes of an element for the index. -/
def indexPasses (ix : TableIndex ar tab) (z : Bytes) : List Pass :=
  (ix.t.keys.filter fun k => (elemKey ar ix.p3 z).isPrefixOf k.data).map fun k => .of (rowKey k)

theorem indexPass_eq {brk : Int} {fuel : Nat} (hcol : ix.aiColumn ≠ []) (hbrk : 0 < brk)
    (hf : ix.t.entries.length ≤ fuel) {z : Bytes} (hz : ∃ s, z = s ++ [0] ∧ 0 ∉ s) (c : Cursors) :
    (indexPass ar ix junk brk res fuel z c).1 = indexPasses ix z := by
  have hlen : 0 < ix.aiColumn.length := List.length_pos_of_ne_nil hcol
  have hindex : ∀ k ∈ ix.t, ∃ e : Entry ar.ld ix.p3 ix.aiColumn.length, k = e.key :=
    fun k hk => (ix.entry k hk).imp fun _ h => h.1
  have hloop {op : IdxOp} {stop : Bytes} (htest : ∀ k ∈ ix.t, ∀ pC : Cursor, pC.pos = some k →
      opIdxCmp ix.t pC op stop res = some !decide (k < ⟨opIncrKey (elemKey ar ix.p3 z)⟩))
      {pC : Cursor} {e : Dbt × Bytes} (hceil : ix.t.ceil ⟨elemKey ar ix.p3 z⟩ = some e)
      (hpos : pC.pos = some e.1) (hn : pC.nullRow = false) :
      (equalLoop tab.t ix.t junk op stop res fuel { c with index := pC }).1 = indexPasses ix z := by
    have hdown : ∀ a ∈ ix.t.entries, ∀ b ∈ ix.t.entries, a.1 < b.1 →
        decide (b.1 < ⟨opIncrKey (elemKey ar ix.p3 z)⟩) = true →
        decide (a.1 < ⟨opIncrKey (elemKey ar ix.p3 z)⟩) = true := fun _ _ _ _ hab hb =>
      decide_eq_true (lt_trans hab (of_decide_eq_true hb))
    rw [equalLoop_eq htest fuel e _ (SortedMap.ceil_some hceil).1 hpos hn, ← hceil,
      SortedMap.scan_eq_filter ix.t _ hdown hf, indexPasses, SortedMap.keys, List.filter_map,
      List.filter_map, List.filter_filter]
    congr 2
    apply List.filter_congr
    intro x hx
    rw [Bool.eq_iff_iff]
    simp only [Function.comp, Bool.and_eq_true, decide_eq_true_eq, List.isPrefixOf_iff_prefix,
      ← elemKey_prefix ix.p3 hz, Bool.not_eq_true']
    exact ⟨fun h => h.2, fun h => ⟨elemKey_notNull ix.p3 hz h, h⟩⟩
  obtain ⟨hjump, hto⟩ := opMoveTo_str ix.t c.index brk (elemKey ar ix.p3 z)
  unfold indexPass
  cases hceil : ix.t.ceil ⟨elemKey ar ix.p3 z⟩ with
  | none =>
    have hnone : indexPasses ix z = [] := by
      have hlt := SortedMap.ceil_eq_none.1 hceil
      rw [indexPasses, List.map_eq_nil_iff, List.filter_eq_nil_iff]
      intro k hk hp
      have hk : k ∈ ix.t := by
        obtain ⟨e, he, rfl⟩ := List.mem_map.1 hk
        exact SortedMap.mem_of_entry he
      rw [List.isPrefixOf_iff_prefix, elemKey_prefix ix.p3 hz] at hp
      exact absurd (hlt k hk) (not_lt.2 hp.1)
    rw [hnone]
    dsimp only
    rw [if_pos (hjump.2 ⟨hbrk, hceil⟩)]
  | some e =>
    have hno : ¬ (opMoveTo ix.t c.index false brk (.str (elemKey ar ix.p3 z))).2 = true := by
      rw [hjump, hceil]
      exact fun h => Option.some_ne_none e h.2
    obtain ⟨hpos, hn⟩ := hto e hceil
    have hb : (elemBound ar ix.p3 hz).key = elemKey ar ix.p3 z := rfl
    have htests (e : Entry ar.ld ix.p3 ix.aiColumn.length) (he : e.key ∈ ix.t) (pC : Cursor)
        (hc : pC.pos = some e.key) :=
      entryTests ⟨ix.t, hindex⟩ (elemBound ar ix.p3 hz) hlen e he pC hc res
    have hraised (e : Entry ar.ld ix.p3 ix.aiColumn.length) :
        decide (e.cmp (elemBound ar ix.p3 hz) = .gt) =
          !decide (e.key < ⟨opIncrKey (elemKey ar ix.p3 z)⟩) := by
      rw [← hb, Bool.eq_iff_iff]
      simp [e.lt_incrKey (elemBound ar ix.p3 hz) Nat.one_pos hlen]
    dsimp only
    rw [if_neg hno]
    split
    · rename_i hone
      refine hloop (fun k hk pC hc => ?_) hceil hpos hn
      obtain ⟨e, rfl⟩ := hindex k hk
      rw [← hraised e, ← hb, (htests e hk pC hc).gt]
      simp [hone]
    · refine hloop (fun k hk pC hc => ?_) hceil hpos hn
      obtain ⟨e, rfl⟩ := hindex k hk
      rw [← hraised e, ← hb, (htests e hk pC hc).ge Nat.one_pos]

end

end

/-! ## When the rows are the same -/

section
variable {L : Type} {ar : Arith L} {tab : Table} {rhs : Rhs} {later : Bool} {junk : MinMax.Junk}

/-- Each integer among the elements is a rowid, or above all; a row with a true IN belongs to
one element, and another to none. -/
def RowidElems (ar : Arith L) (tab : Table) (rhs : Rhs) : Prop :=
  (∀ z ∈ texts rhs, ∀ i, opMustBeInt ar (.str z) = some i →
    (∃ k ∈ tab.t, (⟨rowidKey i⟩ : Dbt) ≤ k) → (⟨rowidKey i⟩ : Dbt) ∈ tab.t) ∧
  ∀ k ∈ tab.t, (texts rhs).countP (fun z => opMustBeInt ar (.str z) = some (keyRowid k.data)) =
    if rhs.truth ar (rowidValue k) = some true then 1 else 0

/-- The entry of a row with a true IN begins with the key of one element, and that of another
with none. -/
def IndexElems (ix : TableIndex ar tab) (col : Nat) (rhs : Rhs) : Prop :=
  ∀ k ∈ ix.t, (texts rhs).countP (fun z => (elemKey ar ix.p3 z).isPrefixOf k.data) =
    if rhs.truth ar (columnValue tab col (rowKey k)) = some true then 1 else 0

theorem rowAt_mem {i : CInt} (h : (⟨rowidKey i⟩ : Dbt) ∈ tab.t) : rowAt tab.t i = some ⟨rowidKey i⟩ := by
  obtain ⟨e, hceil⟩ : ∃ e, tab.t.ceil ⟨rowidKey i⟩ = some e :=
    Option.ne_none_iff_exists'.1 fun hnone => lt_irrefl _ (SortedMap.ceil_eq_none.1 hnone _ h)
  rw [rowAt, hceil, Option.map_some, (SortedMap.ceil_key_eq_iff hceil).2 h]

theorem mem_rowidPasses {z : Bytes} {a : Pass} : a ∈ rowidPasses ar tab.t z ↔
    ∃ i k, opMustBeInt ar (.str z) = some i ∧ rowAt tab.t i = some k ∧ a = ⟨.int i, some k⟩ := by
  rw [rowidPasses, Option.mem_toList, Option.bind_eq_some_iff]
  simp only [Option.map_eq_some_iff]
  constructor
  · rintro ⟨i, hi, k, hk, rfl⟩
    exact ⟨i, k, hi, hk, rfl⟩
  · rintro ⟨i, k, hi, hk, rfl⟩
    exact ⟨i, hi, k, hk, rfl⟩

/-- An element passes over a row when it reads as its rowid. -/
theorem of_mem_rowidPasses {z : Bytes} {k : Dbt} (hk : k ∈ tab.t) :
    Pass.of k ∈ rowidPasses ar tab.t z ↔ opMustBeInt ar (.str z) = some (keyRowid k.data) := by
  obtain ⟨r, rfl⟩ := tab.isTable k hk
  rw [mem_rowidPasses]
  constructor
  · rintro ⟨i, k', hi, -, h⟩
    injection h with h _
    injection h with h
    rw [hi, h]
  · intro hi
    rw [keyRowid_rowidKey] at hi
    exact ⟨r, _, hi, rowAt_mem hk, by rw [Pass.of, keyRowid_rowidKey]⟩

theorem of_mem_trueRows {x : Dbt → Val} {k : Dbt} (hk : k ∈ tab.t) :
    Pass.of k ∈ trueRows ar tab rhs x ↔ rhs.truth ar (x k) = some true := by
  rw [mem_trueRows]
  constructor
  · rintro ⟨k', -, h, he⟩
    rwa [← Pass.of_inj he]
  · intro h
    exact ⟨k, hk, h, rfl⟩

/-- **By rowid.** -/
theorem rowid_sameRows_iff : SameRows ar tab rhs later rowidValue (rowidPass ar tab.t junk) ↔
    HasElem rhs later ∧ RowidElems ar tab rhs := by
  have hnodup (z : Bytes) : (rowidPasses ar tab.t z).Nodup := by
    unfold rowidPasses
    cases (opMustBeInt ar (.str z)).bind _ with
    | none => exact List.nodup_nil
    | some a => exact List.nodup_singleton a
  rw [sameRows_iff hnodup (fun c hc => hc) fun z _ c hc => rowidPass_eq junk z c hc]
  apply and_congr_right
  intro _
  constructor
  · intro h
    refine ⟨fun z hz i hi ⟨k, hk, hle⟩ => ?_, fun k hk => ?_⟩
    · -- the row that is found is the row asked for
      obtain ⟨e, hceil⟩ : ∃ e, tab.t.ceil ⟨rowidKey i⟩ = some e :=
        Option.ne_none_iff_exists'.1 fun hnone =>
          absurd (SortedMap.ceil_eq_none.1 hnone k hk) (not_lt.2 hle)
      have ha : (⟨.int i, some e.1⟩ : Pass) ∈ rowidPasses ar tab.t z :=
        mem_rowidPasses.2 ⟨i, e.1, hi, by rw [rowAt, hceil]; rfl, rfl⟩
      have hpos : 0 < (texts rhs).countP fun z => (⟨.int i, some e.1⟩ : Pass) ∈ rowidPasses ar tab.t z :=
        List.countP_pos_iff.2 ⟨z, hz, decide_eq_true ha⟩
      rw [h] at hpos
      split at hpos
      · rename_i hmem
        obtain ⟨k', hk', -, hof⟩ := mem_trueRows.1 hmem
        obtain ⟨r, rfl⟩ := tab.isTable k' hk'
        injection hof with hr _
        injection hr with hr
        rw [keyRowid_rowidKey] at hr
        rwa [← hr]
      · exact absurd hpos (Nat.lt_irrefl 0)
    · have := h (.of k)
      simpa only [of_mem_rowidPasses hk, of_mem_trueRows hk] using this
  · rintro ⟨hrow, hcount⟩ a
    by_cases ha : ∃ k ∈ tab.t, a = .of k
    · obtain ⟨k, hk, rfl⟩ := ha
      simpa only [of_mem_rowidPasses hk, of_mem_trueRows hk] using hcount k hk
    · have hfalse : a ∉ trueRows ar tab rhs rowidValue := fun h => by
        obtain ⟨k, hk, -, rfl⟩ := mem_trueRows.1 h
        exact ha ⟨k, hk, rfl⟩
      rw [if_neg hfalse, List.countP_eq_zero]
      intro z hz hmem
      obtain ⟨i, k, hi, hk, rfl⟩ := mem_rowidPasses.1 (of_decide_eq_true hmem)
      have hin : (⟨rowidKey i⟩ : Dbt) ∈ tab.t := by
        obtain ⟨e, hceil, rfl⟩ := Option.map_eq_some_iff.1 hk
        obtain ⟨he, hle, -⟩ := SortedMap.ceil_some hceil
        exact hrow z hz i hi ⟨e.1, SortedMap.mem_of_entry he, hle⟩
      rw [rowAt_mem hin, Option.some_inj] at hk
      refine ha ⟨_, hin, ?_⟩
      rw [Pass.of, keyRowid_rowidKey, hk]

theorem nodup_indexPasses (ix : TableIndex ar tab) (z : Bytes) : (indexPasses ix z).Nodup := by
  refine List.Nodup.map_on ?_ ((nodup_keys ix.t).filter _)
  have hmem {k : Dbt} (hk : k ∈ ix.t.keys.filter fun k => (elemKey ar ix.p3 z).isPrefixOf k.data) :
      k ∈ ix.t := by
    obtain ⟨e, he, rfl⟩ := List.mem_map.1 (List.mem_of_mem_filter hk)
    exact SortedMap.mem_of_entry he
  exact fun k hk k' hk' h => ix.unique k (hmem hk) k' (hmem hk') (Pass.of_inj h)

/-- An element passes over the row of an entry when the entry begins with its key. -/
theorem of_mem_indexPasses {ix : TableIndex ar tab} {z : Bytes} {k : Dbt} (hk : k ∈ ix.t) :
    Pass.of (rowKey k) ∈ indexPasses ix z ↔ (elemKey ar ix.p3 z).isPrefixOf k.data = true := by
  rw [indexPasses, List.mem_map]
  constructor
  · rintro ⟨k', hk', h⟩
    obtain ⟨hmem, hp⟩ := List.mem_filter.1 hk'
    obtain ⟨e, he, rfl⟩ := List.mem_map.1 hmem
    rwa [← ix.unique _ (SortedMap.mem_of_entry he) k hk (Pass.of_inj h)]
  · intro hp
    exact ⟨k, List.mem_filter.2 ⟨hk, hp⟩, rfl⟩

/-- **By an index.** -/
theorem index_sameRows_iff {ix : TableIndex ar tab} {col : Nat} {brk res : Int} {fuel : Nat}
    (hcol : ix.aiColumn.head? = some col) (hbrk : 0 < brk) (hf : ix.t.entries.length ≤ fuel)
    (hz : ∀ z ∈ texts rhs, ∃ s, z = s ++ [0] ∧ 0 ∉ s) :
    SameRows ar tab rhs later (columnValue tab col) (indexPass ar ix junk brk res fuel) ↔
      HasElem rhs later ∧ IndexElems ix col rhs := by
  have hne : ix.aiColumn ≠ [] := fun h => by
    rw [h] at hcol
    cases hcol
  have hpass : ∀ z ∈ texts rhs, ∀ c, True → (indexPass ar ix junk brk res fuel z c).1 =
      indexPasses ix z ∧ True := fun z hz' c _ => ⟨indexPass_eq hne hbrk hf (hz z hz') c, trivial⟩
  rw [sameRows_iff (nodup_indexPasses ix) (fun _ _ => trivial) hpass]
  apply and_congr_right
  intro _
  have hrow {k : Dbt} (hk : k ∈ ix.t) : rowKey k ∈ tab.t := by
    obtain ⟨e, rfl, h, -⟩ := ix.entry k hk
    exact h
  constructor
  · intro h k hk
    have := h (.of (rowKey k))
    simpa only [of_mem_indexPasses hk, of_mem_trueRows (hrow hk), Bool.decide_eq_true] using this
  · intro h a
    by_cases ha : ∃ k ∈ ix.t, a = .of (rowKey k)
    · obtain ⟨k, hk, rfl⟩ := ha
      simpa only [of_mem_indexPasses hk, of_mem_trueRows (hrow hk), Bool.decide_eq_true] using h k hk
    · have hfalse : a ∉ trueRows ar tab rhs (columnValue tab col) := fun h => by
        obtain ⟨k, hk, -, rfl⟩ := mem_trueRows.1 h
        obtain ⟨k', hk', rfl⟩ := ix.complete k hk
        exact ha ⟨k', hk', rfl⟩
      rw [if_neg hfalse, List.countP_eq_zero]
      intro z hz hmem
      obtain ⟨k, hk, rfl⟩ := List.mem_map.1 (of_decide_eq_true hmem)
      obtain ⟨e, he, rfl⟩ := List.mem_map.1 (List.mem_of_mem_filter hk)
      exact ha ⟨e.1, SortedMap.mem_of_entry he, rfl⟩

end

/-! ## IN and the equalities -/

/-- The right side as the code has it: the text of an integer is its own, and a text ends at
its NUL. -/
structure Valid (rhs : Rhs) : Prop where
  spelled : ∀ e ∈ rhs.values, Spelled e
  terminated : ∀ z ∈ texts rhs, ∃ s, z = s ++ [0] ∧ 0 ∉ s

section
variable {L : Type} (ar : Arith L)

/-- The code of `x IN (...)` and of `x NOT IN (...)` yields what the equalities say. -/
def Tests (env : Env) (g : Gen) (left : Expr) (iTable : Nat) (rhs : Rhs) (x : Val) : Prop :=
  Yields ar env g (.in_ left rhs.pSelect iTable) (rhs.truth ar x) ∧
    Yields ar env g (.not (.in_ left rhs.pSelect iTable)) (not3 (rhs.truth ar x))

/-- **An IN is an equality with one of the values**: as a test, exactly when its left side is
NULL or texts decide as `OP_Eq` does; as the loop over an index or over rowids, exactly when the
elements find each row with a true IN once and no other row. -/
theorem in_term_iff (rhs : Rhs) (hr : Valid rhs) :
    (∀ env g left iTable x, compiles g left = true → exprValue ar env g .code left = some x →
      Filled env iTable rhs → Spelled x →
      (Tests ar env g left iTable rhs x ↔ x.isNull = true ∨ rhs.ArAsEq ar x)) ∧
    (∀ tab later (ix : TableIndex ar tab) col junk brk res fuel, ix.aiColumn.head? = some col →
      0 < brk → ix.t.entries.length ≤ fuel →
      (SameRows ar tab rhs later (columnValue tab col) (indexPass ar ix junk brk res fuel) ↔
        HasElem rhs later ∧ IndexElems ix col rhs)) ∧
    ∀ tab later junk, SameRows ar tab rhs later rowidValue (rowidPass ar tab.t junk) ↔
      HasElem rhs later ∧ RowidElems ar tab rhs :=
  ⟨fun _ _ _ _ _ hc hv hf hs => in_yields_iff hc hv hf hs hr.spelled,
    fun _ _ _ _ _ _ _ _ hcol hbrk hf => index_sameRows_iff hcol hbrk hf hr.terminated,
    fun _ _ _ => rowid_sameRows_iff⟩

end

/-- The environment in which the right side has been filled in. -/
def filledEnv (rhs : Rhs) : Env :=
  { emptyEnv with aSet := fun _ => rhs.holds, found := fun _ => rhs.holds }

theorem filledEnv_filled (rhs : Rhs) (iTable : Nat) : Filled (filledEnv rhs) iTable rhs := by
  intro z
  cases rhs.pSelect <;> rfl

/-- The list of one integer literal. -/
def literal (token : String) : Rhs := .list [.lit .integer (ascii token)]

theorem literal_valid_one : Valid (literal "1") where
  spelled e he i z h := by
    rw [List.mem_singleton.1 he] at h
    cases h
    decide
  terminated z hz := by
    rw [List.mem_singleton.1 hz]
    exact ⟨[49], rfl, by decide⟩

/-- `1 IN (1)`, and the column or the rowid of a table in `(1)`. -/
theorem in_term_iff_one :
    Tests exactMachine (filledEnv (literal "1")) ⟨false, none⟩ (.lit .integer (ascii "1")) 0
      (literal "1") (litVal .integer (ascii "1")) ∧
    SameRows exactMachine MinMax.twoRows (literal "1") true (columnValue MinMax.twoRows 0)
      (indexPass exactMachine MinMax.twoRowsIndex ⟨0, 0, [], []⟩ 7 0 2) ∧
    SameRows exactMachine MinMax.twoRows (literal "1") true rowidValue
      (rowidPass exactMachine MinMax.twoRows.t ⟨0, 0, [], []⟩) := by
  obtain ⟨htest, hindex, hrowid⟩ := in_term_iff exactMachine (literal "1") literal_valid_one
  refine ⟨(htest _ _ _ 0 _ rfl rfl (filledEnv_filled _ 0) ?_).2 (.inr ?_),
    (hindex _ _ _ 0 _ 7 0 2 rfl (by decide) (by decide)).2 ⟨rfl, ?_⟩,
    (hrowid _ _ _).2 ⟨rfl, ?_, ?_⟩⟩
  · intro i z h
    cases h
    decide
  · refine ⟨fun _ => ⟨_, List.mem_singleton_self _, rfl⟩, fun e he hn => ?_⟩
    rw [List.mem_singleton.1 he] at hn
    cases hn
  · intro k hk
    rcases List.mem_pair.1 hk with rfl | rfl <;> decide
  · intro z hz i hi
    rw [List.mem_singleton.1 hz] at hi
    cases hi
    intro _
    decide
  · intro k hk
    rcases List.mem_pair.1 hk with rfl | rfl <;> decide

/-- `1 IN (01)` is false, though `1 = 01`. -/
theorem in_term_fails :
    (literal "01").truth exactMachine (litVal .integer (ascii "1")) = some true ∧
    Yields exactMachine (filledEnv (literal "01")) ⟨false, none⟩
      (.in_ (.lit .integer (ascii "1")) false 0) (some false) ∧
    ¬ Tests exactMachine (filledEnv (literal "01")) ⟨false, none⟩ (.lit .integer (ascii "1")) 0
      (literal "01") (litVal .integer (ascii "1")) := by
  have htruth : (literal "01").truth exactMachine (litVal .integer (ascii "1")) = some true := by
    decide
  have hfalse : Yields exactMachine (filledEnv (literal "01")) ⟨false, none⟩
      (.in_ (.lit .integer (ascii "1")) false 0) (some false) :=
    (in_yields (g := ⟨false, none⟩) (x := litVal .integer (ascii "1")) rfl rfl).1
  refine ⟨htruth, hfalse, fun ⟨h, _⟩ => ?_⟩
  rw [htruth] at h
  cases h.unique hfalse

end Dbsql.L5.InLoop
