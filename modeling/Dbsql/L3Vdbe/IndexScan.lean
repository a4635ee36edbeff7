import Dbsql.L1Encoding.IndexKey
import Dbsql.L3Vdbe.TableCursor
/-!
# Index scans (vdbe.c:2295-2306, 3710-3739)

A scan moves to the first entry at or above a bound, visits entries with `OP_Next`, and ends
at the first for which `OP_IdxGT` or `OP_IdxGE` jumps. Both ignore the rowid at the end of
the entry. `OP_IncrKey` raises the NUL that ends a bound of `m` fields, which puts it above
every entry with these first `m` fields and below all entries above them.

`Index` is the content of an index: every key is an `Entry`, the key of `n` fields and a
rowid; a `Bound` is the key of `m` fields, as `OP_MakeKey` builds it. `OP_IncrKey` has no
byte to raise in a bound of no fields, and none is coded (cg_where.c:963-976, 1203-1277).

Results:
* `entryTests`: when `OP_IdxGT`, `OP_IdxGE` and `OP_IdxLT` jump.
* `moveTo_incrKey`: `OP_MoveTo` with a raised bound skips the entries up to the bound.
* `index_scan`: these, and a scan from a bound to the raised bound visits each entry
  with these fields once, and no others.
-/
namespace Dbsql.L3
open Dbsql.Core Dbsql.L1 Dbsql.L2
open List (compareLex)

/-! ## The opcodes -/

/-- `OP_IncrKey` (vdbe.c:2295-2306): `pTos->z[pTos->n-1]++`. -/
def opIncrKey (z : Bytes) : Bytes := z.modifyLast (· + 1)

inductive IdxOp
  | lt | gt | ge
  deriving DecidableEq, Repr

/-- `OP_IdxLT`, `OP_IdxGT` and `OP_IdxGE` (vdbe.c:3710-3739): whether to jump, or `none` where
the comparison fails and the opcode ends with its bound still on the stack. -/
def opIdxCmp (t : Btree) (pC : Cursor) (op : IdxOp) (pTos : Bytes) (res : Int) : Option Bool :=
  let (rc, res) := smKeyCompare t pC.pos pTos 4 res
  if rc ≠ .success then none
  else
    let res : Int := match op with
      | .lt => -res
      | .gt => res
      | .ge => res + 1
    some (decide (0 < res))

/-- The loop of an index scan: `OP_IdxGE` on the bound, a visit, and `OP_Next`. -/
def scanLoop (t : Btree) (stop : Bytes) (res : Int) : Nat → Cursor → List Dbt
  | 0, _ => []
  | fuel + 1, pC =>
    match pC.pos, opIdxCmp t pC .ge stop res with
    | some k, some false =>
      let (pC, jump) := opNext t pC false
      k :: if jump then scanLoop t stop res fuel pC else []
    | _, _ => []

/-- A scan of an index from `start` until `stop`: `OP_MoveTo`, which jumps past the loop, and
the loop. -/
def scanIndex (t : Btree) (pC : Cursor) (p2 : Int) (start stop : Bytes) (res : Int) (fuel : Nat) :
    List Dbt :=
  let (pC, jump) := opMoveTo t pC false p2 (.str start)
  if jump then [] else scanLoop t stop res fuel pC

/-! ## Entries and bounds -/

section
variable {L : Type} {fp : LongDouble L} {p3 : Option Bytes} {n m : Nat}

/-- `n` fields and a rowid, as `OP_MakeIdxKey` takes them. -/
structure Entry (fp : LongDouble L) (p3 : Option Bytes) (n : Nat) where
  vs : List StackVal
  rowid : CInt
  length : vs.length = n
  nulFree : NulFree fp p3 vs

/-- The bytes of the fields of an entry. -/
def Entry.fields (e : Entry fp p3 n) : Bytes := makeKey fp p3 (e.vs.map (·.toMem))

def Entry.key (e : Entry fp p3 n) : Dbt := ⟨makeIdxKey fp p3 (e.vs.map (·.toMem)) e.rowid⟩

/-- The content of an index. -/
structure Index (fp : LongDouble L) (p3 : Option Bytes) (n : Nat) where
  t : Btree
  entry : ∀ k ∈ t, ∃ e : Entry fp p3 n, k = e.key

/-- `m` fields, as `OP_MakeKey` takes them. -/
structure Bound (fp : LongDouble L) (p3 : Option Bytes) (m : Nat) where
  vs : List StackVal
  length : vs.length = m
  nulFree : NulFree fp p3 vs

def Bound.key (b : Bound fp p3 m) : Bytes := makeKey fp p3 (b.vs.map (·.toMem))

/-- The first `m` fields of an entry against a bound. -/
def Entry.cmp (e : Entry fp p3 n) (b : Bound fp p3 m) : Ordering :=
  compareLex Col.keyCmp ((colsOf fp p3 e.vs).take m) (colsOf fp p3 b.vs)

/-- On exact numbers that comparison is the SQL order of the columns. -/
theorem Entry.cmp_exact (e : Entry fp p3 n) (b : Bound fp p3 m) (he : ExactNums fp p3 e.vs)
    (hb : ExactNums fp p3 b.vs) :
    e.cmp b = compareLex Col.cmp ((colsOf fp p3 e.vs).take m) (colsOf fp p3 b.vs) :=
  compare_cols (fun c hc => he c (List.mem_of_mem_take hc)) hb

/-- The fields of an entry, the first `m` of them, and those of a bound. -/
theorem Entry.split (e : Entry fp p3 n) (b : Bound fp p3 m) (hm : m ≤ n) :
    ∃ cs rest ds : List KeyCol, cs.length = ds.length ∧ ds.length = m ∧ rest.length = n - m ∧
      e.fields = cs.flatMap KeyCol.enc ++ rest.flatMap KeyCol.enc ∧ b.key = ds.flatMap KeyCol.enc ∧
      e.cmp b = compareLex (fun c d : KeyCol => c.1.keyCmp d.1) cs ds := by
  obtain ⟨cs, hlen, hcs, hkey⟩ := e.nulFree.cols
  obtain ⟨ds, hlen', hds, hkey'⟩ := b.nulFree.cols
  have he := e.length
  have hb := b.length
  refine ⟨cs.take m, cs.drop m, ds, ?_, by omega, ?_, ?_, hkey', ?_⟩
  · rw [List.length_take]
    omega
  · rw [List.length_drop]
    omega
  · rw [Entry.fields, hkey, ← List.flatMap_append, List.take_append_drop]
  · rw [Entry.cmp, hcs, hds, ← List.map_take]
    exact Lex.compareLex_map Subtype.val _ _ fun _ _ _ _ => rfl

theorem flatMap_enc_eq_nil {cs : List KeyCol} : cs.flatMap KeyCol.enc = [] ↔ cs = [] := by
  cases cs with
  | nil => simp
  | cons c cs => simp [KeyCol.enc]

theorem compareLex_nil_right (x : Bytes) :
    compareLex compare x [] = if x = [] then Ordering.eq else .gt := by
  cases x with
  | nil => rfl
  | cons => rfl

/-- An entry, or any other extension of its fields, against a bound: a longer one is greater. -/
theorem Entry.compare_bound (e : Entry fp p3 n) (b : Bound fp p3 m) (hm : m ≤ n) (x : Bytes) :
    compareLex compare (e.fields ++ x) b.key =
      (e.cmp b).then (if m = n ∧ x = [] then .eq else .gt) := by
  obtain ⟨cs, rest, ds, hlen, hds, hrest, hfields, hkey, hcmp⟩ := e.split b hm
  have hempty : rest.flatMap KeyCol.enc ++ x = [] ↔ m = n ∧ x = [] := by
    have hnm : n - m = 0 ↔ m = n := by omega
    rw [List.append_eq_nil_iff, flatMap_enc_eq_nil, ← List.length_eq_zero_iff, hrest, hnm]
  have := keyCode.concat cs ds hlen (rest.flatMap KeyCol.enc ++ x) []
  rw [List.append_nil, ← List.append_assoc, ← hfields, ← hkey, ← hcmp, compareLex_nil_right] at this
  simpa only [hempty] using this

/-- An entry against a raised bound: the entries with the fields of the bound are below it. -/
theorem Entry.compare_incrKey (e : Entry fp p3 n) (b : Bound fp p3 m) (hpos : 0 < m) (hm : m ≤ n)
    (x : Bytes) : compareLex compare (e.fields ++ x) (opIncrKey b.key) = (e.cmp b).then .lt := by
  obtain ⟨cs, rest, ds, hlen, hds, hrest, hfields, hkey, hcmp⟩ := e.split b hm
  have hne : ds ≠ [] := by
    intro h
    rw [h, List.length_nil] at hds
    omega
  have := keyCode.concat_bump cs ds hlen hne (rest.flatMap KeyCol.enc ++ x)
  rwa [← List.append_assoc, ← hfields, ← hkey, ← hcmp] at this

theorem then_gt_eq_lt {o : Ordering} : o.then .gt = .lt ↔ o = .lt := by cases o <;> decide
theorem then_lt_eq_lt {o : Ordering} : o.then .lt = .lt ↔ o ≠ .gt := by cases o <;> decide

/-- The entries at or above a bound. -/
theorem Entry.bound_le (e : Entry fp p3 n) (b : Bound fp p3 m) (hm : m ≤ n) :
    (⟨b.key⟩ : Dbt) ≤ e.key ↔ e.cmp b ≠ .lt := by
  have hne : rowidKey e.rowid ≠ [] := fun h => absurd (congrArg List.length h) (by simp)
  have hcmp : compareLex compare e.key.data b.key = (e.cmp b).then .gt := by
    have := e.compare_bound b hm (rowidKey e.rowid)
    rwa [if_neg fun h => hne h.2] at this
  rw [← not_lt, Dbt.lt_iff, hcmp, then_gt_eq_lt]

/-- The entries below a raised bound. -/
theorem Entry.lt_incrKey (e : Entry fp p3 n) (b : Bound fp p3 m) (hpos : 0 < m) (hm : m ≤ n) :
    e.key < ⟨opIncrKey b.key⟩ ↔ e.cmp b ≠ .gt := by
  rw [Dbt.lt_iff]
  exact (congrArg (· = Ordering.lt) (e.compare_incrKey b hpos hm (rowidKey e.rowid))).to_iff.trans
    then_lt_eq_lt

/-! ## The tests -/

theorem smKeyCompare_on {t : Btree} (e : Entry fp p3 n) (hk : e.key ∈ t) (value : Bytes) (res : Int) :
    smKeyCompare t (some e.key) value 4 res = (.success, smCmpValues e.fields value) := by
  obtain ⟨x, hx⟩ := Option.isSome_iff_exists.1 (SortedMap.find?_isSome.2 hk)
  obtain ⟨-, hkey⟩ := SortedMap.find?_some hx
  have hlen : (e.key.data.length : Int) - 4 = e.fields.length := by
    simp [Entry.key, makeIdxKey, Entry.fields]
  have htake : e.key.data.take e.fields.length = e.fields := List.take_left
  simp only [smKeyCompare, cGet, hx, hkey]
  rw [show ((4 : Nat) : Int) = 4 from rfl, hlen, if_neg (by omega), Int.toNat_natCast, htake]

/-- What each opcode asks of the fields of the entry. -/
def IdxOp.jumps (op : IdxOp) (o : Ordering) : Bool :=
  match op with
  | .lt => o = .lt
  | .gt => o = .gt
  | .ge => o ≠ .lt

theorem opIdxCmp_on {t : Btree} (e : Entry fp p3 n) (hk : e.key ∈ t) {pC : Cursor}
    (hc : pC.pos = some e.key) (op : IdxOp) (value : Bytes) (res : Int) :
    opIdxCmp t pC op value res = some (op.jumps (compareLex compare e.fields value)) := by
  unfold opIdxCmp
  rw [hc, smKeyCompare_on e hk, smCmpValues_eq]
  cases op <;> cases compareLex compare e.fields value <;> rfl

/-- When the tests jump on an entry. -/
structure EntryTests (ix : Index fp p3 n) (b : Bound fp p3 m) (e : Entry fp p3 n) (pC : Cursor)
    (res : Int) : Prop where
  gt : opIdxCmp ix.t pC .gt b.key res = some (decide (e.cmp b = .gt ∨ m < n ∧ e.cmp b = .eq))
  ge : 0 < m → opIdxCmp ix.t pC .ge (opIncrKey b.key) res = some (decide (e.cmp b = .gt))
  lt : opIdxCmp ix.t pC .lt b.key res = some (decide ((⟨e.fields⟩ : Dbt) < ⟨b.key⟩))

theorem entryTests (ix : Index fp p3 n) (b : Bound fp p3 m) (hm : m ≤ n) (e : Entry fp p3 n)
    (hk : e.key ∈ ix.t) (pC : Cursor) (hc : pC.pos = some e.key) (res : Int) :
    EntryTests ix b e pC res := by
  have hbound := e.compare_bound b hm []
  rw [List.append_nil] at hbound
  refine ⟨?_, fun hpos => ?_, ?_⟩
  · have hmn : m = n ∨ m < n := by omega
    rw [opIdxCmp_on e hk hc, hbound]
    rcases hmn with rfl | hlt
    · cases e.cmp b <;> simp [IdxOp.jumps]
    · cases e.cmp b <;> simp [IdxOp.jumps, hlt, hlt.ne]
  · have hincr := e.compare_incrKey b hpos hm []
    rw [List.append_nil] at hincr
    rw [opIdxCmp_on e hk hc, hincr]
    cases e.cmp b <;> rfl
  · rw [opIdxCmp_on e hk hc]
    simp only [Dbt.lt_iff, IdxOp.jumps]

/-! ## Moving to a bound -/

/-- Where `OP_MoveTo` with a string goes: to the first key at or above the string, or to P2 if
there is none. -/
theorem opMoveTo_str (t : Btree) (pC : Cursor) (p2 : Int) (z : Bytes) :
    ((opMoveTo t pC false p2 (.str z)).2 = true ↔ 0 < p2 ∧ t.ceil ⟨z⟩ = none) ∧
      ∀ x, t.ceil ⟨z⟩ = some x → (opMoveTo t pC false p2 (.str z)).1.pos = some x.1 ∧
        (opMoveTo t pC false p2 (.str z)).1.nullRow = false := by
  unfold opMoveTo
  dsimp only
  rcases smMoveto_cases t pC.pos z 0 with ⟨x, hceil, h⟩ | ⟨x, hlt, hlast, h⟩ | ⟨hno, h⟩
  · simp only [h, moveFinish, hceil]
    simp
  · have hceil : t.ceil ⟨z⟩ = none := SortedMap.ceil_eq_none.2 hlt
    have hnext : (smNext t (some x.1) (-1)).result = 1 := by
      rw [smNext_on, SortedMap.succ_eq_none.2 (SortedMap.last_some hlast).2]
    simp only [h, moveFinish, hceil, hnext]
    simp
  · have hceil : t.ceil ⟨z⟩ = none := SortedMap.ceil_eq_none.2 fun k hk => absurd hk (hno k)
    simp only [h, moveFinish, hceil, smNext_empty hno]
    simp

/-- After `OP_MoveTo` with a raised bound the cursor stands on the first entry whose fields are
above the bound; where there is none, it jumps to P2 if there is a P2. -/
structure MoveToSpec (ix : Index fp p3 n) (b : Bound fp p3 m) (p2 : Int) (pC : Cursor)
    (jumped : Bool) : Prop where
  jump : jumped = true ↔ 0 < p2 ∧ ∀ e : Entry fp p3 n, e.key ∈ ix.t → e.cmp b ≠ .gt
  skips : (∃ e : Entry fp p3 n, e.key ∈ ix.t ∧ e.cmp b = .gt) → ∃ k ∈ ix.t, pC.pos = some k ∧
    ∀ e : Entry fp p3 n, e.key ∈ ix.t → (e.key < k ↔ e.cmp b ≠ .gt)

/-- No key is at or above a raised bound if the fields of no entry are above the bound. -/
theorem ceil_incrKey_eq_none (ix : Index fp p3 n) (b : Bound fp p3 m) (hpos : 0 < m) (hm : m ≤ n) :
    ix.t.ceil ⟨opIncrKey b.key⟩ = none ↔ ∀ e : Entry fp p3 n, e.key ∈ ix.t → e.cmp b ≠ .gt := by
  rw [SortedMap.ceil_eq_none]
  refine ⟨fun h e he => (e.lt_incrKey b hpos hm).1 (h _ he), fun h k hk => ?_⟩
  obtain ⟨e, rfl⟩ := ix.entry k hk
  exact (e.lt_incrKey b hpos hm).2 (h e hk)

theorem moveTo_incrKey (ix : Index fp p3 n) (b : Bound fp p3 m) (hpos : 0 < m) (hm : m ≤ n)
    (pC : Cursor) (p2 : Int) :
    MoveToSpec ix b p2 (opMoveTo ix.t pC false p2 (.str (opIncrKey b.key))).1
      (opMoveTo ix.t pC false p2 (.str (opIncrKey b.key))).2 := by
  obtain ⟨hjump, hpos'⟩ := opMoveTo_str ix.t pC p2 (opIncrKey b.key)
  have hnone := ceil_incrKey_eq_none ix b hpos hm
  refine ⟨by rw [hjump, hnone], fun ⟨e₀, he₀, hgt⟩ => ?_⟩
  cases hceil : ix.t.ceil ⟨opIncrKey b.key⟩ with
  | none => exact absurd hgt (hnone.1 hceil e₀ he₀)
  | some x =>
    obtain ⟨hx, hle, hleast⟩ := SortedMap.ceil_some hceil
    refine ⟨x.1, SortedMap.mem_of_entry hx, (hpos' x hceil).1, fun e he => ?_⟩
    rw [← e.lt_incrKey b hpos hm]
    refine ⟨fun hlt => ?_, fun hlt => lt_of_lt_of_le hlt hle⟩
    exact not_le.1 fun hle' => absurd hlt (not_lt.2 (hleast _ he hle'))

/-! ## Scanning -/

/-- What a scan of the entries with the fields of a bound visits. -/
structure ScanSpec (ix : Index fp p3 n) (b : Bound fp p3 m) (visited : List Dbt) : Prop where
  once : visited.Pairwise (· < ·)
  entry : ∀ k ∈ visited, k ∈ ix.t
  exact : ∀ e : Entry fp p3 n, e.key ∈ ix.t → (e.key ∈ visited ↔ e.cmp b = .eq)

/-- The loop is the scan of the sorted map for as long as the entry is below the raised bound. -/
theorem scanLoop_eq (ix : Index fp p3 n) (b : Bound fp p3 m) (hpos : 0 < m) (hm : m ≤ n) (res : Int)
    (fuel : Nat) : ∀ (x : Dbt × Bytes) (pC : Cursor), x ∈ ix.t.entries → pC.pos = some x.1 →
      pC.nullRow = false → scanLoop ix.t (opIncrKey b.key) res fuel pC =
        (ix.t.scan (fun x => decide (x.1 < ⟨opIncrKey b.key⟩)) fuel (some x)).map Prod.fst := by
  induction fuel with
  | zero =>
    intro x pC hx hc hn
    rfl
  | succ fuel ih =>
    intro x pC hx hc hn
    obtain ⟨e, he⟩ := ix.entry x.1 (SortedMap.mem_of_entry hx)
    have hmem : e.key ∈ ix.t := he ▸ SortedMap.mem_of_entry hx
    have htest := (entryTests ix b hm e hmem pC (he ▸ hc) res).ge hpos
    have hgo := e.lt_incrKey b hpos hm
    rw [← he] at hgo
    rw [scanLoop, SortedMap.scan, hc, htest]
    by_cases hgt : e.cmp b = .gt
    · rw [hgt] at hgo
      simp [hgt, hgo]
    · rw [if_pos (decide_eq_true (hgo.2 hgt)), List.map_cons, decide_eq_false hgt]
      dsimp only
      congr 1
      cases hsucc : ix.t.succ x.1 with
      | none =>
        simp only [opNext, hn, hc, smNext_on, hsucc]
        cases fuel <;> rfl
      | some y =>
        obtain ⟨hy, -⟩ := SortedMap.succ_some hsucc
        have hnext := ih y (opNext ix.t pC false).1 hy
        simp only [opNext, hn, hc, smNext_on, hsucc] at hnext ⊢
        exact hnext rfl rfl

theorem scanIndex_spec (ix : Index fp p3 n) (b : Bound fp p3 m) (hpos : 0 < m) (hm : m ≤ n)
    (pC : Cursor) {p2 : Int} (hp2 : 0 < p2) (res : Int) {fuel : Nat}
    (hf : ix.t.entries.length ≤ fuel) :
    ScanSpec ix b (scanIndex ix.t pC p2 b.key (opIncrKey b.key) res fuel) := by
  -- the scan is a filter of the entries between the bound and the raised bound
  have hscan : scanIndex ix.t pC p2 b.key (opIncrKey b.key) res fuel = (ix.t.entries.filter fun x =>
      decide (⟨b.key⟩ ≤ x.1) && decide (x.1 < ⟨opIncrKey b.key⟩)).map Prod.fst := by
    obtain ⟨hjump, hto⟩ := opMoveTo_str ix.t pC p2 b.key
    have hfilter := @SortedMap.scan_eq_filter _ _ _ ix.t ⟨b.key⟩
      (fun x => decide (x.1 < ⟨opIncrKey b.key⟩)) ?_ fuel hf
    · rw [← hfilter]
      unfold scanIndex
      dsimp only
      cases hceil : ix.t.ceil ⟨b.key⟩ with
      | none =>
        rw [if_pos (hjump.2 ⟨hp2, hceil⟩)]
        cases fuel <;> rfl
      | some x =>
        have hno : ¬ (opMoveTo ix.t pC false p2 (.str b.key)).2 = true := by
          rw [hjump, hceil]
          exact fun h => Option.some_ne_none x h.2
        obtain ⟨hc, hn⟩ := hto x hceil
        rw [if_neg hno]
        exact scanLoop_eq ix b hpos hm res fuel x _ (SortedMap.ceil_some hceil).1 hc hn
    · intro x _ y _ hxy hy
      exact decide_eq_true (lt_trans hxy (of_decide_eq_true hy))
  have hmem : ∀ k, k ∈ scanIndex ix.t pC p2 b.key (opIncrKey b.key) res fuel ↔
      k ∈ ix.t ∧ ⟨b.key⟩ ≤ k ∧ k < ⟨opIncrKey b.key⟩ := by
    intro k
    rw [hscan, List.mem_map, SortedMap.mem_iff]
    simp only [List.mem_filter, Bool.and_eq_true, decide_eq_true_eq]
    refine ⟨fun ⟨x, ⟨hx, hle, hlt⟩, hk⟩ => ⟨⟨x, hx, hk⟩, hk ▸ hle, hk ▸ hlt⟩,
      fun ⟨⟨x, hx, hk⟩, hle, hlt⟩ => ⟨x, ⟨hx, hk ▸ hle, hk ▸ hlt⟩, hk⟩⟩
  refine ⟨?_, fun k hk => ((hmem k).1 hk).1, fun e he => ?_⟩
  · rw [hscan, List.pairwise_map]
    exact ix.t.sorted.filter _
  · rw [hmem, e.bound_le b hm, e.lt_incrKey b hpos hm]
    cases e.cmp b <;> simp [he]

/-- What a bound promises of every entry, of `OP_MoveTo` and of scans. -/
structure BoundSpec (ix : Index fp p3 n) (b : Bound fp p3 m) : Prop where
  tests : ∀ (e : Entry fp p3 n) pC res, e.key ∈ ix.t → pC.pos = some e.key → EntryTests ix b e pC res
  moveTo : 0 < m → ∀ pC p2, MoveToSpec ix b p2
    (opMoveTo ix.t pC false p2 (.str (opIncrKey b.key))).1
    (opMoveTo ix.t pC false p2 (.str (opIncrKey b.key))).2
  scan : 0 < m → ∀ pC p2 res fuel, 0 < p2 → ix.t.entries.length ≤ fuel →
    ScanSpec ix b (scanIndex ix.t pC p2 b.key (opIncrKey b.key) res fuel)
  exact : ∀ e : Entry fp p3 n, ExactNums fp p3 e.vs → ExactNums fp p3 b.vs →
    e.cmp b = compareLex Col.cmp ((colsOf fp p3 e.vs).take m) (colsOf fp p3 b.vs)

/-- **Index scans.** For every index and every bound of at most as many fields, the tests of a
scan compare the first fields of the entry with the bound, a raised bound skips the entries up
to it, and a scan visits exactly the entries with the fields of the bound, each once. -/
theorem index_scan (ix : Index fp p3 n) (b : Bound fp p3 m) (hm : m ≤ n) : BoundSpec ix b :=
  ⟨fun e pC res he hc => entryTests ix b hm e he pC hc res,
    fun hpos pC p2 => moveTo_incrKey ix b hpos hm pC p2,
    fun hpos pC _ res _ hp2 hf => scanIndex_spec ix b hpos hm pC hp2 res hf,
    fun e he hb => e.cmp_exact b he hb⟩

end

/-- The entry of integer fields. -/
def intEntry (is : List CInt) (rowid : CInt) : Entry exactArith none is.length :=
  ⟨is.map intVal, rowid, List.length_map _, nulFree_ints is⟩

/-- The index of one row with the fields 5 and 7. -/
def oneRow : Index exactArith none 2 where
  t := SortedMap.empty.insert (intEntry [5, 7] 1).key []
  entry k hk := by
    rcases SortedMap.mem_insert.1 hk with rfl | hk
    · exact ⟨_, rfl⟩
    · exact absurd hk SortedMap.not_mem_empty

theorem index_scan_oneRow : BoundSpec oneRow (⟨[intVal 5], rfl, nulFree_ints [5]⟩ : Bound exactArith none 1) :=
  index_scan oneRow _ (by decide)

end Dbsql.L3
