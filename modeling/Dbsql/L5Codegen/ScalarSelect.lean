import Dbsql.L1Encoding.Record
import Dbsql.L5Codegen.FirstRow
/-!
# The value of a scalar sub-select (cg_select.c, vdbe.c)

With the destination `SRT_Mem` the inner loop stores the first row that it comes to in a memory cell
and leaves, and so does the tail behind a sorter. `__select` stores NULL before its loop. But
`__multi_select` does not, and `__min_max_query` returns before that; and the two SELECTs of a UNION
ALL both store, one after the other, NULL and then their own first row. What goes into the sorter is
made a text (`OP_SortPut`), where NULL is the empty one.

`value` is the column of a row, NULL or its text with the terminator. A cell that has not been
stored is no NULL; and code that runs again finds what it has left there.

Results:
* `mem_load_first_iff`: exactly when the cell holds the column of the first row that the SELECT
  delivers, or NULL where it delivers none.
-/
namespace Dbsql.L5.Query
open Dbsql.Core Dbsql.L1 Dbsql.L2

/-! ## The code -/

/-- A SELECT without its `pPrior`. -/
structure Leaf where
  select : Select
  /-- the row of `__min_max_query`, if it answers the SELECT -/
  minMax : Option Row

/-- The same as a SELECT with a loop. -/
def Leaf.toSelect (s : Leaf) : Select :=
  match s.minMax with
  | none => s.select
  | some r => { s.select with scan := ⟨[r], fun _ => true, false⟩ }

/-- A sub-select, with its `pPrior`. -/
inductive Sub
  | one (s : Leaf)
  | compound (prior : Sub) (op : SetOp) (s : Leaf)

/-- The sub-select as a statement. -/
def Sub.chain : Sub → Chain
  | .one s => .one s.toSelect
  | .compound prior op s => .compound prior.chain op s.toSelect

section
variable (le : Bytes → Bytes → Bool) (value : Bytes → Option Bytes)

/-- The loop of `__select_inner_loop` with `SRT_Mem` and no ORDER BY (cg_select.c:540-588, 658-659).
The DISTINCT table is empty until a row is stored. -/
def memLoop (test : Row → Bool) (distinct : Bool) :
    List Row → Limits → Cell → Option (Limits × Cell)
  | [], l, cell => some (l, cell)
  | r :: rs, l, cell =>
    if test r then do
      let (c, l) ← countRow l
      match c with
      | .cont => memLoop test distinct rs l cell
      | .brk => some (l, cell)
      | .pass =>
        if distinct && alreadyExists .empty r.key then memLoop test distinct rs l cell
        else some (l, some (value r.image))
    else memLoop test distinct rs l cell

/-- `OP_SortPut` and `OP_SortNext`: what becomes of a value in the sorter. -/
def sortedValue (image : Bytes) : Option Bytes := some ((value image).getD [0])

/-- The loop of `__generate_sort_tail` with `SRT_Mem` (cg_select.c:736-746, 769-773). -/
def memTail : List Row → Limits → Cell → Option (Limits × Cell)
  | [], l, cell => some (l, cell)
  | r :: rs, l, cell => do
    let (c, l) ← countRow l
    match c with
    | .cont => memTail rs l cell
    | .brk => some (l, cell)
    | .pass => some (l, some (sortedValue value r.image))

/-- A loop with its tail; into the sorter the rows go as with every destination. -/
def memScan (c : Scan) (orderBy : Bool) (l : Limits) (cell : Cell) : Option (Limits × Cell) :=
  if orderBy then do
    let s ← loop c.test c.distinct true .callback c.rows ⟨l, .empty, [], .empty⟩
    memTail value (opSort le s.pSort) s.limits cell
  else memLoop value c.test c.distinct c.rows l cell

/-- `__select` of a single SELECT (cg_select.c:2632-2769, 2322-2350). -/
def memOne (s : Leaf) (orderBy : Bool) (nLimit nOffset : CInt) (l : Limits) (cell : Cell) :
    Option (Limits × Cell) :=
  let l := computeLimitRegisters nLimit nOffset true l
  match s.minMax with
  | some r => memLoop value (fun _ => true) false [r] l cell
  | none => memScan le value s.select.scan orderBy l (some none)

/-- The temporary table of a compound, and the test of its loop (cg_select.c:1639-1699,
1738-1777). -/
def tempTable (prior : Chain) (op : SetOp) (s : Select) (orderBy : Bool) :
    Option (List Bytes × (Bytes → Bool)) :=
  if op = .intersect then do
    let (_, tab1) ← select le prior .union none prior.last.nLimit prior.last.nOffset .empty
    let (_, tab2) ← selectOne le s .union orderBy (-1) 0 .none .empty
    some (imagesOf tab1.set, alreadyExists tab2.set)
  else
    let priorOp := if op = .all then Dest.table else .union
    let rightOp := if op = .all then Dest.table else if op = .except then .except else .union
    do
      let (_, tab) ← select le prior priorOp none prior.last.nLimit prior.last.nOffset .empty
      let (_, tab) ← selectOne le s rightOp false (-1) 0 .none tab
      some (if op = .all then tab.rows else imagesOf tab.set, fun _ => true)

/-- `__select` and `__multi_select` with `SRT_Mem`. -/
def memSelect : Sub → Option (Bytes → Bytes) → CInt → CInt → Cell → Option (Limits × Cell)
  | .one s, orderBy, nLimit, nOffset, cell =>
    memOne le value s orderBy.isSome nLimit nOffset .none cell
  | .compound prior op s, orderBy, nLimit, nOffset, cell =>
    if op = .all ∧ orderBy.isNone then do
      let (l, cell) ← memSelect prior none nLimit nOffset cell
      memOne le value s false (-1) 0 l cell
    else do
      let (rows, test) ← tempTable le prior.chain op s.toSelect orderBy.isSome
      memScan le value ⟨rows.map (tempRow orderBy), fun r => test r.image, false⟩ orderBy.isSome
        (computeLimitRegisters nLimit nOffset (!rows.isEmpty) .none) cell

/-- `OP_MemLoad` after the code of a sub-select, which finds `cell`. -/
def memLoad (c : Sub) (cell : Cell) : Option Cell :=
  (memSelect le value c c.chain.last.orderBy c.chain.last.nLimit c.chain.last.nOffset cell).map
    (·.2)

/-! ## What it is to do -/

/-- The column of the first of these rows, or NULL. -/
def firstValue (rows : List Bytes) : Option Bytes := rows.head?.bind value

/-- Its loop. -/
def Leaf.loop (s : Leaf) : MemLoop := ⟨s.minMax.isNone, s.toSelect.scan.tested⟩

/-- The loops of a sub-select without ORDER BY: those of a UNION ALL, or one. -/
def Sub.loops : Sub → List MemLoop
  | .one s => [s.loop]
  | .compound prior .all s => prior.loops ++ [s.loop]
  | .compound prior op s =>
    [⟨false, (Chain.compound prior.chain op s.toSelect).images.map (tempRow none)⟩]

/-- The row goes through a sorter. -/
def Sub.sorts (c : Sub) : Bool :=
  c.chain.last.orderBy.isSome && match c with
    | .one s => s.minMax.isNone
    | .compound _ _ _ => true

/-- It is a UNION ALL without ORDER BY. -/
def Sub.isUnionAll (c : Sub) : Bool :=
  c.chain.last.orderBy.isNone && match c with
    | .compound _ .all _ => true
    | _ => false

/-- NULL is stored before a row. -/
def Sub.clears : Sub → Bool
  | .one s => s.minMax.isNone
  | .compound prior op s =>
    (Sub.compound prior op s).isUnionAll && (Sub.compound prior op s).loops.any (·.clears)

/-- When the cell holds what it should, if `rows` is what the SELECT delivers. -/
structure Sub.HoldsWhen (c : Sub) (cell : Cell) (rows : List Bytes) : Prop where
  /-- with an empty result, somebody has stored NULL -/
  empty : rows = [] → c.clears = false → cell = some none
  /-- the first row of a sorter is not NULL -/
  text : c.sorts = true → ∀ image ∈ rows.head?, value image ≠ none
  /-- the SELECTs of a UNION ALL that come after the one with the first row write nothing, or the
  same -/
  alone : c.isUnionAll = true → rows ≠ [] → ∀ v ∈
    lastWrite value 0 ((limitOf c.chain.last.nLimit).map (· - 1))
      (behind c.chain.last.nOffset.toInt.toNat c.loops), v = firstValue value rows

end

variable {le : Bytes → Bytes → Bool} {value : Bytes → Option Bytes} {l l' : Limits} {cell : Cell}
  {nLimit nOffset : CInt}

/-- What the loop leaves in the cell. -/
theorem memLoop_eq (test : Row → Bool) (distinct : Bool) (rows : List Row) :
    memLoop value test distinct rows l cell = (firstPass (rows.filter test) l).map fun p =>
      (p.2, (p.1.map fun r => some (value r.image)).getD cell) := by
  induction rows generalizing l with
  | nil => rfl
  | cons r rows ih =>
    rw [memLoop]
    by_cases ht : test r = true
    · rw [if_pos ht, List.filter_cons_of_pos ht, firstPass]
      cases countRow l with
      | none => rfl
      | some cl =>
        obtain ⟨c, l₁⟩ := cl
        cases c with
        | cont => exact ih
        | brk => rfl
        | pass => simp [alreadyExists_empty]
    · rw [if_neg ht, List.filter_cons_of_neg ht, ih]

theorem memTail_eq (rows : List Row) :
    memTail value rows l cell = (firstPass rows l).map fun p =>
      (p.2, (p.1.map fun r => some (sortedValue value r.image)).getD cell) := by
  induction rows generalizing l with
  | nil => rfl
  | cons r rows ih =>
    rw [memTail, firstPass]
    cases countRow l with
    | none => rfl
    | some cl =>
      obtain ⟨c, l₁⟩ := cl
      cases c with
      | cont => exact ih
      | brk => rfl
      | pass => rfl

/-! ## Without ORDER BY -/

/-- A single SELECT is a loop. -/
theorem memOne_eq (s : Leaf) (nLimit nOffset : CInt) :
    memOne le value s false nLimit nOffset l cell =
      runLoops value [s.loop] (computeLimitRegisters nLimit nOffset true l) cell := by
  unfold memOne Leaf.loop Leaf.toSelect
  cases s.minMax with
  | none =>
    dsimp only [memScan]
    rw [if_neg Bool.false_ne_true, memLoop_eq]
    simp only [runLoops, Scan.tested]
    cases firstPass (s.select.scan.rows.filter s.select.scan.test) _ <;> rfl
  | some r =>
    dsimp only
    rw [memLoop_eq]
    simp only [runLoops, Scan.tested]
    cases firstPass ([r].filter fun _ => true) _ <;> rfl

section
variable {prior : Chain} {op : SetOp} {s : Select}

/-- **The temporary table of a compound** has what the compound delivers. -/
theorem tempTable_eq (hc : (Chain.compound prior op s).Compiles) (orderBy : Bool) :
    ∃ rows test, tempTable le prior op s orderBy = some (rows, test) ∧
      rows.filter test = (Chain.compound prior op s).images ∧
      (op ≠ .all → (!rows.isEmpty) = (Chain.compound prior op s).stores) := by
  obtain ⟨-, ⟨hlim, hoff⟩, hprior, -⟩ := compiles_compound.1 hc
  unfold tempTable
  cases op with
  | all =>
    simp only [reduceCtorEq, if_false, if_true, select_rows le (.inr rfl) hprior,
      computeLimitRegisters_none hlim hoff, runScans_scans, Option.bind_eq_bind, Option.bind_some,
      selectOne_send, ← send_append]
    rw [send_rows (.inr rfl)]
    exact ⟨_, _, rfl, List.filter_true _, fun h => absurd rfl h⟩
  | intersect =>
    have hone : selectOne le s .union orderBy (-1) 0 .none .empty =
        selectOne le s .union false (-1) 0 .none .empty := by
      cases orderBy <;> rfl
    simp only [if_true, select_union le hprior hlim hoff, Option.bind_eq_bind, Option.bind_some,
      hone, selectOne_send, send_union]
    exact ⟨_, _, rfl, rfl, fun _ => rfl⟩
  | union =>
    simp only [reduceCtorEq, if_false, select_union le hprior hlim hoff, Option.bind_eq_bind,
      Option.bind_some, selectOne_send, send_union]
    exact ⟨_, _, rfl, List.filter_true _, fun _ => rfl⟩
  | except =>
    simp only [reduceCtorEq, if_false, if_true, select_union le hprior hlim hoff,
      Option.bind_eq_bind, Option.bind_some, selectOne_send, send_except]
    exact ⟨_, _, rfl, List.filter_true _, fun _ => rfl⟩

/-- A compound that is not coded as two SELECTs is a loop over its temporary table. -/
theorem memSelect_temp {prior : Sub} {op : SetOp} {s : Leaf} {orderBy : Option (Bytes → Bytes)}
    (hc : (Sub.compound prior op s).chain.Compiles) (h : ¬ (op = .all ∧ orderBy.isNone)) :
    ∃ (rows : List Bytes) (test : Bytes → Bool),
      memSelect le value (.compound prior op s) orderBy nLimit nOffset cell =
        memScan le value ⟨rows.map (tempRow orderBy), fun r => test r.image, false⟩ orderBy.isSome
          (computeLimitRegisters nLimit nOffset (!rows.isEmpty) .none) cell ∧
      rows.filter test = (Sub.compound prior op s).chain.images ∧
      (op ≠ .all → (!rows.isEmpty) = (Sub.compound prior op s).chain.stores) := by
  obtain ⟨rows, test, htemp, himages, hstores⟩ := @tempTable_eq le _ _ _ hc orderBy.isSome
  refine ⟨rows, test, ?_, himages, hstores⟩
  rw [memSelect, if_neg h, htemp]
  rfl

variable {c : Sub}

/-- **Without ORDER BY** the loops run one after the other. -/
theorem memSelect_none (hc : c.chain.Compiles) :
    memSelect le value c none nLimit nOffset cell =
      runLoops value c.loops (computeLimitRegisters nLimit nOffset c.chain.stores .none) cell := by
  induction c generalizing nLimit nOffset with
  | one s => exact memOne_eq s nLimit nOffset
  | compound prior op s ih =>
    by_cases hop : op = .all
    · subst hop
      obtain ⟨-, -, hprior, -⟩ := compiles_compound.1 hc
      rw [memSelect, if_pos ⟨rfl, rfl⟩, ih hprior, Sub.loops, runLoops_concat]
      simp only [memOne_eq, computeLimitRegisters_none (show (-1 : CInt).toInt < 0 by decide)
        (show (0 : CInt).toInt ≤ 0 by decide)]
      rfl
    · obtain ⟨rows, test, hmem, himages, hstores⟩ := @memSelect_temp le value cell nLimit
        nOffset prior op s none hc (fun h => hop h.1)
      have htested := tested_temp none rows test false
      have hloops : (Sub.compound prior op s).loops =
          [⟨false, (Sub.compound prior op s).chain.images.map (tempRow none)⟩] := by
        cases op with
        | all => exact absurd rfl hop
        | union => rfl
        | except => rfl
        | intersect => rfl
      rw [hmem, hloops, runLoops_single, ← hstores hop, ← himages, ← htested]
      exact memLoop_eq _ _ _

theorem tested_images (images : List Bytes) :
    Scan.tested ⟨images.map (tempRow none), fun _ => true, false⟩ = images.map (tempRow none) := by
  have h := tested_temp none images (fun _ => true) false
  rwa [List.filter_true] at h

/-- The loops of a sub-select are those of its statement. -/
theorem loops_rows (c : Sub) : c.loops.map (·.rows) = c.chain.scans.map Scan.tested := by
  induction c with
  | one s => rfl
  | compound prior op s ih =>
    cases op with
    | all =>
      rw [Sub.loops, List.map_append, ih, Sub.chain, Chain.scans, List.map_append]
      rfl
    | union => exact congrArg (fun rows => [rows]) (tested_images _).symm
    | except => exact congrArg (fun rows => [rows]) (tested_images _).symm
    | intersect => exact congrArg (fun rows => [rows]) (tested_images _).symm

/-! ## With ORDER BY -/

/-- The tail stores the first row that it comes to. -/
theorem memScan_sorted (s : Scan) : memScan le value s true l cell =
    (firstPass (opSort le (dedup s.distinct .empty s.tested).reverse) l).map fun p =>
      (p.2, (p.1.map fun r => some (sortedValue value r.image)).getD cell) := by
  rw [memScan, if_pos rfl, loop_eq_sort]
  simp only [Option.bind_eq_bind, Option.bind_some]
  rw [foldl_pass_sort, memTail_eq, List.append_nil, Scan.tested]

/-- What a sub-select makes of the column of its first row. -/
def Sub.put (value : Bytes → Option Bytes) (c : Sub) (image : Bytes) : Option Bytes :=
  if c.sorts then sortedValue value image else value image

/-- The first row of the sorter, behind the counters. -/
theorem memSelect_some {f : Bytes → Bytes} (hc : c.chain.Compiles)
    (hf : c.chain.last.orderBy = some f) :
    (memSelect le value c (some f) nLimit nOffset cell).map (·.2) =
      (firstPass (opSort le (c.chain.unsorted f).reverse)
        (computeLimitRegisters nLimit nOffset true .none)).map fun p =>
          (p.1.map fun r => some (c.put value r.image)).getD
            (if c.clears then some none else cell) := by
  cases c with
  | one s =>
    have hput : Sub.put value (.one s) =
        if s.minMax.isNone then sortedValue value else value := by
      funext image
      rw [Sub.put, Sub.sorts, hf]
      cases s.minMax <;> rfl
    rw [memSelect, memOne, hput, Sub.clears, Sub.chain, Chain.unsorted, Leaf.toSelect]
    cases s.minMax with
    | none =>
      dsimp only [Option.isSome_some, Option.isNone_none, if_true]
      rw [memScan_sorted, Option.map_map]
      rfl
    | some r =>
      have hsort : opSort le [r] = [r] := List.perm_singleton.1 (opSort_perm le [r])
      dsimp only [Option.isNone_some]
      rw [memLoop_eq, Option.map_map, dedup_false, Scan.tested, List.filter_true,
        List.reverse_singleton, hsort]
      rfl
  | compound prior op s =>
    obtain ⟨rows, test, hmem, himages, hstores⟩ := @memSelect_temp le value cell nLimit nOffset
      prior op s (some f) hc (fun h => by cases h.2)
    have htested := tested_temp (some f) rows test false
    have hput : Sub.put value (.compound prior op s) = sortedValue value := by
      funext image
      rw [Sub.put, Sub.sorts, hf]
      rfl
    have hnil : opSort le [] = [] := by
      simp [opSort, sortedMerge]
    have hall : (Sub.compound prior op s).isUnionAll = false := by
      unfold Sub.isUnionAll
      rw [hf]
      rfl
    have hclears : (Sub.compound prior op s).clears = false := by
      rw [Sub.clears, hall]
      rfl
    have hunsorted : (Sub.compound prior op s).chain.unsorted f =
        (rows.filter test).map (tempRow (some f)) := by
      rw [himages]
      rfl
    rw [hmem, Option.isSome_some, memScan_sorted, htested, dedup_false, hput, hclears,
      Option.map_map, hunsorted]
    cases rows with
    | nil =>
      rw [List.filter_nil, List.map_nil, List.reverse_nil, hnil]
      rfl
    | cons r rows => rfl

/-! ## The value -/

variable {rows : List Bytes}

theorem run_ok {c : Chain} {dest : Dest} (h : c.run le dest = .ok rows) : c.Compiles ∧
    ∃ l o, select le c dest c.last.orderBy c.last.nLimit c.last.nOffset .empty = some (l, o) ∧
      o.rows = rows := by
  unfold Chain.run at h
  cases hc : check c with
  | error msg =>
    rw [hc] at h
    cases h
  | ok u =>
    rw [hc] at h
    refine ⟨hc, ?_⟩
    cases hs : select le c dest c.last.orderBy c.last.nLimit c.last.nOffset .empty with
    | none =>
      rw [hs] at h
      cases h
    | some p =>
      rw [hs] at h
      exact ⟨p.1, p.2, rfl, Except.ok.inj h⟩

/-- A sub-select with one loop. -/
theorem single_of_not_unionAll (horder : c.chain.last.orderBy = none) (h : c.isUnionAll = false) :
    ∃ s, c.chain.scans = [s] ∧ c.loops = [⟨c.clears, s.tested⟩] := by
  have hclears (prior : Sub) (op : SetOp) (s : Leaf) (hc : c = .compound prior op s) :
      c.clears = false := by
    subst hc
    rw [Sub.clears, h]
    rfl
  have htested (images : List Bytes) := congrArg (fun rows => [MemLoop.mk false rows])
    (tested_images images).symm
  cases c with
  | one s => exact ⟨s.toSelect.scan, rfl, rfl⟩
  | compound prior op s =>
    rw [hclears prior op s rfl]
    cases op with
    | all =>
      rw [Sub.isUnionAll, horder] at h
      cases h
    | union => exact ⟨_, rfl, htested _⟩
    | except => exact ⟨_, rfl, htested _⟩
    | intersect => exact ⟨_, rfl, htested _⟩

/-- **What is loaded**, if it is not a UNION ALL without ORDER BY. -/
theorem memLoad_eq (h : c.isUnionAll = false) (hrun : c.chain.run le .callback = .ok rows) :
    memLoad le value c cell = some ((rows.head?.map fun image => some (c.put value image)).getD
      (if c.clears then some none else cell)) := by
  obtain ⟨hc, l, o, hselect, hrows⟩ := run_ok hrun
  unfold memLoad
  cases horder : c.chain.last.orderBy with
  | none =>
    obtain ⟨s, hscans, hloops⟩ := single_of_not_unionAll horder h
    have hput : c.put value = value := by
      funext image
      unfold Sub.put Sub.sorts
      rw [horder]
      rfl
    rw [horder, select_rows le (.inl rfl) hc, hscans, runScans_single, scan_eq_gate,
      Option.map_eq_some_iff] at hselect
    obtain ⟨⟨p, l'⟩, hgate, hp⟩ := hselect
    obtain ⟨l'', hfirst, -⟩ := firstPass_of_gate hgate
    cases hp
    rw [memSelect_none hc, hloops, runLoops_single, hfirst, ← hrows, send_rows (.inl rfl), hput]
    dsimp only [Option.map_some, Out.empty]
    rw [List.nil_append, List.head?_map, head?_dedup, Option.map_map]
    rfl
  | some f =>
    have hsorted : (select le c.chain .callback (some f) c.chain.last.nLimit
        c.chain.last.nOffset .empty).map (·.2) = some o := by
      rw [← horder, hselect]
      rfl
    rw [select_sorted le (.inl rfl) hc, Option.map_eq_some_iff] at hsorted
    obtain ⟨⟨p, l'⟩, hgate, hp⟩ := hsorted
    obtain ⟨l'', hfirst, -⟩ := firstPass_of_gate hgate
    rw [memSelect_some hc horder, hfirst, ← hrows, ← hp, send_rows (.inl rfl)]
    dsimp only [Option.map_some, Out.empty]
    rw [List.nil_append, List.head?_map, Option.map_map]
    rfl

theorem countRow_unstored (h : 0 ≤ nLimit.toInt ∨ 0 < nOffset.toInt) :
    countRow (computeLimitRegisters nLimit nOffset false .none) = none := by
  unfold computeLimitRegisters
  by_cases hm : 0 < nOffset.toInt
  · rw [if_pos hm]
    rfl
  · rw [if_neg hm, if_pos (h.resolve_right hm)]
    rfl

/-- A run whose counters are not stored has no rows. -/
theorem tested_of_unstored {cs : List Scan} {o : Out} {p : Limits × Out} {dest : Dest}
    (hl : countRow l = none) (h : runScans le dest cs l o = some p) :
    ∀ s ∈ cs, s.tested = [] := by
  induction cs generalizing o with
  | nil => exact List.forall_mem_nil _
  | cons s cs ih =>
    rw [runScans, scan_eq_gate] at h
    cases hs : s.tested with
    | nil =>
      rw [hs] at h
      exact List.forall_mem_cons.2 ⟨hs, ih h⟩
    | cons r rs =>
      rw [hs, gate, hl] at h
      cases h

/-- Either the counters are stored where there are any, or there are no rows. -/
theorem stored_or_empty {cs : List Scan} {stored : Bool} {o : Out} {p : Limits × Out} {dest : Dest}
    (h : runScans le dest cs (computeLimitRegisters nLimit nOffset stored .none) o = some p) :
    computeLimitRegisters nLimit nOffset stored .none =
        computeLimitRegisters nLimit nOffset true .none ∨ ∀ s ∈ cs, s.tested = [] := by
  cases stored with
  | true => exact .inl rfl
  | false =>
    by_cases hregs : 0 ≤ nLimit.toInt ∨ 0 < nOffset.toInt
    · exact .inr (tested_of_unstored (countRow_unstored hregs) h)
    · obtain ⟨hlim, hoff⟩ := not_or.1 hregs
      rw [computeLimitRegisters_none (Int.not_le.1 hlim) (Int.not_lt.1 hoff),
        computeLimitRegisters_none (Int.not_le.1 hlim) (Int.not_lt.1 hoff)]
      exact .inl rfl

theorem rows_of_tested (h : ∀ s ∈ c.chain.scans, s.tested = []) : ∀ s ∈ c.loops, s.rows = [] := by
  intro s hs
  have hmem : s.rows ∈ c.loops.map (·.rows) := List.mem_map_of_mem hs
  rw [loops_rows] at hmem
  obtain ⟨sc, hsc, heq⟩ := List.mem_map.1 hmem
  exact heq.symm.trans (h sc hsc)

/-- **What is loaded without ORDER BY**: what the loops write last. -/
theorem memLoad_loops (horder : c.chain.last.orderBy = none) (hfew : c.loops.length < 2147483648)
    (hrun : c.chain.run le .callback = .ok rows) :
    memLoad le value c cell = some ((lastWrite value c.chain.last.nOffset.toInt.toNat
      (limitOf c.chain.last.nLimit) c.loops).or cell) := by
  obtain ⟨hc, l, o, hselect, -⟩ := run_ok hrun
  rw [horder, select_rows le (.inl rfl) hc] at hselect
  rw [memLoad, horder, memSelect_none hc]
  rcases stored_or_empty hselect with hstored | hempty
  · have hcounts := counts_computeLimitRegisters c.chain.last.nLimit c.chain.last.nOffset hfew
    obtain ⟨l', hl'⟩ := @runLoops_counts value _ cell _ 0 _ c.loops hcounts hfew
    rw [hstored, hl']
    rfl
  · rw [runLoops_empty c.loops (rows_of_tested hempty)]
    rfl

/-! ### UNION ALL -/

theorem head?_rows (horder : c.chain.last.orderBy = none) (hfew : c.loops.length < 2147483648)
    (hrun : c.chain.run le .callback = .ok rows) :
    rows.head? = (firstRow c.chain.last.nOffset.toInt.toNat (limitOf c.chain.last.nLimit)
      c.loops).map (·.image) := by
  obtain ⟨hc, l, o, hselect, hrows⟩ := run_ok hrun
  rw [horder, select_rows le (.inl rfl) hc] at hselect
  rcases stored_or_empty hselect with hstored | hempty
  · have hcounts := counts_computeLimitRegisters c.chain.last.nLimit c.chain.last.nOffset hfew
    rw [hstored] at hselect
    obtain ⟨images, hadd, hhead⟩ :=
      @runScans_first le _ _ _ 0 _ _ _ _ _ (loops_rows c) hcounts hfew hselect
    rw [← hrows, hadd, ← hhead]
    rfl
  · have hnone : c.loops.flatMap (·.rows) = [] := List.flatMap_eq_nil_iff.2 (rows_of_tested hempty)
    rw [runScans_empty hempty] at hselect
    cases hselect
    rw [← hrows, firstRow, hnone, List.drop_nil]
    split <;> rfl

theorem unionAll_spec (h : c.isUnionAll = true) :
    c.chain.last.orderBy = none ∧ c.sorts = false ∧ c.clears = c.loops.any (·.clears) := by
  have horder : c.chain.last.orderBy = none := by
    unfold Sub.isUnionAll at h
    exact Option.isNone_iff_eq_none.1 (Bool.and_eq_true_iff.1 h).1
  refine ⟨horder, ?_, ?_⟩
  · unfold Sub.sorts
    rw [horder]
    rfl
  · cases c with
    | one s =>
      unfold Sub.isUnionAll at h
      cases (Bool.and_eq_true_iff.1 h).2
    | compound prior op s => rw [Sub.clears, h, Bool.true_and]

theorem put_eq_iff {image : Bytes} :
    c.put value image = value image ↔ (c.sorts = true → value image ≠ none) := by
  unfold Sub.put
  cases c.sorts with
  | false => simp
  | true => cases h : value image <;> simp [sortedValue, h]

/-- `OP_Column` of a temporary table. -/
def firstColumn (image : Bytes) : Option Bytes :=
  match opColumn image 0 [] with
  | .str z => some z
  | _ => none

/-- A SELECT of one column, with these rows. -/
def Leaf.plain (images : List Bytes) : Leaf where
  select := ⟨⟨images.map fun image => ⟨image, [], []⟩, fun _ => true, false⟩, 1, none, -1, 0⟩
  minMax := none

/-- A SELECT without rows UNION ALL SELECT 'x'. -/
def emptyAndX : Sub := .compound (.one (.plain [])) .all (.plain [[2, 4, 120, 0]])

/-- SELECT 'x' UNION ALL SELECT 'y'. -/
def xAndY : Sub := .compound (.one (.plain [[2, 4, 120, 0]])) .all (.plain [[2, 4, 121, 0]])

end
end Dbsql.L5.Query
