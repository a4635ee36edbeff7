import Dbsql.Core.BinSort
import Dbsql.L5Codegen.Counters
/-!
# What a SELECT delivers

A loop splits into the counters and what lies behind them: `gate` lets rows through, the
DISTINCT table keeps some of these (`dedup`), and what it keeps is sent where the loop sends
its rows, or goes into the sorter, and then the counters run in the tail. A chain without
ORDER BY is a run of such loops (`select_rows`): a UNION ALL has the loops of both sides,
each other operator one loop over its temporary table.

Results:
* `select_union`: what a chain leaves in the temporary table to its right.
* `select_rows`, `select_sorted`: what it sends to the callback or a table of rows, without
  and with ORDER BY.
* `opSort_perm`, `opSort_sorted`: the sorter loses no row and puts them in order.
-/
namespace Dbsql.L5.Query
open Dbsql.Core Dbsql.L1 Dbsql.L2

/-! ## Behind the counters -/

/-- What `__select_inner_loop` does with a row that the counters let through. -/
def pass (distinct orderBy : Bool) (dest : Dest) (s : State) (r : Row) : State :=
  if distinct then
    if alreadyExists s.distinct r.key then s
    else dispose orderBy dest { s with distinct := s.distinct.insert ⟨r.key⟩ [] } r
  else dispose orderBy dest s r

/-- The rows that the DISTINCT table leaves. -/
def dedup (distinct : Bool) : Btree → List Row → List Row
  | _, [] => []
  | t, r :: rs =>
    if distinct then
      if alreadyExists t r.key then dedup distinct t rs
      else r :: dedup distinct (t.insert ⟨r.key⟩ []) rs
    else r :: dedup distinct t rs

/-- Rows sent one after the other. -/
def send (dest : Dest) (o : Out) (images : List Bytes) : Out := images.foldl (deliver dest) o

section
variable {test : Row → Bool} {distinct orderBy : Bool} {dest : Dest} {s : State} {l : Limits}
  {r : Row} {rs : List Row} {o : Out}

theorem dedup_false (t : Btree) (rs : List Row) : dedup false t rs = rs := by
  induction rs with
  | nil => rfl
  | cons r rs ih => exact congrArg (r :: ·) ih

theorem send_append (dest : Dest) (o : Out) (is js : List Bytes) :
    send dest o (is ++ js) = send dest (send dest o is) js := List.foldl_append

theorem pass_limits : pass distinct orderBy dest { s with limits := l } r =
    { pass distinct orderBy dest s r with limits := l } := by
  unfold pass dispose
  cases distinct with
  | false => cases orderBy <;> rfl
  | true =>
    simp only [if_true]
    cases alreadyExists s.distinct r.key with
    | true => rfl
    | false => cases orderBy <;> rfl

theorem foldl_pass_limits : rs.foldl (pass distinct orderBy dest) { s with limits := l } =
    { rs.foldl (pass distinct orderBy dest) s with limits := l } := by
  induction rs generalizing s with
  | nil => rfl
  | cons r rs ih => rw [List.foldl_cons, List.foldl_cons, pass_limits, ih]

theorem selectInnerLoop_false : selectInnerLoop distinct false dest s r =
    (countRow s.limits).map fun (c, l) =>
      if c = .pass then (.cont, pass distinct false dest { s with limits := l } r)
      else (c, { s with limits := l }) := by
  unfold selectInnerLoop pass
  rw [if_neg Bool.false_ne_true]
  cases countRow s.limits with
  | none => rfl
  | some cl =>
    obtain ⟨c, l⟩ := cl
    simp only [Option.bind_eq_bind, Option.bind_some, Option.map_some]
    by_cases hc : c = .pass
    · rw [if_neg (not_not_intro hc), if_pos hc]
      cases distinct with
      | false => rfl
      | true =>
        simp only [if_true]
        split <;> rfl
    · rw [if_pos hc, if_neg hc]

theorem selectInnerLoop_true : selectInnerLoop distinct true dest s r =
    some (.cont, pass distinct true dest s r) := by
  unfold selectInnerLoop pass
  simp only [if_true, Option.bind_eq_bind, Option.bind_some, ne_eq, not_true_eq_false, if_false]
  cases distinct with
  | false => rfl
  | true =>
    simp only [if_true]
    split <;> rfl

/-- Without a sorter: the counters first. -/
theorem loop_eq_gate (rows : List Row) : loop test distinct false dest rows s =
    (gate (rows.filter test) s.limits).map fun (p, l) =>
      { p.foldl (pass distinct false dest) s with limits := l } := by
  induction rows generalizing s with
  | nil => rfl
  | cons r rows ih =>
    rw [loop]
    by_cases ht : test r = true
    · rw [if_pos ht, List.filter_cons_of_pos ht, selectInnerLoop_false, gate]
      cases countRow s.limits with
      | none => rfl
      | some cl =>
        obtain ⟨c, l⟩ := cl
        cases c with
        | cont =>
          simp only [Option.bind_eq_bind, Option.map_some, Option.bind_some, reduceCtorEq,
            if_false, ih, foldl_pass_limits]
        | brk => rfl
        | pass =>
          simp only [Option.bind_eq_bind, Option.map_some, Option.bind_some, if_true, reduceCtorEq,
            if_false, ih, pass_limits, foldl_pass_limits]
          cases gate (rows.filter test) l <;> rfl
    · rw [if_neg ht, List.filter_cons_of_neg ht, ih]

/-- With a sorter no counter is asked. -/
theorem loop_eq_sort (rows : List Row) : loop test distinct true dest rows s =
    some ((rows.filter test).foldl (pass distinct true dest) s) := by
  induction rows generalizing s with
  | nil => rfl
  | cons r rows ih =>
    rw [loop]
    by_cases ht : test r = true
    · rw [if_pos ht, List.filter_cons_of_pos ht, selectInnerLoop_true, List.foldl_cons, ← ih]
      rfl
    · rw [if_neg ht, List.filter_cons_of_neg ht, ih]

theorem foldl_pass_out : (rs.foldl (pass distinct false dest) s).out =
    send dest s.out ((dedup distinct s.distinct rs).map (·.image)) := by
  induction rs generalizing s with
  | nil => rfl
  | cons r rs ih =>
    rw [List.foldl_cons, ih, dedup]
    cases distinct with
    | false => rfl
    | true =>
      rw [pass, if_pos rfl, if_pos rfl]
      cases alreadyExists s.distinct r.key with
      | true => rfl
      | false => rfl

theorem foldl_pass_sort : rs.foldl (pass distinct true dest) s =
    { rs.foldl (pass distinct true dest) s with
      limits := s.limits, pSort := (dedup distinct s.distinct rs).reverse ++ s.pSort,
      out := s.out } := by
  induction rs generalizing s with
  | nil => rfl
  | cons r rs ih =>
    rw [List.foldl_cons, dedup]
    cases distinct with
    | false =>
      rw [ih, show pass false true dest s r = { s with pSort := r :: s.pSort } from rfl]
      simp
    | true =>
      rw [pass, if_pos rfl, if_pos rfl]
      cases alreadyExists s.distinct r.key with
      | true => exact ih
      | false =>
        simp only [Bool.false_eq_true, if_false]
        rw [ih]
        simp [dispose]

theorem sortTail_eq_gate : sortTail dest rs l o =
    (gate rs l).map fun (p, l) => (l, send dest o (p.map (·.image))) := by
  induction rs generalizing l o with
  | nil => rfl
  | cons r rs ih =>
    rw [sortTail, gate]
    cases countRow l with
    | none => rfl
    | some cl =>
      obtain ⟨c, l'⟩ := cl
      cases c with
      | cont => exact ih
      | brk => rfl
      | pass =>
        simp only [Option.bind_eq_bind, Option.bind_some, ih]
        cases gate rs l' <;> rfl

end

/-! ## Loops -/

variable (le : Bytes → Bytes → Bool)

/-- The rows that pass the test of the loop. -/
def Scan.tested (c : Scan) : List Row := c.rows.filter c.test

/-- Loops without a sorter, one after the other. -/
def runScans (dest : Dest) : List Scan → Limits → Out → Option (Limits × Out)
  | [], l, o => some (l, o)
  | c :: cs, l, o => do
    let (l, o) ← scan le c false dest l o
    runScans dest cs l o

section
variable {c : Scan} {dest : Dest} {l : Limits} {o : Out}

theorem scan_eq_gate : scan le c false dest l o = (gate c.tested l).map fun (p, l) =>
    (l, send dest o ((dedup c.distinct .empty p).map (·.image))) := by
  rw [scan, loop_eq_gate, Scan.tested]
  cases gate (c.rows.filter c.test) l with
  | none => rfl
  | some pl => exact congrArg (fun o => some (pl.2, o)) foldl_pass_out

theorem scan_eq_sort : scan le c true dest l o =
    (gate (opSort le (dedup c.distinct .empty c.tested).reverse) l).map fun (p, l) =>
      (l, send dest o (p.map (·.image))) := by
  rw [scan, loop_eq_sort]
  simp only [Option.bind_eq_bind, Option.bind_some, if_true]
  rw [foldl_pass_sort, sortTail_eq_gate, List.append_nil, Scan.tested]

theorem runScans_concat (cs : List Scan) (c : Scan) :
    runScans le dest (cs ++ [c]) l o =
      (runScans le dest cs l o).bind fun p => scan le c false dest p.1 p.2 := by
  induction cs generalizing l o with
  | nil =>
    simp only [List.nil_append, runScans, Option.bind_eq_bind, Option.bind_some]
    cases scan le c false dest l o <;> rfl
  | cons c' cs ih =>
    rw [List.cons_append, runScans, runScans]
    cases scan le c' false dest l o with
    | none => rfl
    | some p => exact ih

theorem runScans_single (c : Scan) : runScans le dest [c] l o = scan le c false dest l o := by
  rw [runScans]
  cases scan le c false dest l o <;> rfl

end

/-! ## Tables of keys -/

/-- Keys put one after the other. -/
def putAll (t : Btree) (images : List Bytes) : Btree :=
  images.foldl (fun t image => t.insert ⟨image⟩ []) t

def tableOf (images : List Bytes) : Btree := putAll .empty images

/-- `OP_NotFound` and `OP_Delete`. -/
def removeFound (t : Btree) (image : Bytes) : Btree :=
  if alreadyExists t image then (smDelete t (smMoveto t none image 0).pos).1 else t

/-- No data beside the keys. -/
def KeysOnly (t : Btree) : Prop := ∀ e ∈ t.entries, e.2 = []

section
variable {t u : Btree} {o : Out} {images : List Bytes} {k : Dbt} {image : Bytes}

theorem keysOnly_insert (h : KeysOnly t) : KeysOnly (t.insert k []) := by
  intro e he
  rcases List.mem_append.1 he with he | he
  · exact h e (List.mem_of_mem_filter he)
  · rcases List.mem_cons.1 he with rfl | he
    · rfl
    · exact h e (List.mem_of_mem_filter he)

theorem keysOnly_putAll (h : KeysOnly t) : KeysOnly (putAll t images) := by
  induction images generalizing t with
  | nil => exact h
  | cons image images ih => exact ih (keysOnly_insert h)

theorem keysOnly_tableOf : KeysOnly (tableOf images) := keysOnly_putAll fun _ he => (by cases he)

theorem keysOnly_removeFound (h : KeysOnly t) : KeysOnly (removeFound t image) := by
  unfold removeFound smDelete
  split
  · split
    · exact h
    · split
      · exact fun e he => h e (List.mem_of_mem_filter he)
      · exact h
  · exact h

theorem keysOnly_foldl_removeFound (h : KeysOnly t) : KeysOnly (images.foldl removeFound t) := by
  induction images generalizing t with
  | nil => exact h
  | cons image images ih => exact ih (keysOnly_removeFound h)

/-- A table of keys is the set of its keys. -/
theorem keysOnly_ext (ht : KeysOnly t) (hu : KeysOnly u) (h : ∀ k, k ∈ t ↔ k ∈ u) : t = u := by
  have hsub {t u : Btree} (ht : KeysOnly t) (hu : KeysOnly u) (h : ∀ k, k ∈ t → k ∈ u) :
      ∀ e ∈ t.entries, e ∈ u.entries := by
    intro e he
    obtain ⟨e', he', hk⟩ := SortedMap.mem_iff.1 (h e.1 (SortedMap.mem_of_entry he))
    rwa [show e = e' from Prod.ext hk.symm ((ht e he).trans (hu e' he').symm)]
  have hnodup (t : Btree) : t.entries.Nodup := t.sorted.imp fun h he => (he ▸ h).false
  have hperm : t.entries.Perm u.entries :=
    (List.perm_ext_iff_of_nodup (hnodup t) (hnodup u)).2 fun e =>
      ⟨hsub ht hu (fun k => (h k).1) e, hsub hu ht (fun k => (h k).2) e⟩
  have hentries : t.entries = u.entries :=
    hperm.eq_of_pairwise (fun a b _ _ hab hba => absurd hba (not_lt_of_gt hab)) t.sorted u.sorted
  cases t
  cases u
  cases hentries
  rfl

theorem mem_putAll : k ∈ putAll t images ↔ k ∈ t ∨ k.data ∈ images := by
  induction images generalizing t with
  | nil => simp [putAll]
  | cons image images ih =>
    rw [putAll, List.foldl_cons, ← putAll, ih, SortedMap.mem_insert, List.mem_cons]
    have hk : k = ⟨image⟩ ↔ k.data = image := ⟨fun h => h ▸ rfl, fun h => h ▸ rfl⟩
    rw [hk]
    tauto

theorem mem_tableOf : k ∈ tableOf images ↔ k.data ∈ images := by
  rw [tableOf, mem_putAll]
  exact or_iff_right SortedMap.not_mem_empty

theorem mem_imagesOf : image ∈ imagesOf t ↔ (⟨image⟩ : Dbt) ∈ t := by
  unfold imagesOf
  rw [List.mem_map]
  constructor
  · rintro ⟨k, hk, rfl⟩
    exact hk
  · exact fun h => ⟨_, h, rfl⟩

/-- Copied into another table, a table stays what it is. -/
theorem tableOf_imagesOf (h : KeysOnly t) : tableOf (imagesOf t) = t :=
  keysOnly_ext keysOnly_tableOf h fun _ => mem_tableOf.trans mem_imagesOf

theorem nodup_imagesOf (t : Btree) : (imagesOf t).Nodup := by
  rw [imagesOf, SortedMap.keys, List.Nodup, List.pairwise_map, List.pairwise_map]
  exact t.sorted.imp fun h he => h.ne (congrArg Dbt.mk he)

theorem putAll_append (is js : List Bytes) : putAll t (is ++ js) = putAll (putAll t is) js :=
  List.foldl_append

/-! ### Sending -/

theorem send_rows {dest : Dest} (hd : dest = .callback ∨ dest = .table) :
    send dest o images = { o with rows := o.rows ++ images } := by
  induction images generalizing o with
  | nil => simp [send]
  | cons image images ih =>
    have hone : deliver dest o image = { o with rows := o.rows ++ [image] } := by
      rcases hd with rfl | rfl <;> rfl
    rw [send, List.foldl_cons, hone, ← send, ih]
    simp

theorem send_union : send .union o images = { o with set := putAll o.set images } := by
  induction images generalizing o with
  | nil => rfl
  | cons image images ih =>
    rw [send, List.foldl_cons, ← send, ih]
    rfl

theorem send_except : send .except o images = { o with set := images.foldl removeFound o.set } := by
  induction images generalizing o with
  | nil => rfl
  | cons image images ih =>
    rw [send, List.foldl_cons, ← send, ih, List.foldl_cons]
    unfold deliver removeFound
    dsimp only
    split <;> rfl

end

/-! ## Chains -/

/-- What a single SELECT delivers. -/
def Select.images (s : Select) : List Bytes :=
  (dedup s.scan.distinct .empty s.scan.tested).map (·.image)

/-- What a chain delivers before it is sorted and cut. -/
def Chain.images : Chain → List Bytes
  | .one s => s.images
  | .compound prior op s =>
    match op with
    | .all => prior.images ++ s.images
    | .union => imagesOf (putAll (tableOf prior.images) s.images)
    | .except => imagesOf (s.images.foldl removeFound (tableOf prior.images))
    | .intersect => (imagesOf (tableOf prior.images)).filter (alreadyExists (tableOf s.images))

/-- The loops that a chain without ORDER BY runs for its destination. -/
def Chain.scans : Chain → List Scan
  | .one s => [s.scan]
  | .compound prior .all s => prior.scans ++ [s.scan]
  | .compound prior op s =>
    [⟨(Chain.compound prior op s).images.map (tempRow none), fun _ => true, false⟩]

/-- Whether the first of them stores the counters. -/
def Chain.stores : Chain → Bool
  | .one _ => true
  | .compound prior .all _ => prior.stores
  | .compound prior .intersect _ => !(imagesOf (tableOf prior.images)).isEmpty
  | .compound prior op s => !(Chain.compound prior op s).images.isEmpty

/-- The rows that go into the sorter: a compound sorts its temporary table. -/
def Chain.unsorted (f : Bytes → Bytes) : Chain → List Row
  | .one s => dedup s.scan.distinct .empty s.scan.tested
  | .compound prior op s => (Chain.compound prior op s).images.map (tempRow (some f))

/-- Nothing is wrong with the clauses and the numbers of columns. -/
def Chain.Compiles (c : Chain) : Prop := check c = .ok ()

section
variable {c prior : Chain} {op : SetOp} {s : Select} {dest : Dest} {nLimit nOffset : CInt}
  {l : Limits} {o : Out}

/-- ORDER BY and LIMIT stand at the end, and the numbers of columns are equal. -/
theorem compiles_compound : (Chain.compound prior op s).Compiles ↔
    prior.last.orderBy = none ∧ (prior.last.nLimit.toInt < 0 ∧ prior.last.nOffset.toInt ≤ 0) ∧
      prior.Compiles ∧ s.nExpr = prior.last.nExpr := by
  have hlim : (prior.last.nLimit.toInt < 0 ∧ prior.last.nOffset.toInt ≤ 0) ↔
      ¬ (0 ≤ prior.last.nLimit.toInt ∨ 0 < prior.last.nOffset.toInt) := by
    omega
  unfold Chain.Compiles
  rw [check, hlim]
  cases prior.last.orderBy with
  | some f => simp
  | none =>
    rw [if_neg (by simp)]
    split
    · rename_i h
      simp [h]
    · rename_i h
      cases check prior with
      | error msg => simp
      | ok _ =>
        dsimp only
        split
        · rename_i hn
          simp [h, hn]
        · rename_i hn
          simp [h, not_not.1 hn]

theorem tested_temp (orderBy : Option (Bytes → Bytes)) (rows : List Bytes) (test : Bytes → Bool)
    (distinct : Bool) :
    Scan.tested ⟨rows.map (tempRow orderBy), fun r => test r.image, distinct⟩ =
      (rows.filter test).map (tempRow orderBy) := by
  rw [Scan.tested, List.filter_map]
  rfl

theorem map_image_temp (orderBy : Option (Bytes → Bytes)) (rows : List Bytes) :
    (rows.map (tempRow orderBy)).map (·.image) = rows := by
  rw [List.map_map]
  exact List.map_id rows

/-- One more loop behind the others. -/
theorem selectOne_rest : selectOne le s dest false (-1) 0 l o = scan le s.scan false dest l o := by
  rw [selectOne, computeLimitRegisters_none (by decide) (by decide), ite_self]

theorem selectOne_send :
    selectOne le s dest false (-1) 0 .none o = some (.none, send dest o s.images) := by
  rw [selectOne_rest, scan_eq_gate, gate_none]
  rfl

/-- A loop over a temporary table for the table to its right. -/
theorem tempScan_union (rows : List Bytes) (test : Bytes → Bool) (hn : nLimit.toInt < 0)
    (hm : nOffset.toInt ≤ 0) :
    tempScan le rows (fun r => test r.image) none .union nLimit nOffset .empty =
      some (.none, ⟨[], tableOf (rows.filter test)⟩) := by
  rw [tempScan, computeLimitRegisters_none hn hm, Option.isSome_none, scan_eq_gate, gate_none,
    tested_temp]
  refine congrArg (fun o => some (Limits.none, o)) ?_
  dsimp only
  rw [dedup_false, map_image_temp, send_union]
  rfl

/-- **What a chain leaves in the temporary table to its right.** -/
theorem select_union (hc : c.Compiles) (hn : nLimit.toInt < 0) (hm : nOffset.toInt ≤ 0) :
    select le c .union none nLimit nOffset .empty = some (.none, ⟨[], tableOf c.images⟩) := by
  induction c generalizing nLimit nOffset with
  | one s =>
    rw [select, selectOne, if_pos (.inl rfl), computeLimitRegisters_none hn hm, scan_eq_gate,
      gate_none, Option.map_some, Chain.images, Select.images]
    exact congrArg (fun o => some (Limits.none, o)) send_union
  | compound prior op s ih =>
    obtain ⟨-, ⟨hlim, hoff⟩, hprior, -⟩ := compiles_compound.1 hc
    cases op with
    | all =>
      rw [select, if_pos ⟨rfl, rfl⟩, ih hprior hn hm]
      simp only [Option.bind_eq_bind, Option.bind_some, selectOne_send, send_union, Chain.images,
        tableOf, putAll_append]
    | intersect =>
      rw [select, if_neg (by simp), if_pos rfl, ih hprior hlim hoff]
      simp only [Option.bind_eq_bind, Option.bind_some, Option.isSome_none, selectOne_send,
        send_union]
      exact tempScan_union le _ _ hn hm
    | union =>
      rw [select, if_neg (by simp), if_neg (by simp)]
      simp only [reduceCtorEq, if_false, ih hprior hlim hoff, Option.bind_eq_bind,
        Option.bind_some, selectOne_send, send_union]
      split
      · rw [Chain.images, tableOf_imagesOf (keysOnly_putAll keysOnly_tableOf)]
      · rw [tempScan_union le _ (fun _ => true) hn hm, List.filter_true]
        rfl
    | except =>
      rw [select, if_neg (by simp), if_neg (by simp)]
      simp only [reduceCtorEq, if_false, if_true, ih hprior hlim hoff, Option.bind_eq_bind,
        Option.bind_some, selectOne_send, send_except]
      split
      · rw [Chain.images, tableOf_imagesOf (keysOnly_foldl_removeFound keysOnly_tableOf)]
      · rw [tempScan_union le _ (fun _ => true) hn hm, List.filter_true]
        rfl

/-- A loop over a temporary table without a sorter. -/
theorem tempScan_rows (rows : List Bytes) (test : Bytes → Bool) :
    tempScan le rows (fun r => test r.image) none dest nLimit nOffset o =
      runScans le dest [⟨(rows.filter test).map (tempRow none), fun _ => true, false⟩]
        (computeLimitRegisters nLimit nOffset (!rows.isEmpty) .none) o := by
  have h := tested_temp none rows test false
  have h' := tested_temp none (rows.filter test) (fun _ => true) false
  rw [List.filter_true] at h'
  rw [runScans_single, tempScan, Option.isSome_none, scan_eq_gate, scan_eq_gate, h, h']

/-- **What a chain without ORDER BY sends.** -/
theorem select_rows (hd : dest = .callback ∨ dest = .table) (hc : c.Compiles) :
    select le c dest none nLimit nOffset o =
      runScans le dest c.scans (computeLimitRegisters nLimit nOffset c.stores .none) o := by
  induction c generalizing nLimit nOffset with
  | one s =>
    have hne : ¬ (dest = .union ∨ dest = .except) := by
      rcases hd with rfl | rfl <;> simp
    rw [select, selectOne, if_neg hne, Chain.scans, runScans_single]
    rfl
  | compound prior op s ih =>
    obtain ⟨-, ⟨hlim, hoff⟩, hprior, -⟩ := compiles_compound.1 hc
    have hunion : dest ≠ .union := by
      rcases hd with rfl | rfl <;> simp
    cases op with
    | all =>
      rw [select, if_pos ⟨rfl, rfl⟩, ih hprior, Chain.scans, runScans_concat]
      simp only [selectOne_rest]
      rfl
    | intersect =>
      rw [select, if_neg (by simp), if_pos rfl, select_union le hprior hlim hoff]
      simp only [Option.bind_eq_bind, Option.bind_some, Option.isSome_none, selectOne_send,
        send_union]
      exact tempScan_rows le _ _
    | union =>
      rw [select, if_neg (by simp), if_neg (by simp)]
      simp only [reduceCtorEq, if_false, hunion, false_and, select_union le hprior hlim hoff,
        Option.bind_eq_bind, Option.bind_some, selectOne_send, send_union]
      rw [tempScan_rows le _ (fun _ => true), List.filter_true]
      rfl
    | except =>
      rw [select, if_neg (by simp), if_neg (by simp)]
      simp only [reduceCtorEq, if_false, if_true, hunion, false_and,
        select_union le hprior hlim hoff, Option.bind_eq_bind, Option.bind_some, selectOne_send,
        send_except]
      rw [tempScan_rows le _ (fun _ => true), List.filter_true]
      rfl

theorem runScans_scans (c : Chain) :
    runScans le dest c.scans .none o = some (.none, send dest o c.images) := by
  induction c generalizing o with
  | one s =>
    rw [Chain.scans, runScans_single, scan_eq_gate, gate_none]
    rfl
  | compound prior op s ih =>
    have htemp : runScans le dest [⟨(Chain.compound prior op s).images.map (tempRow none),
        fun _ => true, false⟩] .none o =
        some (.none, send dest o (Chain.compound prior op s).images) := by
      have h := tested_temp none (Chain.compound prior op s).images (fun _ => true) false
      rw [List.filter_true] at h
      rw [runScans_single, scan_eq_gate, gate_none, h]
      dsimp only [Option.map_some]
      rw [dedup_false, map_image_temp]
    cases op with
    | all =>
      rw [Chain.scans, runScans_concat, ih, Option.bind_some, scan_eq_gate, gate_none, Chain.images,
        send_append]
      rfl
    | union => exact htemp
    | except => exact htemp
    | intersect => exact htemp

/-- A loop over a temporary table with a sorter. -/
theorem tempScan_sorted (rows : List Bytes) (test : Bytes → Bool) (f : Bytes → Bytes) :
    (tempScan le rows (fun r => test r.image) (some f) dest nLimit nOffset o).map (·.2) =
      (gate (opSort le ((rows.filter test).map (tempRow (some f))).reverse)
        (computeLimitRegisters nLimit nOffset true .none)).map fun p =>
          send dest o (p.1.map (·.image)) := by
  rw [tempScan, Option.isSome_some, scan_eq_sort, tested_temp, dedup_false]
  cases rows with
  | nil =>
    have hnil : opSort le [] = [] := by
      simp [opSort, sortedMerge]
    rw [List.filter_nil, List.map_nil, List.reverse_nil, hnil]
    rfl
  | cons r rows =>
    rw [List.isEmpty_cons, Bool.not_false, Option.map_map]
    rfl

/-- **What a chain with ORDER BY sends**: the counters run in the tail. -/
theorem select_sorted (hd : dest = .callback ∨ dest = .table) (hc : c.Compiles)
    (f : Bytes → Bytes) : (select le c dest (some f) nLimit nOffset o).map (·.2) =
      (gate (opSort le (c.unsorted f).reverse)
        (computeLimitRegisters nLimit nOffset true .none)).map fun p =>
          send dest o (p.1.map (·.image)) := by
  cases c with
  | one s =>
    have hne : ¬ (dest = .union ∨ dest = .except) := by
      rcases hd with rfl | rfl <;> simp
    rw [select, selectOne, if_neg hne, Option.isSome_some, scan_eq_sort, Option.map_map]
    rfl
  | compound prior op s =>
    obtain ⟨-, ⟨hlim, hoff⟩, hprior, -⟩ := compiles_compound.1 hc
    cases op with
    | all =>
      rw [select, if_neg (by simp), if_neg (by simp)]
      simp only [if_true, Option.isNone_some, Bool.false_eq_true, false_and, and_false, if_false,
        select_rows le (.inr rfl) hprior, computeLimitRegisters_none hlim hoff, runScans_scans,
        Option.bind_eq_bind, Option.bind_some, selectOne_send, ← send_append]
      rw [send_rows (.inr rfl), tempScan_sorted le _ (fun _ => true), List.filter_true]
      rfl
    | intersect =>
      rw [select, if_neg (by simp), if_pos rfl, select_union le hprior hlim hoff]
      have hone : selectOne le s .union true (-1) 0 .none .empty =
          selectOne le s .union false (-1) 0 .none .empty := rfl
      simp only [Option.bind_eq_bind, Option.bind_some, Option.isSome_some, hone, selectOne_send,
        send_union]
      exact tempScan_sorted le _ _ f
    | union =>
      rw [select, if_neg (by simp), if_neg (by simp)]
      simp only [reduceCtorEq, if_false, Option.isNone_some, Bool.false_eq_true, false_and,
        and_false, select_union le hprior hlim hoff, Option.bind_eq_bind, Option.bind_some,
        selectOne_send, send_union]
      rw [tempScan_sorted le _ (fun _ => true), List.filter_true]
      rfl
    | except =>
      rw [select, if_neg (by simp), if_neg (by simp)]
      simp only [reduceCtorEq, if_false, if_true, Option.isNone_some, Bool.false_eq_true,
        false_and, and_false, select_union le hprior hlim hoff, Option.bind_eq_bind,
        Option.bind_some, selectOne_send, send_except]
      rw [tempScan_sorted le _ (fun _ => true), List.filter_true]
      rfl

end

/-! ## The sorter -/

/-- The sorter is a merge sort in 30 bins. -/
theorem opSort_eq (rs : List Row) :
    opSort le rs = BinSort.sort (fun a b => le a.sortKey b.sortKey) 29 rs := by
  have hinsert (r : List Row) (bins : List (List Row)) :
      sortInsert le r bins = BinSort.insert (fun a b => le a.sortKey b.sortKey) r bins := by
    induction bins generalizing r with
    | nil => rfl
    | cons b bins ih =>
      cases bins with
      | nil => rfl
      | cons b' bins =>
        rw [sortInsert, ih]
        · rfl
        · simp
  unfold opSort BinSort.sort BinSort.fill
  simp only [hinsert]
  rfl

/-- **The sorter loses no row.** -/
theorem opSort_perm (rs : List Row) : (opSort le rs).Perm rs := by
  rw [opSort_eq]
  exact BinSort.sort_perm _ 29 rs

variable {le} (total : ∀ a b, le a b || le b a) (trans : ∀ a b c, le a b → le b c → le a c)

def InOrder (le : Bytes → Bytes → Bool) (rs : List Row) : Prop :=
  rs.Pairwise fun a b => le a.sortKey b.sortKey = true

include total trans

/-- **And puts them in order.** -/
theorem opSort_sorted (rs : List Row) : InOrder le (opSort le rs) := by
  rw [opSort_eq]
  exact BinSort.sort_sorted (fun a b => total a.sortKey b.sortKey)
    (fun a b c => trans a.sortKey b.sortKey c.sortKey) 29 rs

end Dbsql.L5.Query
