import Dbsql.L5Codegen.WhereTerms
/-!
# The tests of a join (cg_where.c:482-560, 846-860, 1328-1375)

The loops over the tables stand inside one another in the order of the FROM list. The loop over a
table may take terms for its rowid or its index; which of those that it could take is a parameter,
and the results hold for each choice. Behind the opening of the loop every term is tested that is left
and whose word is inside the word of the tables so far: of the right table of a LEFT JOIN first those of
the ON clause, and the others behind the code that records the match.

A table without a bit is missing in both words, and a term on it looks ready too early. A constant
clause is tested in front of the loops, but its terms are still there when the loops are opened.

Results:
* `whereBegin_iff`: each term is tested where its tables have been positioned, and once, exactly when
  the last table that is opened of those a term mentions has a bit or is the first of all, and no
  constant clause has tables.
-/
namespace Dbsql.L5.Where
open Dbsql.Core.Seats Dbsql.L1 Dbsql.L5.Tree

/-! ## The code -/

/-- An item of the FROM list: `iCursor`, and `jointype & JT_LEFT`. -/
structure SrcItem where
  iCursor : Int
  jtLeft : Bool
  deriving DecidableEq, Repr

/-- `ARRAY_SIZE(wc_exprs)`. -/
def numSlots : Nat := 101

/-- What `__where_begin` is called with. Each item has a cursor of its own, the columns of the clause
have been resolved to the items and to the trigger, and the list of an IN is constant, or
`__expr_check` would have refused it. -/
structure Join where
  tabList : List SrcItem
  whereClause : Node
  trigStack : Option TrigStack
  distinct : (tabList.map (·.iCursor)).Nodup
  fresh : ∀ t ∈ tabList, t.iCursor ∉ trigCursors trigStack
  resolved : ∀ c ∈ mentions whereClause, c ∈ tabList.map (·.iCursor) ∨ c ∈ trigCursors trigStack
  constant : ∀ t ∈ exprSplit numSlots whereClause, indexOp t = true → listMentions (pList t) = []

def Join.cursors (q : Join) : List Int := q.tabList.map (·.iCursor)

/-- `wc_exprs`, where `p` is null once a term is used, `loop_mask` and `mask_set`. -/
structure Gen where
  slots : List (Option ExprInfo)
  loopMask : BitVec 32
  maskSet : MaskSet

/-- A term with a column of the table on one side, and on the other what the loops outside of it
have positioned. -/
def usable (loopMask : BitVec 32) (cur : Int) (info : ExprInfo) : Bool :=
  info.idxLeft == some cur && info.prereqRight &&& loopMask == info.prereqRight ||
    info.idxRight == some cur && info.prereqLeft &&& loopMask == info.prereqLeft

def ready (loopMask : BitVec 32) (info : ExprInfo) : Bool := info.prereqAll &&& loopMask == info.prereqAll

/-- `ExprHasProperty(p, EP_FromJoin)`. -/
def fromJoin : Node → Bool
  | .null => false
  | .node d _ _ _ _ => d.fromJoin

/-- A loop over the terms that are left: those that it uses, and what it leaves. -/
def sift (ok : Nat → ExprInfo → Bool) (slots : List (Option ExprInfo)) : List Nat × List (Option ExprInfo) :=
  ((List.range slots.length).filter fun j => slots[j]?.join.any (ok j),
    slots.mapIdx fun j p => p.filter fun info => !ok j info)

/-- What the code of one loop does with the terms. -/
structure Level where
  /-- for the rowid or the index -/
  taken : List Nat
  /-- `__expr_if_false` -/
  tests : List Nat
  deriving DecidableEq, Repr

/-- One round of the loop over the tables (cg_where.c:846-1374). -/
def levelCode (takes : Nat → Bool) (leftJoin : Bool) (cur : Int) (g : Gen) : Level × Gen :=
  let (taken, slots) := sift (fun j info => takes j && usable g.loopMask cur info) g.slots
  let (b, maskSet) := getCursorBitmask g.maskSet cur
  let loopMask := g.loopMask ||| b
  let (tests, slots) :=
    sift (fun _ info => ready loopMask info && !(leftJoin && !fromJoin info.p)) slots
  let (late, slots) := if leftJoin then sift (fun _ info => ready loopMask info) slots else ([], slots)
  (⟨taken, tests ++ late⟩, ⟨slots, loopMask, maskSet⟩)

/-- The loop over the tables from number `i` on. -/
def loops (takes : Nat → Nat → Bool) : Nat → Bool → List SrcItem → Gen → List Level
  | _, _, [], _ => []
  | i, leftJoin, item :: rest, g =>
    let (level, g) := levelCode (takes i) leftJoin item.iCursor g
    level :: loops takes (i + 1) item.jtLeft rest g

/-- The cursors that come up while the indices are chosen (cg_where.c:578-580). -/
def planMasks (maskSet : MaskSet) (tabList : List SrcItem) : MaskSet :=
  (tabList.take 32).foldl (fun maskSet item => (getCursorBitmask maskSet item.iCursor).2) maskSet

structure Loops where
  terms : List Node
  /-- the clause is tested in front of the loops -/
  upfront : Bool
  levels : List Level

/-- `__where_begin` (cg_where.c:424-1379): `takes i j` is whether the loop over table `i` takes term `j`,
if it can. -/
def whereBegin (q : Join) (takes : Nat → Nat → Bool) : Except Bytes Loops :=
  let terms := exprSplit numSlots q.whereClause
  if terms.length = numSlots then
    .error (ascii "WHERE clause too complex - no more than 100 terms allowed")
  else
    let (infos, maskSet) := analyzeTerms q.trigStack terms .empty
    .ok {
      terms
      upfront := !isNull q.whereClause && (q.tabList.isEmpty || exprIsConstant q.whereClause)
      levels := loops takes 0 false q.tabList ⟨infos.map some, 0#32, planMasks maskSet q.tabList⟩ }

/-! ## What it is to do -/

/-- How often a term is tested. -/
def timesTested (w : Loops) (j : Nat) : Nat :=
  (if w.upfront then 1 else 0) + (w.levels.map fun l => l.tests.count j).sum

/-- Each term is used where its tables have been positioned, and one that no loop takes for its rowid
or its index is tested once. -/
structure EachTested (q : Join) (w : Loops) : Prop where
  positioned : ∀ i l, w.levels[i]? = some l → ∀ j, j ∈ l.taken ∨ j ∈ l.tests →
    ∀ t, w.terms[j]? = some t → ∀ c ∈ mentions t, c ∈ q.cursors → c ∈ q.cursors.take (i + 1)
  once : ∀ j < w.terms.length, (∀ l ∈ w.levels, j ∉ l.taken) → timesTested w j = 1

/-! ## When it does -/

/-- A cursor has a bit: fewer than 32 others come up before it. -/
def Numbered (q : Join) (c : Int) : Prop :=
  (((exprSplit numSlots q.whereClause).flatMap (lookups q.trigStack)).takeWhile (· ≠ c)).toFinset.card < 32

/-- The table of a term that is opened last. -/
def lastOpened (q : Join) (t : Node) : Option Int := (q.cursors.filter (· ∈ mentions t)).getLast?

/-- The clause does not reach the defects: it is not a constant over tables, and the last table of each
term has a bit or is the first of all. -/
structure JoinOk (q : Join) : Prop where
  variable_ : exprIsConstant q.whereClause = true → isNull q.whereClause = true ∨ q.tabList = []
  numbered : ∀ t ∈ exprSplit numSlots q.whereClause, ∀ c, lastOpened q t = some c →
    q.cursors.head? = some c ∨ Numbered q c

/-! ## One loop over the terms -/

/-- A term that is left. -/
def slot (slots : List (Option ExprInfo)) (j : Nat) : Option ExprInfo := slots[j]?.join

section
variable {ok : Nat → ExprInfo → Bool} {slots : List (Option ExprInfo)} {j : Nat}

theorem slot_lt {info : ExprInfo} (h : slot slots j = some info) : j < slots.length := by
  by_contra hge
  rw [slot, List.getElem?_eq_none (by omega)] at h
  cases h

theorem slot_sift (ok : Nat → ExprInfo → Bool) (slots : List (Option ExprInfo)) (j : Nat) :
    slot (sift ok slots).2 j = (slot slots j).filter fun info => !ok j info := by
  rw [slot, slot, sift, List.getElem?_mapIdx]
  cases slots[j]? <;> rfl

theorem mem_sift : j ∈ (sift ok slots).1 ↔ (slot slots j).any (ok j) = true := by
  rw [sift, List.mem_filter, List.mem_range]
  refine and_iff_right_of_imp fun h => ?_
  cases hs : slot slots j with
  | none =>
    rw [← slot, hs] at h
    cases h
  | some info => exact slot_lt hs

theorem count_sift (ok : Nat → ExprInfo → Bool) (slots : List (Option ExprInfo)) (j : Nat) :
    (sift ok slots).1.count j = if (slot slots j).any (ok j) then 1 else 0 := by
  have hnodup : (sift ok slots).1.Nodup := List.nodup_range.filter _
  split
  · next h => exact List.count_eq_one_of_mem hnodup (mem_sift.2 h)
  · next h => exact List.count_eq_zero_of_not_mem fun hm => h (mem_sift.1 hm)

end

/-! ## One round -/

/-- What one round does with a slot: `take` and `ready` are what it asks of a term. -/
inductive SlotStep (take ready : ExprInfo → Bool) (j : Nat) (l : Level) : Option ExprInfo → Option ExprInfo → Prop
  | gone : j ∉ l.taken → l.tests.count j = 0 → SlotStep take ready j l none none
  | taken {info} : take info = true → j ∈ l.taken → l.tests.count j = 0 → SlotStep take ready j l (some info) none
  | tested {info} : ready info = true → j ∉ l.taken → l.tests.count j = 1 → SlotStep take ready j l (some info) none
  | kept {info} : ready info = false → j ∉ l.taken → l.tests.count j = 0 →
    SlotStep take ready j l (some info) (some info)

/-- The two loops that test: together they test what is ready. -/
theorem tests_slot (ready : ExprInfo → Bool) (leftJoin : Bool) (slots : List (Option ExprInfo)) (j : Nat) :
    let first := sift (fun _ info => ready info && !(leftJoin && !fromJoin info.p)) slots
    let late := if leftJoin then sift (fun _ info => ready info) first.2 else ([], first.2)
    (first.1 ++ late.1).count j = (if (slot slots j).any ready then 1 else 0) ∧
      slot late.2 j = (slot slots j).filter fun info => !ready info := by
  intro first late
  rw [List.count_append]
  cases leftJoin with
  | false =>
    have hlate : late = ([], first.2) := rfl
    rw [hlate, count_sift, slot_sift]
    simp only [Bool.false_and, Bool.not_false, Bool.and_true, List.count_nil, Nat.add_zero]
    exact ⟨trivial, trivial⟩
  | true =>
    have hlate : late = sift (fun _ info => ready info) first.2 := rfl
    have hfirst : slot first.2 j = _ := slot_sift _ slots j
    rw [hlate, count_sift, count_sift, slot_sift, slot_sift, hfirst]
    cases slot slots j with
    | none => exact ⟨rfl, rfl⟩
    | some info => cases hr : ready info <;> cases hj : fromJoin info.p <;> simp [Option.filter, hr, hj]

theorem levelCode_slot (takes : Nat → Bool) (leftJoin : Bool) (cur : Int) (g : Gen) (j : Nat) :
    SlotStep (fun info => takes j && usable g.loopMask cur info)
      (ready (g.loopMask ||| (getCursorBitmask g.maskSet cur).1)) j (levelCode takes leftJoin cur g).1
      (slot g.slots j) (slot (levelCode takes leftJoin cur g).2.slots j) := by
  have htaken : j ∈ (levelCode takes leftJoin cur g).1.taken ↔
      (slot g.slots j).any (fun info => takes j && usable g.loopMask cur info) = true := mem_sift
  have htests := tests_slot (ready (g.loopMask ||| (getCursorBitmask g.maskSet cur).1)) leftJoin
    (sift (fun j info => takes j && usable g.loopMask cur info) g.slots).2 j
  rw [slot_sift] at htests
  obtain ⟨hcount, hslot⟩ := htests
  change (levelCode takes leftJoin cur g).1.tests.count j = _ at hcount
  change slot (levelCode takes leftJoin cur g).2.slots j = _ at hslot
  rw [hslot]
  cases hs : slot g.slots j with
  | none =>
    rw [hs] at htaken hcount
    exact .gone (fun h => nomatch htaken.1 h) hcount
  | some info =>
    rw [hs] at htaken hcount
    cases htake : takes j && usable g.loopMask cur info with
    | true =>
      rw [Option.filter_some, htake] at hcount ⊢
      exact .taken htake (htaken.2 htake) hcount
    | false =>
      have hnot : j ∉ (levelCode takes leftJoin cur g).1.taken := fun h =>
        Bool.false_ne_true (htake.symm.trans (htaken.1 h))
      rw [Option.filter_some, htake] at hcount ⊢
      cases hr : ready (g.loopMask ||| (getCursorBitmask g.maskSet cur).1) info with
      | true =>
        simp only [Bool.not_false, if_true, Option.any_some, hr] at hcount
        simp only [Bool.not_false, if_true, Option.filter_some, hr]
        exact .tested hr hnot hcount
      | false =>
        simp only [Bool.not_false, if_true, Option.any_some, hr] at hcount
        simp only [Bool.not_false, if_true, Option.filter_some, hr]
        exact .kept hr hnot hcount

section
variable {take ready : ExprInfo → Bool} {j : Nat} {l : Level} {x x' : Option ExprInfo}

/-- A round that leaves a term has found it. -/
theorem SlotStep.of_some (h : SlotStep take ready j l x x') {info : ExprInfo} (hx : x' = some info) : x = some info := by
  cases h with
  | gone | taken | tested => cases hx
  | kept => exact hx

/-- A round that uses a term has found it, and asked. -/
theorem SlotStep.used (h : SlotStep take ready j l x x') (hj : j ∈ l.taken ∨ j ∈ l.tests) :
    ∃ info, x = some info ∧ (j ∈ l.taken → take info = true) ∧ (j ∈ l.tests → ready info = true) := by
  have hpos : l.tests.count j = 0 → j ∉ l.tests := List.count_eq_zero.1
  cases h with
  | gone hn hc => exact absurd hj (not_or.2 ⟨hn, hpos hc⟩)
  | taken ht _ hc => exact ⟨_, rfl, fun _ => ht, fun h => absurd h (hpos hc)⟩
  | tested hr hn => exact ⟨_, rfl, fun h => absurd h hn, fun _ => hr⟩
  | kept _ hn hc => exact absurd hj (not_or.2 ⟨hn, hpos hc⟩)

end

/-! ## The rounds -/

/-- Before the loops over the rest of the tables: the loops so far are over the cursors `opened`. -/
structure Before (F opened : List Int) (items : List SrcItem) (g : Gen) : Prop where
  loopMask : g.loopMask = mask 32 F opened
  seats : seats 32 g.maskSet.ix (items.map (·.iCursor)) <+: F

section
variable {F opened : List Int} {items : List SrcItem} {g : Gen} {takes : Nat → Nat → Bool} {leftJoin : Bool}
variable {i j k : Nat} {info : ExprInfo}

theorem Before.bit {item : SrcItem} (h : Before F opened (item :: items) g) (hF : F.length ≤ 32) :
    g.loopMask ||| (getCursorBitmask g.maskSet item.iCursor).1 = mask 32 F (opened ++ [item.iCursor]) := by
  have hp : (getCursorBitmask g.maskSet item.iCursor).2.ix <+: F := by
    rw [getCursorBitmask_ix]
    exact (prefix_seats _ _).trans h.seats
  rw [h.loopMask, getCursorBitmask_eq hF hp, mask_append, mask_singleton]

theorem Before.next {item : SrcItem} (h : Before F opened (item :: items) g) (hF : F.length ≤ 32)
    (takes : Nat → Bool) (leftJoin : Bool) :
    Before F (opened ++ [item.iCursor]) items (levelCode takes leftJoin item.iCursor g).2 := by
  refine ⟨h.bit hF, ?_⟩
  have hix : (levelCode takes leftJoin item.iCursor g).2.maskSet.ix = seat 32 g.maskSet.ix item.iCursor :=
    getCursorBitmask_ix g.maskSet item.iCursor
  rw [hix]
  exact h.seats

/-- The step, by the tables that have been opened. -/
theorem Before.step {item : SrcItem} (h : Before F opened (item :: items) g) (hF : F.length ≤ 32)
    (takes : Nat → Bool) (leftJoin : Bool) (j : Nat) :
    SlotStep (fun info => takes j && usable (mask 32 F opened) item.iCursor info)
      (ready (mask 32 F (opened ++ [item.iCursor]))) j (levelCode takes leftJoin item.iCursor g).1
      (slot g.slots j) (slot (levelCode takes leftJoin item.iCursor g).2.slots j) := by
  have hstep := levelCode_slot takes leftJoin item.iCursor g j
  rw [h.bit hF, h.loopMask] at hstep
  exact hstep

/-- A term that is used was left, and is usable, or ready, by the tables that have been opened. -/
theorem loops_used (hF : F.length ≤ 32) (h : Before F opened items g) {l : Level}
    (hl : (loops takes i leftJoin items g)[k]? = some l) (hj : j ∈ l.taken ∨ j ∈ l.tests) :
    ∃ info cur, slot g.slots j = some info ∧ (items.map (·.iCursor))[k]? = some cur ∧
      (j ∈ l.taken → usable (mask 32 F (opened ++ (items.map (·.iCursor)).take k)) cur info = true) ∧
      (j ∈ l.tests → ready (mask 32 F (opened ++ (items.map (·.iCursor)).take (k + 1))) info = true) := by
  induction items generalizing opened g i leftJoin k with
  | nil => cases hl
  | cons item items ih =>
    have hstep := h.step hF (takes i) leftJoin j
    cases k with
    | zero =>
      cases hl
      obtain ⟨info, hs, htake, htest⟩ := hstep.used hj
      refine ⟨info, item.iCursor, hs, rfl, fun h => ?_, htest⟩
      rw [List.take_zero, List.append_nil]
      exact (Bool.and_eq_true_iff.1 (htake h)).2
    | succ k =>
      obtain ⟨info, cur, hs, hcur, hask⟩ := ih (h.next hF (takes i) leftJoin) hl
      rw [List.append_assoc, List.append_assoc] at hask
      exact ⟨info, cur, hstep.of_some hs, hcur, hask⟩

/-- A term that is gone is not used again. -/
theorem loops_gone (hs : slot g.slots j = none) {l : Level} (hl : l ∈ loops takes i leftJoin items g) :
    j ∉ l.taken ∧ l.tests.count j = 0 := by
  induction items generalizing g i leftJoin with
  | nil => cases hl
  | cons item items ih =>
    have hstep := levelCode_slot (takes i) leftJoin item.iCursor g j
    rw [hs] at hstep
    generalize hs' : slot (levelCode (takes i) leftJoin item.iCursor g).2.slots j = x' at hstep
    cases hstep with
    | gone hn hc =>
      rcases List.mem_cons.1 hl with rfl | hl
      · exact ⟨hn, hc⟩
      · exact ih hs' hl

/-- A term that is ready when all tables have been opened is tested once, if it is not taken. -/
theorem loops_once (hF : F.length ≤ 32) (h : Before F opened items g) (hne : items ≠ [])
    (hs : slot g.slots j = some info) (hr : ready (mask 32 F (opened ++ items.map (·.iCursor))) info = true)
    (hn : ∀ l ∈ loops takes i leftJoin items g, j ∉ l.taken) :
    ((loops takes i leftJoin items g).map fun l => l.tests.count j).sum = 1 := by
  induction items generalizing opened g i leftJoin with
  | nil => exact absurd rfl hne
  | cons item items ih =>
    have hstep := h.step hF (takes i) leftJoin j
    have hnext := h.next hF (takes i) leftJoin
    rw [hs] at hstep
    rw [loops, List.map_cons, List.sum_cons]
    generalize hs' : slot (levelCode (takes i) leftJoin item.iCursor g).2.slots j = x' at hstep
    cases hstep with
    | taken _ hj _ => exact absurd hj (hn _ List.mem_cons_self)
    | tested _ _ hc =>
      have hrest : ((loops takes (i + 1) item.jtLeft items (levelCode (takes i) leftJoin item.iCursor g).2).map
          fun l => l.tests.count j).sum = 0 := by
        refine List.sum_eq_zero fun n hmem => ?_
        obtain ⟨l, hl, rfl⟩ := List.mem_map.1 hmem
        exact (loops_gone hs' hl).2
      rw [hc, hrest]
    | kept hnot _ hc =>
      rw [hc, Nat.zero_add]
      have hitems : items ≠ [] := by
        rintro rfl
        exact Bool.false_ne_true (hnot.symm.trans hr)
      rw [List.map_cons, ← List.singleton_append, ← List.append_assoc] at hr
      exact ih hnext hitems hs' hr fun l hl => hn l (List.mem_cons_of_mem _ hl)

/-- A term is used as soon as it looks ready. -/
theorem loops_early (hF : F.length ≤ 32) (h : Before F opened items g) (hk : k < items.length)
    (hs : slot g.slots j = some info)
    (hr : ready (mask 32 F (opened ++ (items.map (·.iCursor)).take (k + 1))) info = true) :
    ∃ k' ≤ k, ∃ l, (loops takes i leftJoin items g)[k']? = some l ∧ (j ∈ l.taken ∨ j ∈ l.tests) := by
  induction items generalizing opened g i leftJoin k with
  | nil => cases hk
  | cons item items ih =>
    have hstep := h.step hF (takes i) leftJoin j
    have hnext := h.next hF (takes i) leftJoin
    rw [hs] at hstep
    generalize hs' : slot (levelCode (takes i) leftJoin item.iCursor g).2.slots j = x' at hstep
    cases hstep with
    | taken _ hj _ => exact ⟨0, Nat.zero_le k, _, rfl, .inl hj⟩
    | tested _ _ hc =>
      have htest : j ∈ (levelCode (takes i) leftJoin item.iCursor g).1.tests :=
        List.count_pos_iff.1 (Nat.lt_of_lt_of_eq Nat.one_pos hc.symm)
      exact ⟨0, Nat.zero_le k, _, rfl, .inr htest⟩
    | kept hnot _ _ =>
      cases k with
      | zero => exact absurd (hnot.symm.trans hr) Bool.false_ne_true
      | succ k =>
        rw [List.map_cons, List.take_succ_cons, ← List.singleton_append, ← List.append_assoc] at hr
        obtain ⟨k', hle, l, hl, hj⟩ := ih hnext (Nat.lt_of_succ_lt_succ hk) hs' hr
        exact ⟨k' + 1, Nat.succ_le_succ hle, l, hl, hj⟩

end

/-! ## What a term needs -/

section
variable {F hidden ds : List Int} {t : Node} {info : ExprInfo}

/-- A term looks ready when its tables that have a bit have been opened. -/
theorem Analyzed.ready_iff (h : Analyzed F hidden t info) (hnodup : F.Nodup) (hF : F.length ≤ 32) :
    ready (mask 32 F ds) info = true ↔ ∀ c ∈ mentions t, c ∉ hidden → c ∈ F → c ∈ ds := by
  rw [ready, beq_iff_eq, h.all, mask_subset_iff hnodup hF]
  exact ⟨fun hall c hc hn => hall c (mem_visible.2 ⟨hc, hn⟩),
    fun hall c hc => hall c (mem_visible.1 hc).1 (mem_visible.1 hc).2⟩

theorem mentions_of_columnOf {e : Node} {c : Int} (h : columnOf e = some c) : mentions e = [c] := by
  cases e with
  | null => cases h
  | node d l r list sel =>
    rw [columnOf, Option.ite_none_right_eq_some, Option.some.injEq] at h
    rw [mentions, if_pos h.1, h.2]

theorem mentions_of_indexOp (h : indexOp t = true) :
    mentions t = mentions (pRight t) ++ mentions (pLeft t) ++ listMentions (pList t) := by
  cases t with
  | null => cases h
  | node d l r list sel =>
    rw [mentions, if_neg]
    · rfl
    · intro hop
      rw [indexOp, hop] at h
      cases h

/-- A term that a loop can take is on its table, and on tables with a bit that have been opened. -/
theorem Analyzed.usable_imp (h : Analyzed F hidden t info) (hnodup : F.Nodup) (hF : F.length ≤ 32) {cur : Int}
    (hu : usable (mask 32 F ds) cur info = true) :
    indexOp t = true ∧ ∀ c, c ∈ mentions (pRight t) ++ mentions (pLeft t) → c ∉ hidden → c ∈ F → c ∈ ds ++ [cur] := by
  have hcur : cur ∈ ds ++ [cur] := List.mem_append_right ds (List.mem_singleton_self cur)
  have hother : ∀ {cs : List Int} {m : BitVec 32}, m = mask 32 F (visible hidden cs) → m &&& mask 32 F ds = m →
      ∀ c ∈ cs, c ∉ hidden → c ∈ F → c ∈ ds ++ [cur] := by
    rintro cs _ rfl hm c hc hn hseat
    exact List.mem_append_left _ ((mask_subset_iff hnodup hF _ _).1 hm c (mem_visible.2 ⟨hc, hn⟩) hseat)
  unfold usable at hu
  simp only [Bool.or_eq_true, Bool.and_eq_true, beq_iff_eq] at hu
  rcases hu with ⟨hidx, hm⟩ | ⟨hidx, hm⟩
  · obtain ⟨hop, hcol⟩ := h.idxLeft cur hidx
    refine ⟨hop, fun c hc hn hseat => ?_⟩
    rcases List.mem_append.1 hc with hc | hc
    · exact hother h.right hm c hc hn hseat
    · rw [mentions_of_columnOf hcol, List.mem_singleton] at hc
      exact hc ▸ hcur
  · obtain ⟨hop, hcol⟩ := h.idxRight cur hidx
    refine ⟨hop, fun c hc hn hseat => ?_⟩
    rcases List.mem_append.1 hc with hc | hc
    · rw [mentions_of_columnOf hcol, List.mem_singleton] at hc
      exact hc ▸ hcur
    · exact hother h.left hm c hc hn hseat

/-- A constant has no column on a side. -/
theorem columnOf_of_constant {e : Node} (h : exprIsConstant e = true) : columnOf e = none := by
  cases e with
  | null => rfl
  | node d l r list sel =>
    refine if_neg fun hop => ?_
    rw [exprIsConstant, hop] at h
    cases h

theorem sides_of_constant (h : exprIsConstant t = true) (hop : indexOp t = true) :
    columnOf (pLeft t) = none ∧ columnOf (pRight t) = none := by
  cases t with
  | null => cases hop
  | node d l r list sel =>
    have hsides : exprIsConstant l = true ∧ exprIsConstant r = true := by
      cases hd : d.op with
      | in_ | compare =>
        rw [exprIsConstant, hd] at h
        simp only [Bool.and_eq_true] at h
        exact ⟨h.1.1.1, h.1.1.2⟩
      | _ =>
        rw [indexOp, hd] at hop
        cases hop
    exact ⟨columnOf_of_constant hsides.1, columnOf_of_constant hsides.2⟩

/-- No loop can take a constant. -/
theorem Analyzed.not_usable (h : Analyzed F hidden t info) (hc : exprIsConstant t = true) (m : BitVec 32) (cur : Int) :
    usable m cur info = false := by
  have hl : info.idxLeft ≠ some cur := fun hi => by
    obtain ⟨hop, hcol⟩ := h.idxLeft cur hi
    rw [(sides_of_constant hc hop).1] at hcol
    cases hcol
  have hr : info.idxRight ≠ some cur := fun hi => by
    obtain ⟨hop, hcol⟩ := h.idxRight cur hi
    rw [(sides_of_constant hc hop).2] at hcol
    cases hcol
  rw [usable, beq_false_of_ne hl, beq_false_of_ne hr]
  rfl

end

/-- The terms of a constant are constant. -/
theorem constant_of_mem_exprSplit : (e : Node) → ∀ {n : Nat} {t : Node}, t ∈ exprSplit n e →
    exprIsConstant e = true → exprIsConstant t = true
  | .null, n, t, ht, _ => by
    rw [exprSplit] at ht
    cases ht
  | .node d l r list sel, n, t, ht, hc => by
    unfold exprSplit at ht
    split at ht
    · cases ht
    · split at ht
      · rw [List.mem_singleton.1 ht]
        exact hc
      · next hop =>
        have hand : d.op = .and := not_not.1 (not_or.1 hop).2
        rw [exprIsConstant, hand] at hc
        simp only [Bool.and_eq_true] at hc
        split at ht
        · rcases List.mem_cons.1 ht with rfl | ht
          · exact hc.1.1.1
          · exact constant_of_mem_exprSplit r ht hc.1.1.2
        · rcases List.mem_append.1 ht with ht | ht
          · exact constant_of_mem_exprSplit l ht hc.1.1.1
          · exact constant_of_mem_exprSplit r ht hc.1.1.2

/-- A clause has a term. -/
theorem exprSplit_ne_nil : (e : Node) → ∀ {n : Nat}, 0 < n → isNull e = false → exprSplit n e ≠ []
  | .null, _, _, h => by cases h
  | .node d l r list sel, n, hn, _ => by
    unfold exprSplit
    rw [if_neg (by omega)]
    split
    · exact List.cons_ne_nil _ _
    · split
      · exact List.cons_ne_nil _ _
      · next hl =>
        have hl' : isNull l = false := by
          cases l with
          | null => exact absurd rfl hl
          | node => rfl
        exact fun h => exprSplit_ne_nil l hn hl' (List.append_eq_nil_iff.1 h).1

/-! ## The run -/

/-- What a run of `__where_begin` goes through: `F` are the cursors that have a bit in the end. -/
structure Run (q : Join) (takes : Nat → Nat → Bool) (w : Loops) (F : List Int) (infos : List ExprInfo) (g : Gen) :
    Prop where
  nodup : F.Nodup
  length_le : F.length ≤ 32
  terms : w.terms = exprSplit numSlots q.whereClause
  upfront : w.upfront = (!isNull q.whereClause && (q.tabList.isEmpty || exprIsConstant q.whereClause))
  analyzed : List.Forall₂ (Analyzed F (trigCursors q.trigStack)) w.terms infos
  slots : g.slots = infos.map some
  before : Before F [] q.tabList g
  levels : w.levels = loops takes 0 false q.tabList g
  numbered : ∀ c ∈ (exprSplit numSlots q.whereClause).flatMap (lookups q.trigStack), c ∈ F ↔ Numbered q c

theorem planMasks_ix (maskSet : MaskSet) (tabList : List SrcItem) :
    (planMasks maskSet tabList).ix = seats 32 maskSet.ix ((tabList.take 32).map (·.iCursor)) := by
  unfold planMasks
  generalize tabList.take 32 = items
  induction items generalizing maskSet with
  | nil => rfl
  | cons item items ih =>
    rw [List.foldl_cons, ih, getCursorBitmask_ix]
    rfl

theorem whereBegin_run {q : Join} {takes : Nat → Nat → Bool} {w : Loops} (h : whereBegin q takes = .ok w) :
    ∃ F infos g, Run q takes w F infos g := by
  unfold whereBegin at h
  dsimp only at h
  split at h
  · cases h
  · cases h
    generalize hres : analyzeTerms q.trigStack (exprSplit numSlots q.whereClause) .empty = res
    obtain ⟨hix, hinfos⟩ := analyzeTerms_spec q.trigStack (exprSplit numSlots q.whereClause) .empty
    rw [hres] at hix hinfos
    have hplan := planMasks_ix res.2 q.tabList
    have hnodup := nodup_seats (n := 32) (planMasks res.2 q.tabList).nodup q.cursors
    have hle := length_seats_le (planMasks res.2 q.tabList).n_le q.cursors
    have hp : res.2.ix <+: seats 32 (planMasks res.2 q.tabList).ix q.cursors := by
      refine .trans ?_ (prefix_seats _ _)
      rw [hplan]
      exact prefix_seats _ _
    refine ⟨_, res.1, _, ⟨hnodup, hle, rfl, rfl, hinfos _ hnodup hle hp, rfl, ⟨rfl, List.prefix_rfl⟩, rfl, ?_⟩⟩
    intro c hc
    have hA : c ∈ res.2.ix ∨ 32 ≤ res.2.ix.length := hix ▸ mem_seats_or_full hc
    have hiff : c ∈ seats 32 (planMasks res.2 q.tabList).ix q.cursors ↔ c ∈ res.2.ix := by
      refine ⟨fun hF => ?_, fun h => hp.subset h⟩
      rcases hA with hA | hfull
      · exact hA
      · rw [hp.eq_of_length_le (hle.trans hfull)]
        exact hF
    rw [hiff, hix]
    exact mem_seats_iff hc

/-! ## When the tests are right -/

/-- What comes before the last of a kind, and that one is among the first `k`. -/
theorem mem_take_of_last {l : List Int} {p : Int → Bool} {c d : Int} {k : Nat} (hl : l.Nodup)
    (hlast : (l.filter p).getLast? = some c) (hc : c ∈ l.take k) (hd : d ∈ l) (hp : p d = true) : d ∈ l.take k := by
  rw [← List.take_append_drop k l] at hl hd hlast
  rcases List.mem_append.1 hd with hd | hd
  · exact hd
  · exfalso
    have hne : (l.drop k).filter p ≠ [] := List.ne_nil_of_mem (List.mem_filter.2 ⟨hd, hp⟩)
    rw [List.filter_append, List.getLast?_append_of_ne_nil _ hne] at hlast
    have hc' : c ∈ l.drop k := (List.mem_filter.1 (List.mem_of_getLast? hlast)).1
    exact (List.nodup_append.1 hl).2.2 c hc c hc' rfl

section
variable {q : Join} {takes : Nat → Nat → Bool} {w : Loops} {F : List Int} {infos : List ExprInfo} {g : Gen}

theorem lastOpened_of_mem {t : Node} {d : Int} (hd : d ∈ mentions t) (hmem : d ∈ q.cursors) :
    ∃ c, lastOpened q t = some c := by
  have hne : q.cursors.filter (· ∈ mentions t) ≠ [] :=
    List.ne_nil_of_mem (List.mem_filter.2 ⟨hmem, decide_eq_true hd⟩)
  exact ⟨_, List.getLast?_eq_some_getLast hne⟩

theorem mem_of_lastOpened {t : Node} {c : Int} (h : lastOpened q t = some c) : c ∈ q.cursors ∧ c ∈ mentions t := by
  obtain ⟨hmem, hp⟩ := List.mem_filter.1 (List.mem_of_getLast? h)
  exact ⟨hmem, of_decide_eq_true hp⟩

theorem not_trigger {c : Int} (h : c ∈ q.cursors) : c ∉ trigCursors q.trigStack := by
  obtain ⟨item, hitem, rfl⟩ := List.mem_map.1 h
  exact q.fresh item hitem

/-- The slots hold the terms. -/
theorem Run.slot (h : Run q takes w F infos g) {j : Nat} {t : Node} (ht : w.terms[j]? = some t) :
    ∃ info, Where.slot g.slots j = some info ∧ Analyzed F (trigCursors q.trigStack) t info := by
  obtain ⟨hlt, rfl⟩ := List.getElem?_eq_some_iff.1 ht
  have hlt' : j < infos.length := h.analyzed.length_eq ▸ hlt
  refine ⟨infos[j], ?_, List.Forall₂.get h.analyzed hlt hlt'⟩
  rw [Where.slot, h.slots, List.getElem?_map, List.getElem?_eq_getElem hlt']
  rfl

/-- A cursor of a term has a bit in the end, just when it is numbered. -/
theorem Run.numbered_iff (h : Run q takes w F infos g) {t : Node} (ht : t ∈ w.terms) {c : Int} (hc : c ∈ mentions t) :
    c ∈ F ↔ Numbered q c := by
  refine h.numbered c (List.mem_flatMap.2 ⟨t, h.terms ▸ ht, ?_⟩)
  exact List.mem_append_left _ (List.mem_append_right _ hc)

/-- What a term mentions is positioned in the end. -/
theorem Run.ready_all (h : Run q takes w F infos g) {t : Node} {info : ExprInfo} (ht : t ∈ w.terms)
    (hinfo : Analyzed F (trigCursors q.trigStack) t info) : ready (mask 32 F q.cursors) info = true := by
  refine (hinfo.ready_iff h.nodup h.length_le).2 fun c hc hn _ => ?_
  exact (q.resolved c (mentions_of_mem_exprSplit q.whereClause (h.terms ▸ ht) hc)).resolve_right hn

/-- How often the loops test a term that no loop takes. -/
theorem Run.tested (h : Run q takes w F infos g) (hne : q.tabList ≠ []) {j : Nat} (hj : j < w.terms.length)
    (hn : ∀ l ∈ w.levels, j ∉ l.taken) : (w.levels.map fun l => l.tests.count j).sum = 1 := by
  have ht : w.terms[j]? = some w.terms[j] := List.getElem?_eq_getElem hj
  obtain ⟨info, hs, hinfo⟩ := h.slot ht
  rw [h.levels] at hn ⊢
  exact loops_once h.length_le h.before hne hs (h.ready_all (List.mem_of_getElem? ht) hinfo) hn

/-- Where the clause does not reach the defects, a term is used behind its last table. -/
theorem Run.positioned (h : Run q takes w F infos g) (hok : JoinOk q) {i : Nat} {l : Level} (hl : w.levels[i]? = some l)
    {j : Nat} (hj : j ∈ l.taken ∨ j ∈ l.tests) {t : Node} (ht : w.terms[j]? = some t) {d : Int} (hd : d ∈ mentions t)
    (hmem : d ∈ q.cursors) : d ∈ q.cursors.take (i + 1) := by
  have htmem : t ∈ w.terms := List.mem_of_getElem? ht
  obtain ⟨info, hs, hinfo⟩ := h.slot ht
  rw [h.levels] at hl
  obtain ⟨info', cur, hs', hcur, htake, htest⟩ := loops_used h.length_le h.before hl hj
  obtain rfl := Option.some.inj (hs.symm.trans hs')
  obtain ⟨c, hlast⟩ := lastOpened_of_mem hd hmem
  obtain ⟨hcmem, hc⟩ := mem_of_lastOpened hlast
  suffices hpos : c ∈ q.cursors.take (i + 1) from
    mem_take_of_last q.distinct hlast hpos hmem (decide_eq_true hd)
  rcases hok.numbered t (h.terms ▸ htmem) c hlast with hhead | hnum
  · obtain ⟨rest, hrest⟩ := List.head?_eq_some_iff.1 hhead
    rw [hrest]
    exact List.mem_cons_self
  · have hF : c ∈ F := (h.numbered_iff htmem hc).2 hnum
    have hn := not_trigger hcmem
    rcases hj with hj | hj
    · obtain ⟨hop, hall⟩ := hinfo.usable_imp h.nodup h.length_le (htake hj)
      rw [mentions_of_indexOp hop, q.constant t (h.terms ▸ htmem) hop, List.append_nil] at hc
      rw [List.take_add_one, show q.cursors[i]? = some cur from hcur]
      exact hall c hc hn hF
    · exact (hinfo.ready_iff h.nodup h.length_le).1 (htest hj) c hc hn hF

/-- A term whose last table has no bit, and is not the first, is used before that one is opened. -/
theorem Run.unpositioned (h : Run q takes w F infos g) {t : Node} (ht : t ∈ w.terms) {c : Int}
    (hlast : lastOpened q t = some c) (hhead : q.cursors.head? ≠ some c) (hnum : ¬ Numbered q c) :
    ∃ i l j, w.levels[i]? = some l ∧ (j ∈ l.taken ∨ j ∈ l.tests) ∧ w.terms[j]? = some t ∧ c ∉ q.cursors.take (i + 1) := by
  obtain ⟨hcmem, hc⟩ := mem_of_lastOpened hlast
  have hlt : q.cursors.idxOf c < q.cursors.length := List.idxOf_lt_length_of_mem hcmem
  obtain ⟨k, hk⟩ : ∃ k, q.cursors.idxOf c = k + 1 := by
    refine Nat.exists_eq_succ_of_ne_zero fun h0 => hhead ?_
    rw [List.head?_eq_getElem?, ← h0, List.getElem?_eq_getElem hlt, List.getElem_idxOf]
  obtain ⟨j, hj⟩ := List.getElem?_of_mem ht
  obtain ⟨info, hs, hinfo⟩ := h.slot hj
  have hready : ready (mask 32 F ([] ++ q.cursors.take (k + 1))) info = true := by
    refine (hinfo.ready_iff h.nodup h.length_le).2 fun d hd hn hseat => ?_
    have hdmem : d ∈ q.cursors :=
      (q.resolved d (mentions_of_mem_exprSplit q.whereClause (h.terms ▸ ht) hd)).resolve_right hn
    have htake : d ∈ q.cursors.take (k + 2) :=
      mem_take_of_last q.distinct hlast ((List.mem_take_iff_idxOf_lt hcmem).2 (by omega)) hdmem (decide_eq_true hd)
    have hne : q.cursors.idxOf d ≠ q.cursors.idxOf c := fun e =>
      hnum ((h.numbered_iff ht hc).1 ((List.idxOf_inj hdmem).1 e ▸ hseat))
    rw [List.mem_take_iff_idxOf_lt hdmem] at htake
    exact (List.mem_take_iff_idxOf_lt hdmem).2 (by omega)
  have hklt : k < q.tabList.length := by
    have hlen : q.cursors.length = q.tabList.length := List.length_map _
    omega
  have hearly : ∃ k' ≤ k, ∃ l, (loops takes 0 false q.tabList g)[k']? = some l ∧ (j ∈ l.taken ∨ j ∈ l.tests) :=
    loops_early h.length_le h.before hklt hs hready
  obtain ⟨k', hle, l, hl, huse⟩ := hearly
  refine ⟨k', l, j, h.levels ▸ hl, huse, hj, fun hmem => ?_⟩
  rw [List.mem_take_iff_idxOf_lt hcmem] at hmem
  omega

/-- A constant is not taken. -/
theorem Run.not_taken (h : Run q takes w F infos g) (hconst : exprIsConstant q.whereClause = true) {j : Nat} {t : Node}
    (ht : w.terms[j]? = some t) {l : Level} (hl : l ∈ w.levels) : j ∉ l.taken := by
  intro hj
  obtain ⟨i, hi⟩ := List.getElem?_of_mem hl
  obtain ⟨info, hs, hinfo⟩ := h.slot ht
  rw [h.levels] at hi
  obtain ⟨info', cur, hs', -, htake, -⟩ := loops_used h.length_le h.before hi (.inl hj)
  obtain rfl := Option.some.inj (hs.symm.trans hs')
  have htc := constant_of_mem_exprSplit q.whereClause (h.terms ▸ List.mem_of_getElem? ht) hconst
  rw [hinfo.not_usable htc] at htake
  exact Bool.false_ne_true (htake hj)

end

/-- Each term is tested where its tables have been positioned, and once, just when the clause does not
reach the defects: whatever the loops take for their rowids and indices. -/
theorem whereBegin_iff (q : Join) (takes : Nat → Nat → Bool) (w : Loops) (h : whereBegin q takes = .ok w) :
    EachTested q w ↔ JoinOk q := by
  obtain ⟨F, infos, g, hrun⟩ := whereBegin_run h
  constructor
  · intro heach
    refine ⟨fun hconst => ?_, fun t ht c hlast => ?_⟩
    · by_contra hboth
      rw [not_or, Bool.not_eq_true] at hboth
      have hne := exprSplit_ne_nil q.whereClause (n := numSlots) (by decide) hboth.1
      rw [← hrun.terms] at hne
      have hlt : 0 < w.terms.length := List.length_pos_of_ne_nil hne
      have hn : ∀ l ∈ w.levels, 0 ∉ l.taken := fun l hl =>
        hrun.not_taken hconst (List.getElem?_eq_getElem hlt) hl
      have honce := heach.once 0 hlt hn
      have hup : w.upfront = true := by
        rw [hrun.upfront, hboth.1, hconst, Bool.or_true]
        rfl
      rw [timesTested, hrun.tested hboth.2 hlt hn, hup] at honce
      cases honce
    · by_contra hboth
      rw [not_or] at hboth
      obtain ⟨i, l, j, hl, hj, htj, hn⟩ := hrun.unpositioned (hrun.terms ▸ ht) hlast hboth.1 hboth.2
      obtain ⟨hcmem, hc⟩ := mem_of_lastOpened hlast
      exact hn (heach.positioned i l hl j hj t htj c hc hcmem)
  · intro hok
    refine ⟨fun i l hl j hj t ht c hc hmem => hrun.positioned hok hl hj ht hc hmem, fun j hj hn => ?_⟩
    have hnull : isNull q.whereClause = false := by
      rw [hrun.terms] at hj
      cases hw : q.whereClause with
      | null =>
        rw [hw, exprSplit] at hj
        cases hj
      | node => rfl
    by_cases hne : q.tabList = []
    · have hlevels : w.levels = [] := by rw [hrun.levels, hne, loops]
      have hup : w.upfront = true := by
        rw [hrun.upfront, hnull, hne]
        rfl
      rw [timesTested, hlevels, hup]
      rfl
    · have hconst : exprIsConstant q.whereClause = false := by
        refine Bool.eq_false_iff.2 fun hc => ?_
        rcases hok.variable_ hc with hnull' | hnil
        · exact Bool.false_ne_true (hnull.symm.trans hnull')
        · exact hne hnil
      have hup : w.upfront = false := by
        rw [hrun.upfront, hconst, Bool.or_false, List.isEmpty_eq_false_iff.2 hne, Bool.and_false]
      rw [timesTested, hrun.tested hne hj hn, hup]
      rfl

/-- A column of a table. -/
def columnNode (iTable : Int) : Node := .node ⟨.column, .num, false, none, iTable, 0, 0⟩ .null .null .null .null

/-- `SELECT … FROM t WHERE t.a`. -/
def oneTable : Join where
  tabList := [⟨0, false⟩]
  whereClause := columnNode 0
  trigStack := none
  distinct := List.nodup_singleton 0
  fresh := by decide
  resolved := by decide
  constant := by decide

theorem oneTable_tested : EachTested oneTable ⟨[columnNode 0], false, [⟨[], [0]⟩]⟩ := by
  refine (whereBegin_iff oneTable (fun _ _ => false) _ rfl).2 ⟨by decide, fun t ht c hlast => .inl ?_⟩
  obtain rfl := List.mem_singleton.1 ht
  exact hlast

/-- `SELECT … FROM t0, …, t32 WHERE coalesce(t0.a, …, t31.a) AND t32.a`. -/
def wideJoin : Join where
  tabList := (List.range 33).map fun i => ⟨i, false⟩
  whereClause := .node ⟨.and, .num, false, none, 0, 0, 0⟩
    (.node ⟨.function, .num, false, none, 0, 0, 0⟩ .null .null
      ((List.range 32).foldr (fun i rest => .cons (columnNode i) rest) .nil) .null)
    (columnNode 32) .null .null
  trigStack := none
  distinct := by decide
  fresh := by decide
  resolved := by decide
  constant := by decide

/-- The term on the last table is tested in the loop over the first. -/
theorem wideJoin_early : ¬ ∀ q takes w, whereBegin q takes = .ok w → EachTested q w := by
  intro h
  have hrun : ∃ w, whereBegin wideJoin (fun _ _ => false) = .ok w ∧ w.terms[1]? = some (columnNode 32) ∧
      w.levels[0]? = some ⟨[], [1]⟩ := ⟨_, rfl, rfl, by decide +kernel⟩
  obtain ⟨w, hw, ht, hl⟩ := hrun
  have hpos := (h wideJoin _ w hw).positioned 0 _ hl 1 (.inr (by decide)) _ ht 32 (by decide) (by decide)
  revert hpos
  decide

end Dbsql.L5.Where
