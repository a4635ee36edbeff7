import Dbsql.L7Lemon.ActTab
import Dbsql.L7Lemon.Actions
import Dbsql.L7Lemon.Engine
/-!
# Writing the tables (lemon.c, ReportTable)

The actions of a state on tokens and those on nonterminals are two transaction sets. They are
sorted by size, in an order among equals that `qsort` is free to choose (`Order`), and packed into
one table; an empty set gets no offset.

`acttab_insert` does not look for other sets when it appends one, so a set can be given the offset
of a smaller one it does not agree with. Then both states find the actions of both sets.
`ClashFree` says that this has not happened.

Results:
* `entryAt_packed`: an entry is found exactly for the actions of the sets at the offset.
* `findShift_eq`, `findReduce_eq`: without a clash the engine finds, from the tables, what the
  actions of the state say, the default of the state otherwise.
-/
namespace Dbsql.L7
open ActTab Engine

/-- `compute_action` with the counts of this grammar. -/
def actCode (lemp : Lemon) (sts : List (List Action)) (ap : Action) : Option Nat :=
  computeAction sts.length lemp.nrule ap

section
variable (lemp : Lemon) (sts : List (List Action))

/-- The actions of a state that go to `acttab_action` with tokens (lemon.c:3312-3318). -/
def tokenActs (aps : List Action) : List (Nat × Nat) :=
  aps.filterMap fun ap =>
    if lemp.nterminal ≤ ap.sp then none else (actCode lemp sts ap).map fun act => (ap.sp, act)

/-- Those that go there with nonterminals (lemon.c:3323-3330). -/
def ntActs (aps : List Action) : List (Nat × Nat) :=
  aps.filterMap fun ap =>
    if ap.sp < lemp.nterminal ∨ ap.sp = lemp.nsymbol then none
    else (actCode lemp sts ap).map fun act => (ap.sp, act)

/-- `stp->iDflt` (lemon.c:3277-3291). -/
def iDflt (aps : List Action) : Nat :=
  aps.foldl (fun d ap => if lemp.nsymbol ≤ ap.sp then (actCode lemp sts ap).getD d else d)
    (sts.length + lemp.nrule)

/-- The actions of a state by its index. -/
def actionsOf (s : Nat) : List Action := sts.getD s []

/-- `struct axset` (lemon.c:3163-3167). -/
structure Axset where
  stp : Nat
  isTkn : Bool
  nAction : Nat
  deriving DecidableEq

/-- The transaction set of an `axset`. -/
def setOf (stp : Nat) (isTkn : Bool) : List (Nat × Nat) :=
  if isTkn then tokenActs lemp sts (actionsOf sts stp) else ntActs lemp sts (actionsOf sts stp)

def axset (stp : Nat) (isTkn : Bool) : Axset := ⟨stp, isTkn, (setOf lemp sts stp isTkn).length⟩

/-- The array `ax` before it is sorted. -/
def axsets : List Axset :=
  (List.range sts.length).flatMap fun i => [axset lemp sts i true, axset lemp sts i false]

/-- What `qsort` with `axset_compare` can make of it. -/
structure Order where
  ax : List Axset
  perm : ax.Perm (axsets lemp sts)
  sorted : ax.Pairwise fun a b => b.nAction ≤ a.nAction

variable {lemp sts} (o : Order lemp sts)

/-- The sets that the loop reaches: it stops at the first empty one. -/
def Order.placed : List Axset := o.ax.takeWhile (0 < ·.nAction)

def Order.sets : List (List (Nat × Nat)) := o.placed.map fun x => setOf lemp sts x.stp x.isTkn

/-- The table with all sets, and the offsets. -/
def Order.packed : Acttab × List Int := insertAll acttabAlloc o.sets

/-- The sets with the offsets they were given. -/
def Order.given : List (Axset × Int) := o.placed.zip o.packed.2

/-- `stp->iTknOfst` and `stp->iNtOfst`, `none` for `NO_OFFSET`. -/
def Order.offsetOf (s : Nat) (isTkn : Bool) : Option Int :=
  (o.given.find? fun x => x.1.stp = s && x.1.isTkn = isTkn).map Prod.snd

/-- `mnTknOfst` and `mnNtOfst`. -/
def Order.mnOfst (isTkn : Bool) : Int :=
  (o.given.filter fun x => x.1.isTkn = isTkn).foldl (fun m x => if x.2 < m then x.2 else m) 0

/-- The tables as they are written. -/
def Order.tables (YYSTACKDEPTH : Nat) : Tables where
  YYNSTATE := sts.length
  YYNRULE := lemp.nrule
  YYNOCODE := lemp.nsymbol + 1
  YYSTACKDEPTH := YYSTACKDEPTH
  YYERRORSYMBOL := lemp.errsym
  YY_SHIFT_USE_DFLT := o.mnOfst true - 1
  YY_REDUCE_USE_DFLT := o.mnOfst false - 1
  yyAction := o.packed.1.aAction.map fun e => e.elim (lemp.nsymbol + lemp.nrule + 2) Prod.snd
  yyLookahead := o.packed.1.aAction.map fun e => e.elim lemp.nsymbol Prod.fst
  yyShiftOfst := (List.range sts.length).map fun s => (o.offsetOf s true).getD (o.mnOfst true - 1)
  yyReduceOfst := (List.range sts.length).map fun s => (o.offsetOf s false).getD (o.mnOfst false - 1)
  yyDefault := (List.range sts.length).map fun s => iDflt lemp sts (actionsOf sts s)
  yyFallback :=
    if (List.range lemp.nterminal).any fun x => (lemp.fallback x).isSome then
      (List.range lemp.nterminal).map fun x => (lemp.fallback x).getD 0
    else []
  yyRuleInfo := lemp.rules.map fun r => (r.lhs, r.rhs.length % 256)

/-- Two sets of one kind at one offset have the same actions. -/
def Order.ClashFree : Prop :=
  ∀ x ∈ o.given, ∀ y ∈ o.given, x.2 = y.2 → x.1.isTkn = y.1.isTkn →
    ∀ e ∈ setOf lemp sts x.1.stp x.1.isTkn, e ∈ setOf lemp sts y.1.stp y.1.isTkn

instance : Decidable o.ClashFree :=
  inferInstanceAs (Decidable (∀ x ∈ o.given, ∀ y ∈ o.given, x.2 = y.2 → x.1.isTkn = y.1.isTkn →
    ∀ e ∈ setOf lemp sts x.1.stp x.1.isTkn, e ∈ setOf lemp sts y.1.stp y.1.isTkn))

end

/-! ## The sets -/

variable {lemp : Lemon} {sts : List (List Action)} {aps : List Action} {a act s : Nat}

theorem mem_tokenActs : (a, act) ∈ tokenActs lemp sts aps ↔
    a < lemp.nterminal ∧ ∃ ap ∈ aps, ap.sp = a ∧ actCode lemp sts ap = some act := by
  unfold tokenActs
  rw [List.mem_filterMap]
  constructor
  · intro h
    obtain ⟨ap, hmem, hap⟩ := h
    split at hap
    · cases hap
    · next hlt =>
      obtain ⟨act', hcode, heq⟩ := Option.map_eq_some_iff.1 hap
      cases heq
      exact ⟨Nat.not_le.1 hlt, ap, hmem, rfl, hcode⟩
  · intro h
    obtain ⟨hlt, ap, hmem, rfl, hcode⟩ := h
    refine ⟨ap, hmem, ?_⟩
    rw [if_neg (Nat.not_le.2 hlt), hcode]
    rfl

theorem mem_ntActs : (a, act) ∈ ntActs lemp sts aps ↔
    lemp.nterminal ≤ a ∧ a ≠ lemp.nsymbol ∧ ∃ ap ∈ aps, ap.sp = a ∧ actCode lemp sts ap = some act := by
  unfold ntActs
  rw [List.mem_filterMap]
  constructor
  · intro h
    obtain ⟨ap, hmem, hap⟩ := h
    split at hap
    · cases hap
    · next hlt =>
      obtain ⟨act', hcode, heq⟩ := Option.map_eq_some_iff.1 hap
      cases heq
      exact ⟨Nat.not_lt.1 (not_or.1 hlt).1, (not_or.1 hlt).2, ap, hmem, rfl, hcode⟩
  · intro h
    obtain ⟨hle, hne, ap, hmem, rfl, hcode⟩ := h
    refine ⟨ap, hmem, ?_⟩
    rw [if_neg (not_or.2 ⟨Nat.not_lt.2 hle, hne⟩), hcode]
    rfl

theorem actCode_inUse {ap : Action} (h : actCode lemp sts ap = some act) : ap.inUse = true := by
  rw [← computeAction_isSome sts.length lemp.nrule ap]
  exact Option.isSome_of_eq_some h

/-- The lookaheads of a set are some of those in use, in their order. -/
theorem keys_sublist {f : Action → Option (Nat × Nat)}
    (hf : ∀ ap e, f ap = some e → ap.inUse = true ∧ e.1 = ap.sp) (aps : List Action) :
    ((aps.filterMap f).map Prod.fst).Sublist (usedSps aps) := by
  induction aps with
  | nil => exact List.Sublist.refl _
  | cons ap aps ih =>
    rw [usedSps_cons]
    cases hap : f ap with
    | none =>
      rw [List.filterMap_cons_none hap]
      split
      · exact ih.cons _
      · exact ih
    | some e =>
      obtain ⟨hu, hfst⟩ := hf ap e hap
      rw [List.filterMap_cons_some hap, if_pos hu, List.map_cons, hfst]
      exact ih.cons_cons _

theorem tokenActs_nodup (h : (usedSps aps).Nodup) : ((tokenActs lemp sts aps).map Prod.fst).Nodup := by
  refine (keys_sublist (fun ap e he => ?_) aps).nodup h
  split at he
  · cases he
  · obtain ⟨act, hcode, rfl⟩ := Option.map_eq_some_iff.1 he
    exact ⟨actCode_inUse hcode, rfl⟩

theorem ntActs_nodup (h : (usedSps aps).Nodup) : ((ntActs lemp sts aps).map Prod.fst).Nodup := by
  refine (keys_sublist (fun ap e he => ?_) aps).nodup h
  split at he
  · cases he
  · obtain ⟨act, hcode, rfl⟩ := Option.map_eq_some_iff.1 he
    exact ⟨actCode_inUse hcode, rfl⟩

/-- In every state no two actions in use have one lookahead. -/
def OneAction (sts : List (List Action)) : Prop := ∀ aps ∈ sts, (usedSps aps).Nodup

theorem OneAction.actionsOf (h : OneAction sts) (s : Nat) : (usedSps (actionsOf sts s)).Nodup := by
  unfold L7.actionsOf
  rw [List.getD_eq_getElem?_getD]
  cases hs : sts[s]? with
  | none => exact .nil
  | some aps => exact h aps (List.mem_of_getElem? hs)

theorem setOf_nodup (h : OneAction sts) (s : Nat) (isTkn : Bool) :
    ((setOf lemp sts s isTkn).map Prod.fst).Nodup := by
  unfold setOf
  split
  · exact tokenActs_nodup (h.actionsOf s)
  · exact ntActs_nodup (h.actionsOf s)

/-! ## The offsets -/

namespace Order
variable {o : Order lemp sts} {isTkn : Bool} {x y : Axset} {i : Int}

theorem takeWhile_eq_filter {l : List Axset} (h : l.Pairwise fun a b => b.nAction ≤ a.nAction) :
    l.takeWhile (0 < ·.nAction) = l.filter (0 < ·.nAction) := by
  induction l with
  | nil => rfl
  | cons x l ih =>
    obtain ⟨hx, hl⟩ := List.pairwise_cons.1 h
    by_cases hpos : 0 < x.nAction
    · rw [List.takeWhile_cons_of_pos (by simpa using hpos), List.filter_cons_of_pos (by simpa using hpos), ih hl]
    · rw [List.takeWhile_cons_of_neg (by simpa using hpos), List.filter_cons_of_neg (by simpa using hpos)]
      refine (List.filter_eq_nil_iff.2 fun y hy => ?_).symm
      have hle := hx y hy
      simp only [decide_eq_true_eq]
      omega

theorem mem_axsets : x ∈ axsets lemp sts ↔ x.stp < sts.length ∧ x = axset lemp sts x.stp x.isTkn := by
  unfold axsets
  rw [List.mem_flatMap]
  constructor
  · intro h
    obtain ⟨i, hi, hx⟩ := h
    rw [List.mem_range] at hi
    simp only [List.mem_cons, List.not_mem_nil, or_false] at hx
    rcases hx with rfl | rfl
    · exact ⟨hi, rfl⟩
    · exact ⟨hi, rfl⟩
  · intro h
    obtain ⟨hlt, hx⟩ := h
    refine ⟨x.stp, List.mem_range.2 hlt, ?_⟩
    rw [hx]
    cases x.isTkn <;> simp [axset]

theorem mem_placed : x ∈ o.placed ↔
    x.stp < sts.length ∧ x = axset lemp sts x.stp x.isTkn ∧ setOf lemp sts x.stp x.isTkn ≠ [] := by
  unfold placed
  rw [takeWhile_eq_filter o.sorted, List.mem_filter, o.perm.mem_iff, mem_axsets, and_assoc]
  refine and_congr_right fun _ => and_congr_right fun hx => ?_
  rw [hx, decide_eq_true_eq]
  exact List.length_pos_iff

theorem axsets_nodup : (axsets lemp sts).Nodup := by
  unfold axsets
  refine List.nodup_flatMap.2 ⟨fun i _ => ?_, ?_⟩
  · simp [axset]
  · refine List.nodup_range.imp fun hne => ?_
    intro x hx hx'
    simp only [List.mem_cons, List.not_mem_nil, or_false] at hx hx'
    rcases hx with rfl | rfl <;> rcases hx' with hx' | hx' <;> simp [axset, hne] at hx'

theorem placed_nodup : o.placed.Nodup :=
  (List.takeWhile_sublist _).nodup (o.perm.nodup_iff.2 axsets_nodup)

theorem length_packed : o.packed.2.length = o.placed.length := by
  unfold packed sets
  rw [length_insertAll, List.length_map]

theorem mem_given_left (h : (x, i) ∈ o.given) : x ∈ o.placed := (List.of_mem_zip h).1

theorem given_unique {j : Int} (h : (x, i) ∈ o.given) (h' : (x, j) ∈ o.given) : i = j := by
  unfold given at h h'
  obtain ⟨k, hk, hxk⟩ := List.mem_iff_getElem.1 h
  obtain ⟨k', hk', hxk'⟩ := List.mem_iff_getElem.1 h'
  rw [List.getElem_zip] at hxk hxk'
  have hxs := (congrArg Prod.fst hxk).trans (congrArg Prod.fst hxk').symm
  have hkk : k = k' := (List.Nodup.getElem_inj_iff placed_nodup).1 hxs
  subst hkk
  exact (congrArg Prod.snd hxk).symm.trans (congrArg Prod.snd hxk')

theorem exists_given (h : x ∈ o.placed) : ∃ i, (x, i) ∈ o.given := by
  obtain ⟨k, hk, rfl⟩ := List.mem_iff_getElem.1 h
  have hk' : k < o.packed.2.length := by rwa [length_packed]
  have hz : k < (o.placed.zip o.packed.2).length := by
    rw [List.length_zip]
    omega
  refine ⟨o.packed.2[k], ?_⟩
  have hmem : (o.placed.zip o.packed.2)[k] ∈ o.placed.zip o.packed.2 := List.getElem_mem hz
  rwa [List.getElem_zip] at hmem

theorem offsetOf_eq_some : o.offsetOf s isTkn = some i ↔ (axset lemp sts s isTkn, i) ∈ o.given := by
  have hkey : ∀ x : Axset × Int, x ∈ o.given → (x.1.stp = s && x.1.isTkn = isTkn) = true →
      x.1 = axset lemp sts s isTkn := by
    intro x hx hkey
    rw [Bool.and_eq_true, decide_eq_true_eq, decide_eq_true_eq] at hkey
    rw [(mem_placed.1 (mem_given_left hx)).2.1, hkey.1, hkey.2]
  unfold offsetOf
  rw [Option.map_eq_some_iff]
  constructor
  · intro h
    obtain ⟨x, hfind, rfl⟩ := h
    have hmem := List.mem_of_find?_eq_some hfind
    have hpred := List.find?_some hfind
    rw [← hkey x hmem hpred]
    exact hmem
  · intro h
    cases hfind : o.given.find? (fun x => x.1.stp = s && x.1.isTkn = isTkn) with
    | none =>
      refine absurd (List.find?_eq_none.1 hfind _ h) ?_
      simp [axset]
    | some x =>
      have hmem := List.mem_of_find?_eq_some hfind
      have hpred := List.find?_some hfind
      have hx1 := hkey x hmem hpred
      refine ⟨x, rfl, given_unique (x := x.1) hmem ?_⟩
      rwa [hx1]

theorem offsetOf_eq_none (hs : s < sts.length) :
    o.offsetOf s isTkn = none ↔ setOf lemp sts s isTkn = [] := by
  constructor
  · intro h
    by_contra hne
    obtain ⟨i, hi⟩ := exists_given (o := o) (mem_placed.2 ⟨hs, rfl, hne⟩ : axset lemp sts s isTkn ∈ o.placed)
    rw [offsetOf_eq_some.2 hi] at h
    cases h
  · intro h
    cases hoff : o.offsetOf s isTkn with
    | none => rfl
    | some i => exact absurd h (mem_placed.1 (mem_given_left (offsetOf_eq_some.1 hoff))).2.2

theorem foldl_min_le (l : List (Axset × Int)) (m : Int) :
    l.foldl (fun m x => if x.2 < m then x.2 else m) m ≤ m ∧
      ∀ x ∈ l, l.foldl (fun m x => if x.2 < m then x.2 else m) m ≤ x.2 := by
  induction l generalizing m with
  | nil => simp
  | cons y l ih =>
    obtain ⟨hm, hl⟩ := ih (if y.2 < m then y.2 else m)
    rw [List.foldl_cons]
    have hle : (if y.2 < m then y.2 else m) ≤ m ∧ (if y.2 < m then y.2 else m) ≤ y.2 := by
      split <;> omega
    exact ⟨Int.le_trans hm hle.1, List.forall_mem_cons.2 ⟨Int.le_trans hm hle.2, hl⟩⟩

/-- No set has the offset that stands for none. -/
theorem mnOfst_le (h : o.offsetOf s isTkn = some i) : o.mnOfst isTkn ≤ i := by
  refine (foldl_min_le _ 0).2 (axset lemp sts s isTkn, i) (List.mem_filter.2 ⟨offsetOf_eq_some.1 h, ?_⟩)
  simp [axset]

/-! ## Reading the tables back -/

theorem setsOk (h : OneAction sts) : SetsOk o.sets := by
  intro es hes
  obtain ⟨x, hx, rfl⟩ := List.mem_map.1 hes
  exact ⟨(mem_placed.1 hx).2.2, setOf_nodup h x.stp x.isTkn⟩

theorem mem_zip_sets {es : List (Nat × Nat)} :
    (es, i) ∈ o.sets.zip o.packed.2 ↔ ∃ x, (x, i) ∈ o.given ∧ setOf lemp sts x.stp x.isTkn = es := by
  unfold sets given
  rw [List.zip_map_left, List.mem_map]
  constructor
  · intro h
    obtain ⟨y, hy, heq⟩ := h
    cases heq
    exact ⟨y.1, hy, rfl⟩
  · intro h
    obtain ⟨x, hx, rfl⟩ := h
    exact ⟨(x, i), hx, rfl⟩

theorem slot_range {depth : Nat} (i : Int) (ha : a < lemp.nsymbol) :
    entryAt (o.tables depth) i a = lookup o.packed.1.aAction i a := by
  unfold entryAt lookup tables
  simp only [List.length_map, List.getElem?_map]
  by_cases h0 : 0 ≤ i + a
  · rw [if_pos h0]
    by_cases hlt : i + a < o.packed.1.aAction.length
    · have hk : (i + (a : Int)).toNat < o.packed.1.aAction.length := by omega
      rw [slot, List.getD_eq_getElem?_getD, List.getElem?_eq_getElem hk]
      cases hslot : o.packed.1.aAction[(i + (a : Int)).toNat] with
      | none =>
        have hne : lemp.nsymbol ≠ a := by omega
        simp [hne]
      | some e =>
        by_cases he : e.1 = a
        · simp [he, Int.not_lt.2 h0, Int.not_le.2 hlt]
          exact Prod.ext he rfl
        · simp [he]
    · have hk : o.packed.1.aAction.length ≤ (i + (a : Int)).toNat := by omega
      rw [slot, List.getD_eq_getElem?_getD, List.getElem?_eq_none hk]
      simp
  · rw [if_neg h0, if_pos (.inl (by omega))]

/-- **An entry is found exactly for the actions of the sets at the offset.** -/
theorem entryAt_packed {depth : Nat} (h : OneAction sts) (ha : a < lemp.nsymbol) :
    entryAt (o.tables depth) i a = some act ↔
      ∃ x, (x, i) ∈ o.given ∧ (a, act) ∈ setOf lemp sts x.stp x.isTkn := by
  rw [slot_range i ha]
  unfold packed
  rw [insertAll_lookup (setsOk h)]
  constructor
  · intro hex
    obtain ⟨es, hes, hmem⟩ := hex
    obtain ⟨x, hx, rfl⟩ := mem_zip_sets.1 hes
    exact ⟨x, hx, hmem⟩
  · intro hex
    obtain ⟨x, hx, hmem⟩ := hex
    exact ⟨_, mem_zip_sets.2 ⟨x, hx, rfl⟩, hmem⟩

/-- The kind of set that has a lookahead. -/
theorem isTkn_of_mem {s : Nat} (h : (a, act) ∈ setOf lemp sts s isTkn) : isTkn = decide (a < lemp.nterminal) := by
  unfold setOf at h
  split at h
  next htkn => rw [htkn, decide_eq_true (mem_tokenActs.1 h).1]
  next htkn =>
    rw [decide_eq_false (Nat.not_lt.2 (mem_ntActs.1 h).1)]
    simpa using htkn

/-- Without a clash the sets at one offset that have a lookahead agree on it. -/
theorem entryAt_own {depth : Nat} (h : OneAction sts) (hclash : o.ClashFree) (ha : a < lemp.nsymbol)
    (hoff : o.offsetOf s (decide (a < lemp.nterminal)) = some i) :
    entryAt (o.tables depth) i a = some act ↔
      (a, act) ∈ setOf lemp sts s (decide (a < lemp.nterminal)) := by
  have hown := offsetOf_eq_some.1 hoff
  rw [entryAt_packed h ha]
  constructor
  · intro hex
    obtain ⟨x, hx, hmem⟩ := hex
    have hkind := isTkn_of_mem hmem
    exact hclash (x, i) hx (_, i) hown rfl hkind (a, act) hmem
  · intro hmem
    exact ⟨_, hown, hmem⟩

/-- The action of a set for a lookahead. -/
def actOf (es : List (Nat × Nat)) (a : Nat) : Option Nat := (es.find? fun e => e.1 = a).map Prod.snd

theorem actOf_eq_some {es : List (Nat × Nat)} (h : (es.map Prod.fst).Nodup) :
    actOf es a = some act ↔ (a, act) ∈ es := by
  unfold actOf
  rw [Option.map_eq_some_iff]
  constructor
  · intro hs
    obtain ⟨e, hfind, rfl⟩ := hs
    have hpred := List.find?_some hfind
    rw [decide_eq_true_eq] at hpred
    rw [← hpred]
    exact List.mem_of_find?_eq_some hfind
  · intro hmem
    cases hfind : es.find? (fun e => e.1 = a) with
    | none =>
      refine absurd (List.find?_eq_none.1 hfind _ hmem) ?_
      simp
    | some e =>
      have hpred := List.find?_some hfind
      rw [decide_eq_true_eq] at hpred
      have heq : e = (a, act) :=
        List.inj_on_of_nodup_map h (List.mem_of_find?_eq_some hfind) hmem hpred
      exact ⟨e, rfl, by rw [heq]⟩

/-- What the set of a state and its default give for a lookahead. -/
theorem entryAt_eq_actOf (depth : Nat) (h : OneAction sts) (hclash : o.ClashFree) (ha : a < lemp.nsymbol)
    (hoff : o.offsetOf s (decide (a < lemp.nterminal)) = some i) :
    entryAt (o.tables depth) i a = actOf (setOf lemp sts s (decide (a < lemp.nterminal))) a := by
  apply Option.ext
  intro act
  rw [entryAt_own h hclash ha hoff, actOf_eq_some (setOf_nodup h s _)]

/-- What `yy_find_shift_action` says on the actions of a state, with the fallbacks of the grammar. -/
def shiftSpec (lemp : Lemon) (sts : List (List Action)) (s : Nat) : Nat → Nat → Option Nat
  | 0, _ => none
  | fuel + 1, a =>
    if setOf lemp sts s true = [] then some (iDflt lemp sts (actionsOf sts s))
    else
      match actOf (setOf lemp sts s true) a with
      | some act => some act
      | none =>
        match lemp.fallback a with
        | some x => shiftSpec lemp sts s fuel x
        | none => some (iDflt lemp sts (actionsOf sts s))

theorem yyDefault_eq {depth : Nat} (hs : s < sts.length) :
    (o.tables depth).yyDefault[s]? = some (iDflt lemp sts (actionsOf sts s)) := by
  unfold tables
  simp [hs]

theorem fallbackOf_eq {depth : Nat} (ha : a < lemp.nterminal) :
    fallbackOf (o.tables depth) a = lemp.fallback a := by
  have hpos : ∀ x, lemp.fallback a = some x → x ≠ 0 := by
    intro x hx
    unfold Lemon.fallback at hx
    obtain ⟨sym, hsym, hfb⟩ := Option.bind_eq_some_iff.1 hx
    exact (lemp.fallback_token sym (List.mem_of_getElem? hsym) x hfb).1.ne'
  unfold fallbackOf tables
  simp only
  split
  next h =>
    rw [List.getElem?_map, List.getElem?_range ha, Option.map_some]
    cases hfb : lemp.fallback a with
    | none => simp
    | some x => simp [hpos x hfb]
  next h =>
    have hnone : lemp.fallback a = none := by
      by_contra hne
      refine h (List.any_eq_true.2 ⟨a, List.mem_range.2 ha, ?_⟩)
      exact Option.ne_none_iff_isSome.1 hne
    rw [hnone]
    rfl

/-- A token of the grammar falls back on a token. -/
theorem fallback_lt {x : Nat} (h : lemp.fallback a = some x) : x < lemp.nterminal := by
  unfold Lemon.fallback at h
  obtain ⟨sym, hsym, hfb⟩ := Option.bind_eq_some_iff.1 h
  exact (lemp.fallback_token sym (List.mem_of_getElem? hsym) x hfb).2

/-- **The engine finds for a token what the actions of the state say.** -/
theorem findShift_eq {depth fuel : Nat} (h : OneAction sts) (hclash : o.ClashFree) (hs : s < sts.length)
    (ha : a < lemp.nterminal) :
    findShiftLoop (o.tables depth) fuel s a = shiftSpec lemp sts s fuel a := by
  have hsym : ∀ {x}, x < lemp.nterminal → x < lemp.nsymbol := fun hx => Nat.lt_of_lt_of_le hx lemp.nterminal_le
  induction fuel generalizing a with
  | zero => rfl
  | succ fuel ih =>
    have hofst : (o.tables depth).yyShiftOfst[s]? = some ((o.offsetOf s true).getD (o.mnOfst true - 1)) := by
      unfold tables
      simp [hs]
    unfold findShiftLoop shiftSpec
    rw [hofst, Option.bind_some, yyDefault_eq hs]
    cases hoff : o.offsetOf s true with
    | none =>
      rw [if_pos ((offsetOf_eq_none hs).1 hoff)]
      exact if_pos rfl
    | some i =>
      have hne : setOf lemp sts s true ≠ [] := fun hnil => by
        rw [(offsetOf_eq_none hs).2 hnil] at hoff
        cases hoff
      have hdflt : i ≠ (o.tables depth).YY_SHIFT_USE_DFLT := by
        have hle := mnOfst_le hoff
        unfold tables
        simp only
        omega
      have hcode : a ≠ (o.tables depth).YYNOCODE := by
        have hlt := hsym ha
        unfold tables
        simp only
        omega
      have hkind : decide (a < lemp.nterminal) = true := decide_eq_true ha
      have hentry := entryAt_eq_actOf depth h hclash (hsym ha) (s := s) (i := i) (hkind ▸ hoff)
      rw [hkind] at hentry
      rw [Option.getD_some, if_neg hdflt, if_neg hcode, if_neg hne, hentry, fallbackOf_eq ha]
      cases hfb : lemp.fallback a with
      | none => rfl
      | some x =>
        have hnext := ih (fallback_lt hfb)
        cases actOf (setOf lemp sts s true) a <;> simp only [hnext]

/-- **The engine finds for a nonterminal what the actions of the state say.** -/
theorem findReduce_eq {depth : Nat} (h : OneAction sts) (hclash : o.ClashFree) (hs : s < sts.length)
    (ha : lemp.nterminal ≤ a) (ha' : a < lemp.nsymbol) :
    yyFindReduceAction (o.tables depth) s a =
      some ((actOf (setOf lemp sts s false) a).getD (iDflt lemp sts (actionsOf sts s))) := by
  have hofst : (o.tables depth).yyReduceOfst[s]? = some ((o.offsetOf s false).getD (o.mnOfst false - 1)) := by
    unfold tables
    simp [hs]
  unfold yyFindReduceAction
  rw [hofst, Option.bind_some, yyDefault_eq hs]
  cases hoff : o.offsetOf s false with
  | none =>
    rw [(offsetOf_eq_none hs).1 hoff]
    exact if_pos rfl
  | some i =>
    have hdflt : i ≠ (o.tables depth).YY_REDUCE_USE_DFLT := by
      have hle := mnOfst_le hoff
      unfold tables
      simp only
      omega
    have hcode : a ≠ (o.tables depth).YYNOCODE := by
      unfold tables
      simp only
      omega
    have hkind : decide (a < lemp.nterminal) = false := decide_eq_false (Nat.not_lt.2 ha)
    have hentry := entryAt_eq_actOf depth h hclash ha' (s := s) (i := i) (hkind ▸ hoff)
    rw [hkind] at hentry
    rw [Option.getD_some, if_neg hdflt, if_neg hcode, hentry]
    cases actOf (setOf lemp sts s false) a <;> rfl

end Order
end Dbsql.L7
