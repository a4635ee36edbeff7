import Mathlib.Data.Multiset.Dedup
import Mathlib.Data.Multiset.Filter
import Dbsql.Core.EraseCeil
import Dbsql.L5Codegen.Limit
/-!
# UNION ALL, UNION, EXCEPT and INTERSECT

`Chain.value` is what the set operators mean, from the left: UNION ALL adds, the others work
on sets; `Chain.rows` is the same in the order in which the loops come to the rows. A temporary
table of keys holds a set (`mem_tableOf`), so UNION is right; EXCEPT and INTERSECT search in it,
and a search that finds a larger key instead of its own counts as one that finds
(`alreadyExists_iff`): EXCEPT erases that key (`eraseCeil`). Where LIMIT ends a loop, only the rows
up to there have to be right. The LIMIT of a UNION ALL is that of its first loop, which stores the
counters only if it has a row.

Results:
* `rows_value`, `images_eq_rows`: where each search hits, a chain delivers its value.
* `upTo_except_iff`, `upTo_intersect_iff`: when an operator comes to the right rows.
* `delivers_of_reachedHit`: the rows delivered are the value, sorted and cut, if each operator does,
  the window of the counters is clean, and they are stored.
* `delivers_iff_opHits`: of the last operator this is exactly what it takes.
* `alreadyExists_right_iff`: a search answers right exactly when it hits or is above all keys.
-/
namespace Dbsql.L5.Query
open Dbsql.Core Dbsql.L1 Dbsql.L2

/-! ## The value -/

/-- The set operators on the rows that the SELECTs deliver, from the left. -/
def Chain.value : Chain → Multiset Bytes
  | .one s => s.images
  | .compound prior op s =>
    match op with
    | .all => prior.value + s.images
    | .union => (prior.value + s.images).dedup
    | .except => prior.value.dedup.filter (· ∉ s.images)
    | .intersect => prior.value.dedup.filter (· ∈ s.images)

/-- The rows of a table of keys: each once, in the order of the records. -/
def asSet (images : List Bytes) : List Bytes := imagesOf (tableOf images)

/-- The value, in the order in which the loops come to it. -/
def Chain.rows : Chain → List Bytes
  | .one s => s.images
  | .compound prior op s =>
    match op with
    | .all => prior.rows ++ s.images
    | .union => asSet (prior.rows ++ s.images)
    | .except => (asSet prior.rows).filter (· ∉ s.images)
    | .intersect => (asSet prior.rows).filter (· ∈ s.images)

/-- The search of a row in a table hits, or is above all keys. -/
def Hits (keys : Bytes → Prop) (image : Bytes) : Prop :=
  (∃ k, keys k ∧ (⟨image⟩ : Dbt) ≤ ⟨k⟩) → keys image

/-- The rows up to the `k`-th. -/
def upTo {α : Type} (k : Option Nat) (rows : List α) : List α :=
  match k with
  | none => rows
  | some k => rows.take k

/-- When an operator comes to the right rows, up to the `k`-th. EXCEPT takes the next row to the left
for one to the right that is not there, or no longer; INTERSECT keeps a row to the left for the next
one to the right. -/
def OpHits (k : Option Nat) (left : List Bytes) (op : SetOp) (right : List Bytes) : Prop :=
  match op with
  | .all | .union => True
  | .except => ∀ r ∈ right, r ∉ left ∨ 1 < right.count r →
      ∀ l ∈ upTo k ((asSet left).filter (· ∉ right)), ¬ (⟨r⟩ : Dbt) ≤ ⟨l⟩
  | .intersect => ∀ l ∈ upTo k (asSet left), Hits (· ∈ right) l

/-- Every operator does. -/
def Chain.SearchesHit : Chain → Prop
  | .one _ => True
  | .compound prior op s => prior.SearchesHit ∧ OpHits none prior.rows op s.images

/-- The same, where only the first `k` rows are asked for: at the end of the chain, or before its last
UNION ALLs, LIMIT ends the loop. -/
def Chain.ReachedHit (k : Option Nat) : Chain → Prop
  | .one _ => True
  | .compound prior .all _ => prior.ReachedHit k
  | .compound prior op s => prior.SearchesHit ∧ OpHits k prior.rows op s.images

/-- The first loop, which stores the counters, has a row if it is over a temporary table. -/
def Chain.FirstLoopRuns : Chain → Prop
  | .one _ => True
  | .compound prior .all _ => prior.FirstLoopRuns
  | .compound prior .intersect _ => prior.value ≠ 0
  | .compound prior op s => (Chain.compound prior op s).value ≠ 0 ∧ OpHits (some 1) prior.rows op s.images

/-- The numbers of columns differ somewhere. -/
def Chain.ColumnsDiffer : Chain → Prop
  | .one _ => False
  | .compound prior _ s => s.nExpr ≠ prior.last.nExpr ∨ prior.ColumnsDiffer

section
variable {c prior : Chain} {op : SetOp} {s : Select} {t : Btree} {image : Bytes}
  {images : List Bytes}

/-- **A search answers right exactly when it hits or is above all keys.** -/
theorem alreadyExists_right_iff :
    (alreadyExists t image = true ↔ (⟨image⟩ : Dbt) ∈ t) ↔ Hits (fun k => (⟨k⟩ : Dbt) ∈ t) image := by
  rw [alreadyExists_iff]
  constructor
  · rintro h ⟨k, hk, hle⟩
    exact h.1 ⟨⟨k⟩, hk, hle⟩
  · exact fun h => ⟨fun ⟨k, hk, hle⟩ => h ⟨k.data, hk, hle⟩, fun hk => ⟨_, hk, le_refl _⟩⟩

/-! ### The order of the rows -/

theorem keys_sorted (t : Btree) : t.keys.Pairwise (· < ·) := List.pairwise_map.2 t.sorted

theorem imagesOf_sorted (t : Btree) : (imagesOf t).Pairwise fun a b => (⟨a⟩ : Dbt) < ⟨b⟩ :=
  List.pairwise_map.2 (keys_sorted t)

theorem mem_asSet : image ∈ asSet images ↔ image ∈ images := mem_imagesOf.trans mem_tableOf

theorem asSet_coe (images : List Bytes) : (asSet images : Multiset Bytes) = (images : Multiset Bytes).dedup := by
  refine (Multiset.Nodup.ext (Multiset.coe_nodup.2 (nodup_imagesOf _)) (Multiset.nodup_dedup _)).2 fun k => ?_
  rw [Multiset.mem_coe, Multiset.mem_dedup, Multiset.mem_coe]
  exact mem_asSet

/-- **The rows of a chain are its value.** -/
theorem rows_value (c : Chain) : (c.rows : Multiset Bytes) = c.value := by
  induction c with
  | one s => rfl
  | compound prior op s ih =>
    cases op with
    | all =>
      rw [Chain.rows, Chain.value, ← ih]
      rfl
    | union =>
      rw [Chain.rows, Chain.value, asSet_coe, ← ih]
      rfl
    | except => rw [Chain.rows, Chain.value, ← Multiset.filter_coe, asSet_coe, ih]
    | intersect => rw [Chain.rows, Chain.value, ← Multiset.filter_coe, asSet_coe, ih]

theorem mem_value {k : Bytes} : k ∈ c.value ↔ k ∈ c.rows := by
  rw [← rows_value, Multiset.mem_coe]

/-! ### EXCEPT -/

/-- The key that is found, or the next one, goes. -/
theorem keys_removeFound (t : Btree) (image : Bytes) : (removeFound t image).keys = eraseCeil t.keys ⟨image⟩ := by
  unfold removeFound
  cases hc : t.ceil ⟨image⟩ with
  | none =>
    have hlt := SortedMap.ceil_eq_none.1 hc
    have hno : ¬ alreadyExists t image = true := fun h => by
      obtain ⟨k, hk, hle⟩ := alreadyExists_iff.1 h
      exact (hlt k hk).not_ge hle
    rw [if_neg hno, eraseCeil_of_lt fun k hk => (hlt k hk).not_ge]
  | some e =>
    obtain ⟨he, hle, -⟩ := SortedMap.ceil_some hc
    have hmem := SortedMap.mem_of_entry he
    obtain ⟨-, as, bs, hent, has⟩ := List.find?_eq_some_iff_append.1 hc
    have has' : ∀ k ∈ as.map Prod.fst, ¬ (⟨image⟩ : Dbt) ≤ k := by
      simpa [List.forall_mem_map] using has
    rw [if_pos (alreadyExists_iff.2 ⟨e.1, hmem, hle⟩), smMoveto_ceil hc, smDelete, if_pos hmem, SortedMap.keys,
      SortedMap.erase_split hent, SortedMap.keys, hent, List.map_append, List.map_append, List.map_cons,
      eraseCeil_append has' hle]

theorem keys_foldl_removeFound (t : Btree) (images : List Bytes) :
    (images.foldl removeFound t).keys = (images.map Dbt.mk).foldl eraseCeil t.keys := by
  induction images generalizing t with
  | nil => rfl
  | cons image images ih => rw [List.foldl_cons, ih, keys_removeFound, List.map_cons, List.foldl_cons]

/-- As many as there are at most. -/
theorem upTo_eq_take (k : Option Nat) (n : Nat) :
    ∃ k', ∀ {α : Type} (l : List α), l.length ≤ n → upTo k l = l.take k' := by
  cases k with
  | none => exact ⟨n, fun l h => (List.take_of_length_le h).symm⟩
  | some k => exact ⟨k, fun _ _ => rfl⟩

/-- **When EXCEPT comes to the right rows.** -/
theorem upTo_except_iff (k : Option Nat) (left right : List Bytes) :
    upTo k (imagesOf (right.foldl removeFound (tableOf left))) = upTo k ((asSet left).filter (· ∉ right)) ↔
      OpHits k left .except right := by
  have hinj : Function.Injective Dbt.mk := fun a b h => congrArg Dbt.data h
  have hinj' : Function.Injective Dbt.data := fun a b h => by
    cases a
    cases b
    cases h
    rfl
  obtain ⟨k', hk'⟩ := upTo_eq_take k (tableOf left).keys.length
  have hfilter : (asSet left).filter (· ∉ right) =
      ((tableOf left).keys.filter (· ∉ right.map Dbt.mk)).map Dbt.data := by
    rw [asSet, imagesOf, List.filter_map]
    refine congrArg _ (List.filter_congr fun x _ => ?_)
    have hx : x ∈ right.map Dbt.mk ↔ x.data ∈ right := List.mem_map_of_injective hinj (a := x.data)
    simp [hx]
  have hleft : imagesOf (right.foldl removeFound (tableOf left)) =
      ((right.map Dbt.mk).foldl eraseCeil (tableOf left).keys).map Dbt.data := by
    rw [imagesOf, keys_foldl_removeFound]
  have hlen₁ := (foldl_eraseCeil_sublist (right.map Dbt.mk) (tableOf left).keys).length_le
  have hlen₂ := ((tableOf left).keys.filter_sublist (p := (· ∉ right.map Dbt.mk))).length_le
  have htake : upTo k ((asSet left).filter (· ∉ right)) =
      (((tableOf left).keys.filter (· ∉ right.map Dbt.mk)).take k').map Dbt.data := by
    rw [hfilter, hk' _ (by rwa [List.length_map]), List.map_take]
  rw [hleft, hk' _ (by rwa [List.length_map]), ← List.map_take, htake, (List.map_injective_iff.2 hinj').eq_iff,
    take_foldl_eraseCeil_iff (keys_sorted _)]
  unfold OpHits
  rw [htake]
  simp only [List.forall_mem_map, List.count_map_of_injective _ _ hinj]
  refine forall₂_congr fun r _ => ?_
  have hmem : (⟨r⟩ : Dbt) ∈ (tableOf left).keys ↔ r ∈ left := mem_tableOf
  rw [hmem]

/-! ### INTERSECT -/

/-- What a search in the right of an INTERSECT finds. -/
theorem found_iff {right : List Bytes} : (alreadyExists (tableOf right) image = true → image ∈ right) ↔
    Hits (· ∈ right) image := by
  unfold Hits
  rw [alreadyExists_iff]
  constructor
  · exact fun h ⟨k, hk, hle⟩ => h ⟨⟨k⟩, mem_tableOf.2 hk, hle⟩
  · exact fun h ⟨k, hk, hle⟩ => h ⟨k.data, mem_tableOf.1 hk, hle⟩

/-- A list that a test passes up to some place. -/
theorem take_filter_comm {α : Type} {f : α → Bool} : ∀ {k : Nat} {l : List α},
    l.Pairwise (fun a b => f b = true → f a = true) → (l.filter f).take k = (l.take k).filter f := by
  intro k l
  induction l generalizing k with
  | nil => simp
  | cons a l ih =>
    intro hpre
    rw [List.pairwise_cons] at hpre
    cases k with
    | zero => rfl
    | succ k =>
      by_cases ha : f a = true
      · rw [List.filter_cons_of_pos ha, List.take_succ_cons, List.take_succ_cons,
          List.filter_cons_of_pos ha, ih hpre.2]
      · have hnone : ∀ b ∈ l, ¬ f b = true := fun b hb hfb => ha (hpre.1 b hb hfb)
        rw [List.filter_cons_of_neg ha, List.filter_eq_nil_iff.2 hnone, List.take_succ_cons,
          List.filter_cons_of_neg ha, List.take_nil]
        exact (List.filter_eq_nil_iff.2 fun b hb => hnone b (List.mem_of_mem_take hb)).symm

/-- Of a list that one test passes up to some place, another that says the same of the first `k`
elements keeps the same first `k`. -/
theorem take_filter_eq {α : Type} {f g : α → Bool} : ∀ {k : Nat} {l : List α},
    l.Pairwise (fun a b => f b = true → f a = true) → (∀ a, g a = true → f a = true) →
    (∀ a ∈ l.take k, f a = true → g a = true) → (l.filter f).take k = (l.filter g).take k := by
  intro k l
  induction l generalizing k with
  | nil => exact fun _ _ _ => rfl
  | cons a l ih =>
    intro hpre hg hf
    rw [List.pairwise_cons] at hpre
    cases k with
    | zero => rw [List.take_zero, List.take_zero]
    | succ k =>
      rw [List.take_succ_cons, List.forall_mem_cons] at hf
      by_cases ha : f a = true
      · rw [List.filter_cons_of_pos ha, List.filter_cons_of_pos (hf.1 ha), List.take_succ_cons,
          List.take_succ_cons, ih hpre.2 hg hf.2]
      · have hnone : ∀ b ∈ l, ¬ f b = true := fun b hb hfb => ha (hpre.1 b hb hfb)
        rw [List.filter_cons_of_neg ha, List.filter_cons_of_neg fun hga => ha (hg a hga),
          List.filter_eq_nil_iff.2 hnone, List.filter_eq_nil_iff.2 fun b hb hgb => hnone b hb (hg b hgb)]

/-- **When INTERSECT comes to the right rows.** -/
theorem upTo_intersect_iff (k : Option Nat) (left right : List Bytes) :
    upTo k ((asSet left).filter (alreadyExists (tableOf right))) = upTo k ((asSet left).filter (· ∈ right)) ↔
      OpHits k left .intersect right := by
  obtain ⟨k', hk'⟩ := upTo_eq_take k (asSet left).length
  -- what is found is found up to the last key to the right
  have hpre : (asSet left).Pairwise fun a b =>
      alreadyExists (tableOf right) b = true → alreadyExists (tableOf right) a = true := by
    refine (imagesOf_sorted _).imp fun {a b} hab hb => ?_
    obtain ⟨x, hx, hle⟩ := alreadyExists_iff.1 hb
    exact alreadyExists_iff.2 ⟨x, hx, (le_of_lt hab).trans hle⟩
  rw [hk' _ (List.length_filter_le _ _), hk' _ (List.length_filter_le _ _), OpHits, hk' _ le_rfl]
  simp only [← found_iff]
  constructor
  · intro h l hl hfound
    rw [take_filter_comm hpre] at h
    have hmem : l ∈ ((asSet left).filter (· ∈ right)).take k' := h ▸ List.mem_filter.2 ⟨hl, hfound⟩
    exact of_decide_eq_true (List.mem_filter.1 (List.mem_of_mem_take hmem)).2
  · intro h
    refine take_filter_eq hpre (fun a ha => ?_) fun a ha hfound => decide_eq_true (h a ha hfound)
    exact alreadyExists_iff.2 ⟨⟨a⟩, mem_tableOf.2 (of_decide_eq_true ha), le_refl _⟩

/-! ### Chains -/

/-- **When an operator on the right rows to its left comes to the right rows.** -/
theorem upTo_images_iff {k : Option Nat} (hprior : prior.images = prior.rows) (hop : op ≠ .all) :
    upTo k (Chain.compound prior op s).images = upTo k (Chain.compound prior op s).rows ↔
      OpHits k prior.rows op s.images := by
  cases op with
  | all => exact absurd rfl hop
  | union =>
    rw [Chain.images, Chain.rows, hprior]
    exact iff_of_true (congrArg (upTo k) (congrArg imagesOf (putAll_append prior.rows s.images).symm)) trivial
  | except =>
    rw [Chain.images, Chain.rows, hprior]
    exact upTo_except_iff k prior.rows s.images
  | intersect =>
    rw [Chain.images, Chain.rows, hprior]
    exact upTo_intersect_iff k prior.rows s.images

/-- **What a chain delivers before it is sorted and cut is its value**, if the searches hit. -/
theorem images_eq_rows (h : c.SearchesHit) : c.images = c.rows := by
  induction c with
  | one s => rfl
  | compound prior op s ih =>
    by_cases hop : op = .all
    · subst hop
      rw [Chain.images, Chain.rows, ih h.1]
    · exact (upTo_images_iff (k := none) (ih h.1) hop).2 h.2

theorem take_append_eq {k : Nat} {l l' : List Bytes} (h : l.take k = l'.take k) (r : List Bytes) :
    (l ++ r).take k = (l' ++ r).take k := by
  have hlen := congrArg List.length h
  rw [List.length_take, List.length_take] at hlen
  rw [List.take_append, List.take_append, h, show k - l.length = k - l'.length by omega]

/-- **The first rows that a chain delivers are those of its value**, if the searches that it comes to
hit. -/
theorem upTo_images {k : Option Nat} (h : c.ReachedHit k) : upTo k c.images = upTo k c.rows := by
  induction c with
  | one s => rfl
  | compound prior op s ih =>
    cases op with
    | all =>
      cases k with
      | none => exact congrArg (· ++ s.images) (ih h)
      | some k => exact take_append_eq (ih h) s.images
    | union => exact (upTo_images_iff (images_eq_rows h.1) (by simp)).2 h.2
    | except => exact (upTo_images_iff (images_eq_rows h.1) (by simp)).2 h.2
    | intersect => exact (upTo_images_iff (images_eq_rows h.1) (by simp)).2 h.2

theorem stores_of_runs {k : Option Nat} (h : c.ReachedHit k) (hf : c.FirstLoopRuns) : c.stores = true := by
  have hempty {l : List Bytes} (hl : l ≠ []) : (!l.isEmpty) = true := by
    cases l with
    | nil => exact absurd rfl hl
    | cons _ _ => rfl
  -- of a table whose first row is right
  have hfirst {prior : Chain} {op : SetOp} {s : Select} (hprior : prior.SearchesHit) (hop : op ≠ .all)
      (hv : (Chain.compound prior op s).value ≠ 0) (hhit : OpHits (some 1) prior.rows op s.images) :
      (Chain.compound prior op s).images ≠ [] := by
    intro hnil
    have htake := (upTo_images_iff (images_eq_rows hprior) hop).2 hhit
    rw [hnil] at htake
    apply hv
    rw [← rows_value, Multiset.coe_eq_zero]
    cases hrows : (Chain.compound prior op s).rows with
    | nil => rfl
    | cons r rs =>
      rw [hrows] at htake
      cases htake
  induction c with
  | one s => rfl
  | compound prior op s ih =>
    cases op with
    | all => exact ih h hf
    | union => exact hempty (hfirst h.1 (by simp) hf.1 hf.2)
    | except => exact hempty (hfirst h.1 (by simp) hf.1 hf.2)
    | intersect =>
      have hne : prior.rows ≠ [] := fun hnil => hf (by rw [← rows_value, hnil]; rfl)
      obtain ⟨k, hk⟩ := List.exists_mem_of_ne_nil _ hne
      refine hempty (List.ne_nil_of_mem (mem_asSet.2 (?_ : k ∈ prior.images)))
      rwa [images_eq_rows h.1]

end

/-! ## Statements -/

variable (le : Bytes → Bytes → Bool)

/-- The rows are the value of the chain, in the order of its loops or in that of ORDER BY. -/
structure Chain.Sorts (c : Chain) (rows : List Bytes) : Prop where
  value : (rows : Multiset Bytes) = c.value
  loops : c.last.orderBy = none → rows = c.rows
  sorted : ∀ f, c.last.orderBy = some f → BinSort.PreorderOn (fun a b => le (f a) (f b)) c.rows →
    rows.Pairwise fun a b => le (f a) (f b) = true

/-- The rows delivered are the value of the chain, sorted and cut. -/
def Chain.Delivers (c : Chain) (dest : Dest) (nLimit nOffset : CInt) : Prop :=
  ∃ rows, c.Sorts le rows ∧
    (c.withLimits nLimit nOffset).run le dest = .ok (window nOffset.toInt.toNat (limitOf nLimit) rows)

/-- How many rows the counters come to before LIMIT ends a loop. -/
def reached (m : Nat) (n : Option Nat) : Option Nat := n.map fun n => if n = 0 then 0 else m + n

/-- How many rows of the loops the counters come to: all of them before a sort. -/
def Chain.reach (c : Chain) (nLimit nOffset : CInt) : Option Nat :=
  if c.last.orderBy.isSome then none else reached nOffset.toInt.toNat (limitOf nLimit)

/-- The counters, if there are any, are stored before they are asked. -/
def Chain.CountersStored (c : Chain) (nLimit nOffset : CInt) : Prop :=
  (nLimit.toInt < 0 ∧ nOffset.toInt ≤ 0) ∨ c.last.orderBy.isSome = true ∨ c.FirstLoopRuns ∨
    (c.loops le).flatten = []

section
variable {c prior : Chain} {op : SetOp} {s : Select} {dest : Dest} {nLimit nOffset : CInt}
  {l : Limits}

theorem gates_nil {α : Type} (xss : List (List α)) (h : xss.flatten = []) :
    ∃ p, gates xss l = some p ∧ p.1.flatten = [] := by
  induction xss with
  | nil => exact ⟨([], l), rfl, rfl⟩
  | cons xs xss ih =>
    rw [List.flatten_cons, List.append_eq_nil_iff] at h
    obtain ⟨rfl, h⟩ := h
    obtain ⟨p, hp, hflat⟩ := ih h
    refine ⟨([] :: p.1, p.2), ?_, by rw [List.flatten_cons, hflat, List.append_nil]⟩
    rw [gates, gate]
    simp only [Option.bind_eq_bind, Option.bind_some, hp]
    rfl

/-- No row comes to the counters. -/
theorem cuts_of_flatten_nil (hd : dest = .callback ∨ dest = .table) (hc : c.Compiles)
    (h : (c.loops le).flatten = []) : Cuts le c dest nLimit nOffset := by
  refine ⟨_, run_unlimited le hd hc, ?_⟩
  obtain ⟨p, hp, hflat⟩ := gates_nil (l := computeLimitRegisters nLimit nOffset c.ready .none) _ h
  rw [run_eq le hd hc, hp, h]
  dsimp only
  rw [hflat]
  have hwin : window nOffset.toInt.toNat (limitOf nLimit) ([] : List Bytes) = [] :=
    List.eq_nil_of_sublist_nil (window_sublist _ _ _)
  exact congrArg Except.ok hwin.symm

/-- The cut, also where no counter is stored. -/
theorem cuts_of_stored {k : Option Nat} (hd : dest = .callback ∨ dest = .table) (hc : c.Compiles)
    (hfew : (c.loops le).length < 2147483648) (hhit : c.ReachedHit k)
    (hclean : WindowClean le c nLimit nOffset) (h : c.CountersStored le nLimit nOffset) :
    Cuts le c dest nLimit nOffset := by
  rcases h with ⟨hn, hm⟩ | h | h | h
  · refine ⟨_, run_unlimited le hd hc, ?_⟩
    rw [run_eq le hd hc, computeLimitRegisters_none hn hm, gates_none, limitOf,
      if_neg (by omega), show nOffset.toInt.toNat = 0 by omega]
    rfl
  · exact cuts_of_windowClean le hd hc (by rw [Chain.ready, h, Bool.true_or]) hfew hclean
  · have hready : c.ready = true := by
      rw [Chain.ready, stores_of_runs hhit h, Bool.or_true]
    exact cuts_of_windowClean le hd hc hready hfew hclean
  · exact cuts_of_flatten_nil le hd hc h

/-- The rows of the loops, without LIMIT and OFFSET. -/
theorem run_images (hd : dest = .callback ∨ dest = .table) (hc : c.Compiles) (horder : c.last.orderBy = none) :
    (c.withLimits (-1) 0).run le dest = .ok c.images := by
  rw [run_withLimits le hc, horder, select_rows le hd hc, computeLimitRegisters_none (by decide) (by decide),
    runScans_scans, send_rows hd]
  rfl

theorem window_eq_of_upTo {m : Nat} {n : Option Nat} {l l' : List Bytes}
    (h : upTo (reached m n) l = upTo (reached m n) l') : window m n l = window m n l' := by
  cases n with
  | none => exact congrArg (List.drop m) h
  | some n =>
    unfold window
    dsimp only
    by_cases hn : n = 0
    · rw [hn, List.take_zero, List.take_zero]
    · have hfirst : l.take (m + n) = l'.take (m + n) := by simpa [reached, upTo, hn] using h
      have hdrop (l : List Bytes) : (l.drop m).take n = (l.take (m + n)).drop m := by
        rw [List.drop_take, Nat.add_sub_cancel_left]
      rw [hdrop, hdrop, hfirst]

/-- The rows of the sorter, without LIMIT and OFFSET. -/
theorem sorts_unlimited (hd : dest = .callback ∨ dest = .table)
    (hc : (Chain.compound prior op s).Compiles)
    (hhit : (Chain.compound prior op s).images = (Chain.compound prior op s).rows)
    {g : Bytes → Bytes} (horder : (Chain.compound prior op s).last.orderBy = some g) {rows : List Bytes}
    (h : ((Chain.compound prior op s).withLimits (-1) 0).run le dest = .ok rows) :
    (Chain.compound prior op s).Sorts le rows := by
  rw [run_withLimits le hc, horder, select_sorted le hd hc, computeLimitRegisters_none (by decide) (by decide),
    gate_none] at h
  dsimp only [Option.map_some] at h
  rw [send_rows hd] at h
  have hrows : (opSort le ((Chain.compound prior op s).unsorted g).reverse).map (·.image) =
    rows := Except.ok.inj h
  have himages : ((Chain.compound prior op s).unsorted g).map (·.image) =
      (Chain.compound prior op s).rows := by
    rw [Chain.unsorted, map_image_temp, hhit]
  have hperm := opSort_perm le ((Chain.compound prior op s).unsorted g).reverse
  refine ⟨?_, fun hnone => ?_, fun f hf hpre => ?_⟩
  · rw [← rows_value, ← hrows, ← himages, Multiset.coe_eq_coe]
    exact (hperm.trans (List.reverse_perm _)).map _
  · rw [hnone] at horder
    cases horder
  · cases horder.symm.trans hf
    have hkey {r : Row} (hr : r ∈ ((Chain.compound prior op s).unsorted g).reverse) :
        r.sortKey = g r.image ∧ r.image ∈ (Chain.compound prior op s).rows := by
      rw [List.mem_reverse] at hr
      refine ⟨?_, himages ▸ List.mem_map_of_mem hr⟩
      obtain ⟨k, -, rfl⟩ := List.mem_map.1 hr
      rfl
    have hpre' : BinSort.PreorderOn (fun a b : Row => le a.sortKey b.sortKey)
        ((Chain.compound prior op s).unsorted g).reverse := by
      constructor
      · intro a ha b hb
        rw [(hkey ha).1, (hkey hb).1]
        exact hpre.total _ (hkey ha).2 _ (hkey hb).2
      · intro a ha b hb c hc
        rw [(hkey ha).1, (hkey hb).1, (hkey hc).1]
        exact hpre.trans _ (hkey ha).2 _ (hkey hb).2 _ (hkey hc).2
    have hsorted := (BinSort.sort_stable hpre' 29).sorted
    rw [← opSort_eq] at hsorted
    rw [← hrows, List.pairwise_map]
    refine hsorted.imp_of_mem fun {a b} ha hb hab => ?_
    rw [← (hkey (hperm.subset ha)).1, ← (hkey (hperm.subset hb)).1]
    exact hab

/-- **The rows delivered are the value**, sorted and cut, where the searches that are reached hit. -/
theorem delivers_of_reachedHit (hd : dest = .callback ∨ dest = .table)
    (hc : (Chain.compound prior op s).Compiles)
    (hfew : ((Chain.compound prior op s).loops le).length < 2147483648)
    (hhit : (Chain.compound prior op s).ReachedHit ((Chain.compound prior op s).reach nLimit nOffset))
    (hclean : WindowClean le (.compound prior op s) nLimit nOffset)
    (hstored : (Chain.compound prior op s).CountersStored le nLimit nOffset) :
    (Chain.compound prior op s).Delivers le dest nLimit nOffset := by
  obtain ⟨rows, hall, hcut⟩ := cuts_of_stored le hd hc hfew hhit hclean hstored
  unfold Chain.reach at hhit
  cases horder : (Chain.compound prior op s).last.orderBy with
  | none =>
    rw [horder, Option.isSome_none, if_neg Bool.false_ne_true] at hhit
    cases (run_images le hd hc horder).symm.trans hall
    refine ⟨(Chain.compound prior op s).rows, ⟨rows_value _, fun _ => rfl, fun f hf => ?_⟩, ?_⟩
    · rw [horder] at hf
      cases hf
    · rw [hcut, window_eq_of_upTo (upTo_images hhit)]
  | some f =>
    rw [horder, Option.isSome_some, if_pos rfl] at hhit
    exact ⟨rows, sorts_unlimited le hd hc (upTo_images hhit) horder hall, hcut⟩

/-- One loop without an offset. -/
theorem cuts_single (hd : dest = .callback ∨ dest = .table) (hc : (Chain.compound prior op s).Compiles)
    (hop : op ≠ .all) (horder : s.orderBy = none) (hm : nOffset.toInt ≤ 0) :
    Cuts le (.compound prior op s) dest nLimit nOffset := by
  have hloops : (Chain.compound prior op s).loops le =
      [((Chain.compound prior op s).images.map (tempRow none)).map (Item.mk 0 false)] := by
    have hscans : (Chain.compound prior op s).scans =
        [⟨(Chain.compound prior op s).images.map (tempRow none), fun _ => true, false⟩] := by
      cases op with
      | all => exact absurd rfl hop
      | union => rfl
      | except => rfl
      | intersect => rfl
    rw [Chain.loops, show (Chain.compound prior op s).last.orderBy = none from horder, hscans]
    simp [segs, Scan.tested]
  have hplain : NothingDistinct le (.compound prior op s) := by
    unfold NothingDistinct
    rw [hloops, List.flatten_singleton]
    exact fun x => distinct_of_mem_mk
  by_cases hnil : (Chain.compound prior op s).images = []
  · have hflat : ((Chain.compound prior op s).loops le).flatten = [] := by
      rw [hloops, hnil]
      rfl
    exact cuts_of_flatten_nil le hd hc hflat
  · have hstores : (Chain.compound prior op s).stores = true := by
      obtain ⟨r, hr⟩ := List.exists_mem_of_ne_nil _ hnil
      have hempty {l : List Bytes} (hl : r ∈ l) : (!l.isEmpty) = true := by
        cases l with
        | nil => cases hl
        | cons _ _ => rfl
      cases op with
      | all => exact absurd rfl hop
      | union => exact hempty hr
      | except => exact hempty hr
      | intersect => exact hempty (List.mem_of_mem_filter hr)
    refine cuts_of_windowClean le hd hc (by rw [Chain.ready, hstores, Bool.or_true]) ?_
      ⟨fun _ h => absurd h (by omega), cutsClean_of_nothingDistinct le hplain _ _⟩
    rw [hloops, List.length_singleton]
    decide

/-- **Exactly when the last operator comes to the right rows** are these delivered, without ORDER BY and
OFFSET, if those to its left are right. -/
theorem delivers_iff_opHits (hd : dest = .callback ∨ dest = .table) (hc : (Chain.compound prior op s).Compiles)
    (hprior : prior.SearchesHit) (hop : op ≠ .all) (horder : s.orderBy = none) (hm : nOffset.toInt ≤ 0) :
    (Chain.compound prior op s).Delivers le dest nLimit nOffset ↔
      OpHits (limitOf nLimit) prior.rows op s.images := by
  have hwindow (l : List Bytes) : window nOffset.toInt.toNat (limitOf nLimit) l = upTo (limitOf nLimit) l := by
    rw [show nOffset.toInt.toNat = 0 by omega]
    cases limitOf nLimit <;> rfl
  have hcuts : Cuts le (.compound prior op s) dest nLimit nOffset := cuts_single le hd hc hop horder hm
  obtain ⟨rows, hall, hcut⟩ := hcuts
  cases (run_images le hd hc horder).symm.trans hall
  rw [hwindow] at hcut
  rw [← upTo_images_iff (images_eq_rows hprior) hop]
  constructor
  · rintro ⟨rows, hsorts, hrun⟩
    rw [hsorts.loops horder, hwindow, hcut] at hrun
    exact Except.ok.inj hrun
  · intro h
    refine ⟨(Chain.compound prior op s).rows, ⟨rows_value _, fun _ => rfl, fun f hf => ?_⟩, ?_⟩
    · cases horder.symm.trans hf
    · rw [hcut, hwindow, h]

theorem error_of_columnsDiffer (h : c.ColumnsDiffer) : ∃ msg, check c = .error msg := by
  induction c with
  | one s => exact absurd h id
  | compound prior op s ih =>
    rw [check]
    split
    · exact ⟨_, rfl⟩
    · split
      · exact ⟨_, rfl⟩
      · cases hp : check prior with
        | error msg => exact ⟨msg, rfl⟩
        | ok _ =>
          dsimp only
          rcases h with h | h
          · rw [if_pos h]
            exact ⟨_, rfl⟩
          · obtain ⟨msg, hmsg⟩ := ih h
            rw [hp] at hmsg
            cases hmsg

end
end Dbsql.L5.Query
