import Dbsql.L3Vdbe.SortKey
import Dbsql.L5Codegen.Deliver
/-!
# The sorter (vdbe.c:422-448, 3971-3989, 4100-4131)

`OP_SortPut` puts a row at the front of `p->pSort`; `OP_Sort` sorts that list by `__str_cmp` of
the keys. The sort is `BinSort.sort` with `NSORT` bins, of which the last takes all that
overflows, so the number of rows is not limited.

Results:
* `opSort_stable`: the rows put, in the order of their keys, equal keys in the order of the list.
-/
namespace Dbsql.L5.Query
open Dbsql.Core Dbsql.L1 Dbsql.L3

/-- `OP_SortPut` (vdbe.c:3971-3989). -/
def opSortPut (pSort : List Row) (r : Row) : List Row := r :: pSort

section
variable {L : Type} (ar : Arith L)

/-- `c <= 0` in `__sorted_merge`. -/
def strCmpLe (a b : Bytes) : Bool := (strCmp ar a b).any fun c => c.toInt ≤ 0

/-- `__str_cmp` is a total preorder on the keys of `rs`, and no assertion of it fails. -/
structure KeyPreorder (rs : List Row) : Prop where
  defined : ∀ a ∈ rs, ∀ b ∈ rs, strCmp ar a.sortKey b.sortKey ≠ none
  total : ∀ a ∈ rs, ∀ b ∈ rs, KeyLe ar a.sortKey b.sortKey ∨ KeyLe ar b.sortKey a.sortKey
  trans : ∀ a ∈ rs, ∀ b ∈ rs, ∀ c ∈ rs, KeyLe ar a.sortKey b.sortKey →
    KeyLe ar b.sortKey c.sortKey → KeyLe ar a.sortKey c.sortKey

/-- The keys are equal. -/
def sameKey (k r : Row) : Bool := strCmpLe ar r.sortKey k.sortKey && strCmpLe ar k.sortKey r.sortKey

variable {ar}

theorem strCmpLe_iff {a b : Bytes} : strCmpLe ar a b = true ↔ KeyLe ar a b := by
  unfold strCmpLe KeyLe
  cases strCmp ar a b <;> simp

theorem KeyPreorder.preorderOn {rs : List Row} (h : KeyPreorder ar rs) :
    BinSort.PreorderOn (fun a b => strCmpLe ar a.sortKey b.sortKey) rs where
  total a ha b hb := by
    rw [Bool.or_eq_true, strCmpLe_iff, strCmpLe_iff]
    exact h.total a ha b hb
  trans a ha b hb c hc := by
    simp only [strCmpLe_iff]
    exact h.trans a ha b hb c hc

theorem foldl_opSortPut (pSort puts : List Row) :
    puts.foldl opSortPut pSort = puts.reverse ++ pSort := by
  induction puts generalizing pSort with
  | nil => rfl
  | cons r puts ih =>
    rw [List.foldl_cons, ih, opSortPut, List.reverse_cons, List.append_assoc]
    rfl

/-- **`OP_Sort` is a stable sort** of the rows that `OP_SortPut` has put, in any number. -/
theorem opSort_stable {puts : List Row} (h : KeyPreorder ar puts) :
    let pSort := puts.foldl opSortPut []
    let sorted := opSort (strCmpLe ar) pSort
    sorted.Perm puts ∧ (sorted.Pairwise fun a b => KeyLe ar a.sortKey b.sortKey) ∧
      ∀ k ∈ puts, sorted.filter (sameKey ar k) = pSort.filter (sameKey ar k) := by
  intro pSort sorted
  have hput : pSort = puts.reverse := (foldl_opSortPut [] puts).trans (List.append_nil _)
  have hmem {r : Row} : r ∈ pSort ↔ r ∈ puts := by rw [hput, List.mem_reverse]
  have hpre : KeyPreorder ar pSort :=
    ⟨fun a ha b hb => h.defined a (hmem.1 ha) b (hmem.1 hb),
      fun a ha b hb => h.total a (hmem.1 ha) b (hmem.1 hb),
      fun a ha b hb c hc => h.trans a (hmem.1 ha) b (hmem.1 hb) c (hmem.1 hc)⟩
  have hsort : sorted = BinSort.sort (fun a b => strCmpLe ar a.sortKey b.sortKey) 29 pSort :=
    opSort_eq _ pSort
  have hstable := BinSort.sort_stable hpre.preorderOn 29
  rw [← hsort] at hstable
  refine ⟨hstable.perm.trans (hput ▸ puts.reverse_perm), ?_, fun k hk => hstable.stable k (hmem.2 hk)⟩
  exact hstable.sorted.imp strCmpLe_iff.1

/-- Keys that `OP_SortMakeKey` has made of rows without a NaN. -/
theorem KeyOrder.keyPreorder {cols : List (SortDir × Set Val)} (h : KeyOrder ar cols) {rs : List Row}
    (hrs : ∀ r ∈ rs, ∃ row ∈ Rows cols, r.sortKey = sortKey (cols.map Prod.fst) row) :
    KeyPreorder ar rs := by
  constructor
  · intro a ha b hb
    obtain ⟨xs, hxs, hax⟩ := hrs a ha
    obtain ⟨ys, hys, hby⟩ := hrs b hb
    obtain ⟨c, hc, -⟩ := h.sign xs hxs ys hys
    rw [hax, hby, hc]
    exact Option.some_ne_none c
  · intro a ha b hb
    obtain ⟨xs, hxs, hax⟩ := hrs a ha
    obtain ⟨ys, hys, hby⟩ := hrs b hb
    rw [hax, hby]
    exact h.total xs hxs ys hys
  · intro a ha b hb c hc
    obtain ⟨xs, hxs, hax⟩ := hrs a ha
    obtain ⟨ys, hys, hby⟩ := hrs b hb
    obtain ⟨zs, hzs, hcz⟩ := hrs c hc
    rw [hax, hby, hcz]
    exact h.trans xs hxs ys hys zs hzs

/-- Rows `b`, `a` and `a` of ORDER BY a text. -/
def threePuts : List Row :=
  [⟨[1], [], sortKey [.textAsc] [.str [98, 0]]⟩, ⟨[2], [], sortKey [.textAsc] [.str [97, 0]]⟩,
    ⟨[3], [], sortKey [.textAsc] [.str [97, 0]]⟩]

theorem keyPreorder_threePuts : KeyPreorder exactMachine threePuts := by
  have hcols : SortCols [(SortDir.textAsc, ({.str [98, 0], .str [97, 0]} : Set Val))] := by
    refine ⟨List.forall_mem_singleton.2 ?_, by simp⟩
    rintro v (rfl | rfl)
    · exact .inr ⟨[98], by decide, rfl⟩
    · exact .inr ⟨[97], by decide, rfl⟩
  have horder : KeyOrder exactMachine [(SortDir.textAsc, ({.str [98, 0], .str [97, 0]} : Set Val))] :=
    keyOrder_of_noNan hcols (List.forall_mem_singleton.2 fun h => Bool.noConfusion h)
  refine KeyOrder.keyPreorder horder ?_
  simp only [threePuts, List.forall_mem_cons]
  exact ⟨⟨_, .cons (.inl rfl) .nil, rfl⟩, ⟨_, .cons (.inr rfl) .nil, rfl⟩,
    ⟨_, .cons (.inr rfl) .nil, rfl⟩, by simp⟩

theorem opSort_stable_three :
    let pSort := threePuts.foldl opSortPut []
    let sorted := opSort (strCmpLe exactMachine) pSort
    sorted.Perm threePuts ∧ (sorted.Pairwise fun a b => KeyLe exactMachine a.sortKey b.sortKey) ∧
      ∀ k ∈ threePuts, sorted.filter (sameKey exactMachine k) = pSort.filter (sameKey exactMachine k) :=
  opSort_stable keyPreorder_threePuts

end

end Dbsql.L5.Query
