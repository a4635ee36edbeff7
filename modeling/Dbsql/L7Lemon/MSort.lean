import Dbsql.Core.BinSort
import Mathlib.Algebra.Order.Ring.Nat
/-!
# Merge sort of linked lists (lemon.c, msort.c)

`msort` sorts a list with `LISTSIZE` bins, as `BinSort` does, but the last bin is overwritten where
that one merges: an element that comes to the last bin when it is taken throws away what is there.
The `i`-th bin has none or `2 ^ i` elements, so this happens from `2 ^ LISTSIZE` elements on.

Results:
* `msort_eq_sort`: for a shorter list `msort` is the sort with bins that lose nothing.
* `msort_stable`: so it is a stable sort for every comparison that orders the elements.
-/
namespace Dbsql.L7.MSort
open Dbsql.Core

variable {α : Type}

/-- `merge` (lemon.c:1513-1552): of two equal elements the one of `b` goes first. -/
def merge (cmp : α → α → Int) : List α → List α → List α
  | [], b => b
  | a, [] => a
  | x :: a, y :: b => if cmp x y < 0 then x :: merge cmp a (y :: b) else y :: merge cmp (x :: a) b

/-- One list `ep` goes into the bins (lemon.c:1578-1582). -/
def place (cmp : α → α → Int) (ep : List α) : List (List α) → List (List α)
  | [] => []
  | [_] => [ep]
  | b :: b' :: set => if b.isEmpty then ep :: b' :: set else [] :: place cmp (merge cmp ep b) (b' :: set)

/-- `LISTSIZE`. -/
def LISTSIZE : Nat := 30

/-- `msort` (lemon.c:1565-1586). -/
def msort (cmp : α → α → Int) (list : List α) : List α :=
  let set := list.foldl (fun set x => place cmp [x] set) (List.replicate LISTSIZE [])
  set.foldl (fun ep b => if b.isEmpty then ep else merge cmp ep b) []

/-- What is not after the other, read off the comparison. -/
def leOf (cmp : α → α → Int) (y x : α) : Bool := ! decide (cmp x y < 0)

variable {cmp : α → α → Int}

theorem merge_eq (a b : List α) : merge cmp a b = b.merge a (leOf cmp) := by
  fun_induction merge cmp a b with
  | case1 b => simp
  | case2 a ha =>
    exact (List.nil_merge a).symm
  | case3 x a y b h ih =>
    rw [List.cons_merge_cons, if_neg (by simp [leOf, h]), ih]
  | case4 x a y b h ih =>
    rw [List.cons_merge_cons, if_pos (by simpa [leOf] using h), ih]

/-- The `i`-th bin from here has nothing or `2 ^ (j + i)` elements. -/
def Sized (j : Nat) : List (List α) → Prop
  | [] => True
  | b :: set => (b = [] ∨ b.length = 2 ^ j) ∧ Sized (j + 1) set

theorem sized_replicate (j n : Nat) : Sized j (List.replicate n ([] : List α)) := by
  induction n generalizing j with
  | zero => trivial
  | succ n ih => exact ⟨.inl rfl, ih (j + 1)⟩

theorem length_merge (a b : List α) : (merge cmp a b).length = a.length + b.length := by
  rw [merge_eq, List.length_merge, Nat.add_comm]

/-- While the total is small the last bin is empty when it is reached. -/
theorem place_eq {j : Nat} {set : List (List α)} (hs : Sized j set) {ep : List α} (hep : ep.length = 2 ^ j)
    (hsmall : set.flatten.length + ep.length < 2 ^ (j + set.length)) :
    place cmp ep set = BinSort.insert (leOf cmp) ep set ∧ Sized j (place cmp ep set) := by
  induction set generalizing j ep with
  | nil => exact ⟨rfl, trivial⟩
  | cons b set ih =>
    cases set with
    | nil =>
      have hb : b = [] := by
        rcases hs.1 with hb | hb
        · exact hb
        · simp only [List.flatten_cons, List.flatten_nil, List.append_nil, List.length_singleton] at hsmall
          rw [hb, hep, Nat.pow_succ] at hsmall
          omega
      subst hb
      exact ⟨by simp [place, BinSort.insert], .inr hep, trivial⟩
    | cons b' set =>
      by_cases hb : b = []
      · subst hb
        exact ⟨rfl, .inr hep, hs.2⟩
      · have hlen : b.length = 2 ^ j := hs.1.resolve_left hb
        have hne : ¬ b.isEmpty = true := by simpa using hb
        have hmerge : (merge cmp ep b).length = 2 ^ (j + 1) := by
          rw [length_merge, hep, hlen, Nat.pow_succ]
          omega
        have hrest : (b' :: set).flatten.length + (merge cmp ep b).length < 2 ^ (j + 1 + (b' :: set).length) := by
          rw [List.flatten_cons, List.length_append] at hsmall
          rw [length_merge]
          have hexp : j + 1 + (b' :: set).length = j + (b :: b' :: set).length := by
            simp only [List.length_cons]
            omega
          rw [hexp]
          omega
        obtain ⟨heq, hsized⟩ := ih hs.2 hmerge hrest
        unfold place BinSort.insert
        rw [if_neg hne, if_neg hne, heq, merge_eq]
        rw [heq, merge_eq] at hsized
        exact ⟨rfl, .inl rfl, hsized⟩

theorem collect_eq (set : List (List α)) (ep : List α) :
    set.foldl (fun ep b => if b.isEmpty then ep else merge cmp ep b) ep =
      BinSort.collect (leOf cmp) set ep := by
  induction set generalizing ep with
  | nil => rfl
  | cons b set ih =>
    have hb : (if b.isEmpty then ep else merge cmp ep b) = b.merge ep (leOf cmp) := by
      rw [merge_eq]
      split
      next h =>
        rw [List.isEmpty_iff.1 h]
        simp
      next => rfl
    rw [List.foldl_cons, hb, ih]
    rfl

theorem length_insert (r : List α) (bins : List (List α)) :
    (BinSort.insert (leOf cmp) r bins).length = bins.length := by
  induction bins generalizing r with
  | nil => rfl
  | cons b bins ih =>
    cases bins with
    | nil => rfl
    | cons b' bins =>
      unfold BinSort.insert
      split
      next => rfl
      next => simp [ih]

/-- **Below `2 ^ LISTSIZE` elements nothing is overwritten.** -/
theorem msort_eq_sort {list : List α} (h : list.length < 2 ^ LISTSIZE) :
    msort cmp list = BinSort.sort (leOf cmp) 29 list := by
  have hfill : ∀ xs : List α, xs.length < 2 ^ LISTSIZE →
      let set := xs.foldl (fun set x => place cmp [x] set) (List.replicate LISTSIZE [])
      set = BinSort.fill (leOf cmp) xs (List.replicate (29 + 1) []) ∧ Sized 0 set ∧
        set.length = LISTSIZE ∧ set.flatten.length = xs.length := by
    intro xs
    induction xs using List.reverseRecOn with
    | nil => exact fun _ => ⟨rfl, sized_replicate 0 LISTSIZE, List.length_replicate, by simp⟩
    | append_singleton xs x ih =>
      intro hx
      rw [List.length_append, List.length_singleton] at hx
      obtain ⟨heq, hsized, hlen, hcount⟩ := ih (by omega)
      simp only [List.foldl_append, List.foldl_cons, List.foldl_nil]
      generalize xs.foldl (fun set x => place cmp [x] set) (List.replicate LISTSIZE []) = set at *
      have hsmall : set.flatten.length + [x].length < 2 ^ (0 + set.length) := by
        rw [hcount, hlen, Nat.zero_add]
        exact hx
      obtain ⟨hplace, hsized'⟩ : place cmp [x] set = _ ∧ Sized 0 (place cmp [x] set) :=
        place_eq hsized rfl hsmall
      have hne : set ≠ [] := List.ne_nil_of_length_pos (by rw [hlen]; decide)
      refine ⟨?_, hsized', ?_, ?_⟩
      · rw [hplace, heq, BinSort.fill, BinSort.fill, List.foldl_append]
        rfl
      · rw [hplace, ← hlen]
        exact length_insert _ _
      · rw [hplace, (BinSort.insert_perm hne).length_eq, List.length_append, hcount, List.length_append]
  obtain ⟨heq, _⟩ := hfill list h
  unfold msort BinSort.sort
  rw [collect_eq]
  exact congrArg (fun set => BinSort.collect (leOf cmp) set []) heq

/-- **`msort` is a stable sort** for a comparison that orders the elements of the list. -/
theorem msort_stable {list : List α} (h : list.length < 2 ^ LISTSIZE)
    (hcmp : BinSort.PreorderOn (leOf cmp) list) : BinSort.StableSort (leOf cmp) list (msort cmp list) := by
  rw [msort_eq_sort h]
  exact BinSort.sort_stable hcmp 29

theorem msort_perm {list : List α} (h : list.length < 2 ^ LISTSIZE) : (msort cmp list).Perm list := by
  rw [msort_eq_sort h]
  exact BinSort.sort_perm _ 29 list

end Dbsql.L7.MSort
