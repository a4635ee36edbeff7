import Mathlib.Data.List.Induction
/-!
# Merge sort from the bottom, in bins

`sort` puts the elements one by one into a row of bins. A bin that is taken is merged into what
comes and left empty, as a carry in binary addition; the last bin takes everything that comes to
it. At the end the bins are merged. Nothing is assumed of their number but that there is one.

Results:
* `sort_perm`: nothing is lost.
* `sort_sorted`: the result is in order, for a total preorder on the elements.
* `filter_sort`: elements that are equal keep their order.
-/
namespace Dbsql.Core.BinSort
open List (Perm)

variable {α β : Type*} (le : α → α → Bool)

/-- One run of elements goes into the bins. -/
def insert (r : List α) : List (List α) → List (List α)
  | [] => []
  | [b] => [b.merge r le]
  | b :: b' :: bins => if b.isEmpty then r :: b' :: bins else [] :: insert (b.merge r le) (b' :: bins)

/-- The bins after all elements. -/
def fill (xs : List α) (bins : List (List α)) : List (List α) :=
  xs.foldl (fun bins x => insert le [x] bins) bins

/-- The bins merged, the later ones before the earlier. -/
def collect (bins : List (List α)) (acc : List α) : List α :=
  bins.foldl (fun acc b => b.merge acc le) acc

/-- The sort with `n + 1` bins. -/
def sort (n : Nat) (xs : List α) : List α := collect le (fill le xs (List.replicate (n + 1) [])) []

variable {le} {bins : List (List α)} {r xs acc : List α}

theorem replicate_ne_nil (n : Nat) : List.replicate (n + 1) ([] : List α) ≠ [] :=
  List.cons_ne_nil _ _

theorem insert_ne_nil (h : bins ≠ []) : insert le r bins ≠ [] := by
  fun_cases insert le r bins with
  | case1 => exact absurd rfl h
  | case2 | case3 | case4 => exact List.cons_ne_nil _ _

/-- A step lemma for the bins makes a run lemma. -/
theorem fill_induction {P : List α → List (List α) → Prop} (h : bins ≠ [])
    (h0 : P [] bins) (hstep : ∀ xs x bins, bins ≠ [] → P xs bins → P (xs ++ [x]) (insert le [x] bins))
    (xs : List α) : P xs (fill le xs bins) := by
  suffices H : fill le xs bins ≠ [] ∧ P xs (fill le xs bins) from H.2
  induction xs using List.reverseRecOn with
  | nil => exact ⟨h, h0⟩
  | append_singleton xs x ih =>
    rw [fill, List.foldl_append]
    exact ⟨insert_ne_nil ih.1, hstep xs x _ ih.1 ih.2⟩

/-! ## Nothing is lost -/

theorem insert_perm (h : bins ≠ []) : (insert le r bins).flatten.Perm (bins.flatten ++ r) := by
  fun_induction insert le r bins with
  | case1 => exact absurd rfl h
  | case2 r b => simpa using List.merge_perm_append le
  | case3 r b b' bins hb =>
    have hswap : (r ++ (b' ++ bins.flatten)).Perm ((b' ++ bins.flatten) ++ r) := List.perm_append_comm
    rw [List.isEmpty_iff.1 hb]
    simpa using hswap
  | case4 r b b' bins hb ih =>
    have hmerge : (b.merge r le).Perm (b ++ r) := List.merge_perm_append le
    have hswap : ((b' :: bins).flatten ++ (b ++ r)).Perm ((b ++ (b' :: bins).flatten) ++ r) := by
      rw [← List.append_assoc]
      exact List.perm_append_comm.append_right r
    exact ((ih (List.cons_ne_nil _ _)).trans (hmerge.append_left _)).trans hswap

theorem collect_perm (bins : List (List α)) (acc : List α) :
    (collect le bins acc).Perm (bins.flatten ++ acc) := by
  induction bins generalizing acc with
  | nil => exact .refl _
  | cons b bins ih =>
    have hmerge : (b.merge acc le).Perm (b ++ acc) := List.merge_perm_append le
    have hswap : (bins.flatten ++ (b ++ acc)).Perm ((b ++ bins.flatten) ++ acc) := by
      rw [← List.append_assoc]
      exact List.perm_append_comm.append_right acc
    exact ((ih _).trans (hmerge.append_left _)).trans hswap

/-- **Nothing is lost and nothing doubled.** -/
theorem sort_perm (le : α → α → Bool) (n : Nat) (xs : List α) : (sort le n xs).Perm xs := by
  have hfill : (fill le xs (List.replicate (n + 1) [])).flatten.Perm xs :=
    fill_induction (P := fun xs bins => bins.flatten.Perm xs) (replicate_ne_nil n) (by simp)
      (fun xs x bins h ih => (insert_perm h).trans (ih.append_right [x])) xs
  have hcollect : (sort le n xs).Perm ((fill le xs (List.replicate (n + 1) [])).flatten ++ []) :=
    collect_perm _ _
  rw [List.append_nil] at hcollect
  exact hcollect.trans hfill

/-! ## Order and ties -/

section
variable (total : ∀ a b, le a b || le b a) (trans : ∀ a b c, le a b → le b c → le a c)

include total trans

theorem insert_sorted (hr : r.Pairwise (le · ·)) (h : ∀ b ∈ bins, b.Pairwise (le · ·)) :
    ∀ b ∈ insert le r bins, b.Pairwise (le · ·) := by
  fun_induction insert le r bins with
  | case1 => exact h
  | case2 r b =>
    exact List.forall_mem_singleton.2 (List.pairwise_merge trans total _ _ (h b List.mem_cons_self) hr)
  | case3 r b b' bins hb => exact List.forall_mem_cons.2 ⟨hr, (List.forall_mem_cons.1 h).2⟩
  | case4 r b b' bins hb ih =>
    obtain ⟨hb, h⟩ := List.forall_mem_cons.1 h
    exact List.forall_mem_cons.2 ⟨.nil, ih (List.pairwise_merge trans total _ _ hb hr) h⟩

theorem collect_sorted (h : ∀ b ∈ bins, b.Pairwise (le · ·)) (hacc : acc.Pairwise (le · ·)) :
    (collect le bins acc).Pairwise (le · ·) := by
  induction bins generalizing acc with
  | nil => exact hacc
  | cons b bins ih =>
    obtain ⟨hb, h⟩ := List.forall_mem_cons.1 h
    exact ih h (List.pairwise_merge trans total _ _ hb hacc)

theorem fill_sorted (n : Nat) (xs : List α) :
    ∀ b ∈ fill le xs (List.replicate (n + 1) []), b.Pairwise (le · ·) := by
  refine fill_induction (P := fun _ bins => ∀ b ∈ bins, b.Pairwise (le · ·)) (replicate_ne_nil n)
    (fun b hb => ?_)
    (fun _ x _ _ ih => insert_sorted total trans (List.pairwise_singleton _ x) ih) xs
  have hnil : b = [] := List.eq_of_mem_replicate hb
  rw [hnil]
  exact .nil

theorem sort_sorted (n : Nat) (xs : List α) : (sort le n xs).Pairwise (le · ·) :=
  collect_sorted total trans (fill_sorted total trans n xs) .nil

end

section
variable {p : α → Bool} (trans : ∀ a b c, le a b → le b c → le a c)
  (htie : ∀ a b, p a → p b → le a b)

include trans htie

/-- Of two equal elements the merge takes the left one first. -/
theorem filter_merge (xs : List α) : ∀ ys : List α, xs.Pairwise (le · ·) →
    (xs.merge ys le).filter p = xs.filter p ++ ys.filter p := by
  induction xs with
  | nil => simp
  | cons x xs ihx =>
    intro ys hxs
    obtain ⟨hx, hxs'⟩ := List.pairwise_cons.1 hxs
    induction ys with
    | nil => simp
    | cons y ys ihy =>
      rw [List.cons_merge_cons]
      by_cases hle : le x y = true
      · rw [if_pos hle, List.filter_cons, List.filter_cons, ihx _ hxs']
        split <;> rfl
      · rw [if_neg hle, List.filter_cons, ihy]
        by_cases hy : p y = true
        · -- no element on the left is equal to `y`
          have hnone : (x :: xs).filter p = [] := by
            refine List.filter_eq_nil_iff.2 fun a ha hpa => hle ?_
            rcases List.mem_cons.1 ha with rfl | ha
            · exact htie _ y hpa hy
            · exact trans x a y (hx a ha) (htie a y hpa hy)
          rw [if_pos hy, hnone, List.filter_cons, if_pos hy]
          rfl
        · rw [if_neg hy, List.filter_cons_of_neg hy]

/-- What is in the bins, the later bins first. -/
theorem filter_insert (h : bins ≠ []) (hbins : ∀ b ∈ bins, b.Pairwise (le · ·)) :
    (insert le r bins).reverse.flatten.filter p = bins.reverse.flatten.filter p ++ r.filter p := by
  fun_induction insert le r bins with
  | case1 => exact absurd rfl h
  | case2 r b => simpa using filter_merge trans htie b r (hbins b List.mem_cons_self)
  | case3 r b b' bins hb =>
    rw [List.isEmpty_iff.1 hb]
    simp
  | case4 r b b' bins hb ih =>
    obtain ⟨hb, hbins⟩ := List.forall_mem_cons.1 hbins
    have ih := ih (List.cons_ne_nil _ _) hbins
    rw [filter_merge trans htie b r hb] at ih
    rw [List.reverse_cons, List.flatten_append, List.filter_append, ih, List.reverse_cons,
      List.flatten_append, List.filter_append]
    simp

theorem filter_collect (hbins : ∀ b ∈ bins, b.Pairwise (le · ·)) (acc : List α) :
    (collect le bins acc).filter p = bins.reverse.flatten.filter p ++ acc.filter p := by
  induction bins generalizing acc with
  | nil => rfl
  | cons b bins ih =>
    obtain ⟨hb, hbins⟩ := List.forall_mem_cons.1 hbins
    have ih := ih hbins (b.merge acc le)
    rw [filter_merge trans htie b acc hb] at ih
    rw [List.reverse_cons, List.flatten_append, List.filter_append, List.append_assoc, collect,
      List.foldl_cons]
    simpa [collect] using ih

/-- **Equal elements keep their order.** -/
theorem filter_sort (total : ∀ a b, le a b || le b a) (n : Nat) (xs : List α) :
    (sort le n xs).filter p = xs.filter p := by
  have hfill : (∀ b ∈ fill le xs (List.replicate (n + 1) []), b.Pairwise (le · ·)) ∧
      (fill le xs (List.replicate (n + 1) [])).reverse.flatten.filter p = xs.filter p := by
    refine ⟨fill_sorted total trans n xs, ?_⟩
    refine (fill_induction (P := fun xs bins => (∀ b ∈ bins, b.Pairwise (le · ·)) ∧
      bins.reverse.flatten.filter p = xs.filter p) (replicate_ne_nil n)
      ⟨fill_sorted total trans n [], by simp⟩ (fun xs x bins h ih => ⟨?_, ?_⟩) xs).2
    · exact insert_sorted total trans (List.pairwise_singleton _ x) ih.1
    · rw [filter_insert trans htie h ih.1, ih.2, List.filter_append]
  rw [sort, filter_collect trans htie hfill.1, hfill.2]
  simp

end

/-! ## A preorder on the elements only -/

section
variable {f : α → β} {le' : β → β → Bool} (hf : ∀ a b, le a b = le' (f a) (f b))

include hf

theorem map_insert : (insert le r bins).map (List.map f) = insert le' (r.map f) (bins.map (List.map f)) := by
  have hmerge : ∀ b r : List α, (b.merge r le).map f = (b.map f).merge (r.map f) le' :=
    fun b r => List.map_merge fun a _ b _ => hf a b
  fun_induction insert le r bins with
  | case1 => rfl
  | case2 r b => simp [insert, hmerge]
  | case3 r b b' bins hb => simp [insert, hb]
  | case4 r b b' bins hb ih =>
    rw [List.map_cons, ih, hmerge]
    simp [insert, hb]

theorem map_collect (bins : List (List α)) (acc : List α) :
    (collect le bins acc).map f = collect le' (bins.map (List.map f)) (acc.map f) := by
  induction bins generalizing acc with
  | nil => rfl
  | cons b bins ih =>
    have hmerge : (b.merge acc le).map f = (b.map f).merge (acc.map f) le' :=
      List.map_merge fun a _ b _ => hf a b
    exact (ih _).trans (by rw [hmerge]; rfl)

theorem map_sort (n : Nat) (xs : List α) : (sort le n xs).map f = sort le' n (xs.map f) := by
  have hfill : ∀ bins : List (List α),
      (fill le xs bins).map (List.map f) = fill le' (xs.map f) (bins.map (List.map f)) := by
    induction xs with
    | nil => exact fun _ => rfl
    | cons x xs ih => exact fun bins => (ih _).trans (by rw [map_insert hf]; rfl)
  rw [sort, map_collect hf, hfill, List.map_replicate]
  rfl

end

/-- A total preorder on the elements of a list. -/
structure PreorderOn (le : α → α → Bool) (xs : List α) : Prop where
  total : ∀ a ∈ xs, ∀ b ∈ xs, le a b || le b a
  trans : ∀ a ∈ xs, ∀ b ∈ xs, ∀ c ∈ xs, le a b → le b c → le a c

/-- Each at most the other. -/
def tie (le : α → α → Bool) (k a : α) : Bool := le a k && le k a

/-- A permutation of a list that is in order and keeps equal elements in theirs. -/
structure StableSort (le : α → α → Bool) (xs ys : List α) : Prop where
  perm : ys.Perm xs
  sorted : ys.Pairwise (le · ·)
  stable : ∀ k ∈ xs, ys.filter (tie le k) = xs.filter (tie le k)

/-- **A preorder on the elements is enough.** -/
theorem sort_stable (h : PreorderOn le xs) (n : Nat) : StableSort le xs (sort le n xs) := by
  -- the list as one of elements of itself
  let leS : {a // a ∈ xs} → {a // a ∈ xs} → Bool := fun a b => le a b
  have htotal : ∀ a b, leS a b || leS b a := fun a b => h.total a a.2 b b.2
  have htrans : ∀ a b c, leS a b → leS b c → leS a c := fun a b c => h.trans a a.2 b b.2 c c.2
  have hval : ∀ a b, leS a b = le (Subtype.val a) (Subtype.val b) := fun _ _ => rfl
  have hsort : (sort leS n xs.attach).map Subtype.val = sort le n xs := by
    rw [map_sort hval, List.attach_map_subtype_val]
  refine ⟨sort_perm le n xs, ?_, fun k hk => ?_⟩
  · rw [← hsort, List.pairwise_map]
    exact sort_sorted htotal htrans n xs.attach
  · have hfilter := filter_sort (p := tie leS ⟨k, hk⟩) htrans
      (fun a b ha hb => htrans a ⟨k, hk⟩ b (Bool.and_eq_true_iff.1 ha).1 (Bool.and_eq_true_iff.1 hb).2) htotal n
      xs.attach
    have hmap : ∀ ys : List {a // a ∈ xs},
        (ys.map Subtype.val).filter (tie le k) = (ys.filter (tie leS ⟨k, hk⟩)).map Subtype.val := by
      intro ys
      rw [List.filter_map]
      rfl
    rw [← hsort, hmap, hfilter, ← hmap, List.attach_map_subtype_val]

end Dbsql.Core.BinSort
