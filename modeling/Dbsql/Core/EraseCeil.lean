import Mathlib.Data.List.Perm.Subperm
import Mathlib.Data.List.Dedup
import Mathlib.Data.List.Sort
/-!
# Erasing the next element

`eraseCeil l a` takes the first element at or above `a` out of a sorted list, which is `a` itself if
it is there. Of several such searches the order does not matter: so those that are there may come
first, and each of the others takes something away that should stay, unless nothing that stays is at
or above it.

Results:
* `foldl_eraseCeil_perm`: the order of the searches does not matter.
* `take_foldl_eraseCeil_iff`: when the first elements left are those of the difference.
-/
namespace Dbsql.Core

variable {α : Type*} [LinearOrder α]

/-- Without its first element at or above `a`. -/
def eraseCeil (l : List α) (a : α) : List α := l.eraseP (a ≤ ·)

variable {l as bs : List α} {a b : α} {k : Nat}

theorem eraseCeil_sublist (l : List α) (a : α) : (eraseCeil l a).Sublist l := List.eraseP_sublist

theorem foldl_eraseCeil_sublist (as l : List α) : (as.foldl eraseCeil l).Sublist l := by
  induction as generalizing l with
  | nil => exact List.Sublist.refl l
  | cons a as ih => exact (ih _).trans (eraseCeil_sublist l a)

/-- Nothing is at or above `a`. -/
theorem eraseCeil_of_lt (h : ∀ x ∈ l, ¬ a ≤ x) : eraseCeil l a = l :=
  List.eraseP_of_forall_not fun x hx => by simpa using h x hx

theorem eraseCeil_cons_of_le (h : a ≤ b) : eraseCeil (b :: l) a = l := List.eraseP_cons_of_pos (by simpa using h)

theorem eraseCeil_cons_of_lt (h : ¬ a ≤ b) : eraseCeil (b :: l) a = b :: eraseCeil l a :=
  List.eraseP_cons_of_neg (by simpa using h)

theorem eraseCeil_append (h : ∀ x ∈ as, ¬ a ≤ x) (hb : a ≤ b) : eraseCeil (as ++ b :: bs) a = as ++ bs := by
  induction as with
  | nil => exact eraseCeil_cons_of_le hb
  | cons x as ih =>
    rw [List.forall_mem_cons] at h
    rw [List.cons_append, eraseCeil_cons_of_lt h.1, ih h.2, List.cons_append]

/-! ## The order of the searches -/

theorem eraseCeil_comm_of_le (hl : l.Pairwise (· < ·)) (hab : a ≤ b) :
    eraseCeil (eraseCeil l a) b = eraseCeil (eraseCeil l b) a := by
  induction l with
  | nil => rfl
  | cons x l ih =>
    rw [List.pairwise_cons] at hl
    by_cases hb : b ≤ x
    · -- what is behind is above both
      rw [eraseCeil_cons_of_le (hab.trans hb), eraseCeil_cons_of_le hb]
      cases l with
      | nil => rfl
      | cons y l =>
        have hy : b ≤ y := hb.trans (hl.1 y List.mem_cons_self).le
        rw [eraseCeil_cons_of_le hy, eraseCeil_cons_of_le (hab.trans hy)]
    · rw [eraseCeil_cons_of_lt hb]
      by_cases ha : a ≤ x
      · rw [eraseCeil_cons_of_le ha, eraseCeil_cons_of_le ha]
      · rw [eraseCeil_cons_of_lt ha, eraseCeil_cons_of_lt ha, eraseCeil_cons_of_lt hb, ih hl.2]

theorem eraseCeil_comm (hl : l.Pairwise (· < ·)) (a b : α) :
    eraseCeil (eraseCeil l a) b = eraseCeil (eraseCeil l b) a := by
  rcases le_total a b with h | h
  · exact eraseCeil_comm_of_le hl h
  · exact (eraseCeil_comm_of_le hl h).symm

/-- **The order of the searches does not matter.** -/
theorem foldl_eraseCeil_perm (h : as.Perm bs) (hl : l.Pairwise (· < ·)) :
    as.foldl eraseCeil l = bs.foldl eraseCeil l := by
  induction h generalizing l with
  | nil => rfl
  | cons a _ ih => exact ih (hl.sublist (eraseCeil_sublist l a))
  | swap a b as => exact congrArg (as.foldl eraseCeil) (eraseCeil_comm hl b a)
  | trans _ _ ih₁ ih₂ => exact (ih₁ hl).trans (ih₂ hl)

/-! ## Searches of what is there -/

theorem eraseCeil_eq_filter (hl : l.Pairwise (· < ·)) (ha : a ∈ l) : eraseCeil l a = l.filter (· ≠ a) := by
  induction l with
  | nil => cases ha
  | cons x l ih =>
    rw [List.pairwise_cons] at hl
    by_cases hx : a = x
    · subst hx
      have hne : ∀ y ∈ l, decide (y ≠ a) = true := fun y hy => decide_eq_true (hl.1 y hy).ne'
      rw [eraseCeil_cons_of_le (le_refl a), List.filter_cons_of_neg (by simp), List.filter_eq_self.2 hne]
    · have hmem : a ∈ l := (List.mem_cons.1 ha).resolve_left hx
      rw [eraseCeil_cons_of_lt (hl.1 a hmem).not_ge, List.filter_cons_of_pos (by simpa using Ne.symm hx),
        ih hl.2 hmem]

/-- Each takes itself out. -/
theorem foldl_eraseCeil_eq_filter (hl : l.Pairwise (· < ·)) (hsub : ∀ a ∈ as, a ∈ l) (hnodup : as.Nodup) :
    as.foldl eraseCeil l = l.filter (· ∉ as) := by
  induction as generalizing l with
  | nil => simp
  | cons a as ih =>
    rw [List.nodup_cons] at hnodup
    rw [List.forall_mem_cons] at hsub
    rw [List.foldl_cons, eraseCeil_eq_filter hl hsub.1, ih (hl.filter _) _ hnodup.2, List.filter_filter]
    · refine List.filter_congr fun x _ => ?_
      simp [Bool.and_comm]
    · intro b hb
      rw [List.mem_filter]
      exact ⟨hsub.2 b hb, decide_eq_true fun he => hnodup.1 (he ▸ hb)⟩

/-! ## Searches that find something else -/

/-- Nothing up to the `k`-th is at or above `a`. -/
theorem take_eraseCeil (h : ∀ x ∈ l.take k, ¬ a ≤ x) : (eraseCeil l a).take k = l.take k := by
  induction l generalizing k with
  | nil => rfl
  | cons x l ih =>
    cases k with
    | zero => rw [List.take_zero, List.take_zero]
    | succ k =>
      rw [List.take_succ_cons, List.forall_mem_cons] at h
      rw [eraseCeil_cons_of_lt h.1, List.take_succ_cons, List.take_succ_cons, ih h.2]

/-- Something up to the `k`-th is lost. -/
theorem exists_lost (hl : l.Pairwise (· < ·)) (h : ∃ x ∈ l.take k, a ≤ x) :
    ∃ x ∈ l.take k, x ∉ eraseCeil l a := by
  induction l generalizing k with
  | nil =>
    obtain ⟨x, hx, -⟩ := h
    rw [List.take_nil] at hx
    cases hx
  | cons y l ih =>
    cases k with
    | zero =>
      obtain ⟨x, hx, -⟩ := h
      cases hx
    | succ k =>
      rw [List.pairwise_cons] at hl
      rw [List.take_succ_cons] at h ⊢
      by_cases hy : a ≤ y
      · refine ⟨y, List.mem_cons_self, ?_⟩
        rw [eraseCeil_cons_of_le hy]
        exact fun hmem => (hl.1 y hmem).false
      · obtain ⟨x, hx, hax⟩ := h
        have hx' : x ∈ l.take k := (List.mem_cons.1 hx).resolve_left fun he => hy (he ▸ hax)
        obtain ⟨z, hz, hlost⟩ := ih hl.2 ⟨x, hx', hax⟩
        refine ⟨z, List.mem_cons_of_mem _ hz, ?_⟩
        rw [eraseCeil_cons_of_lt hy, List.mem_cons, not_or]
        exact ⟨(hl.1 z (List.mem_of_mem_take hz)).ne', hlost⟩

/-- The first elements stay where each search goes past them. -/
theorem take_foldl_eraseCeil (hl : l.Pairwise (· < ·)) :
    (as.foldl eraseCeil l).take k = l.take k ↔ ∀ a ∈ as, ∀ x ∈ l.take k, ¬ a ≤ x := by
  induction as generalizing l with
  | nil => simp
  | cons a as ih =>
    rw [List.foldl_cons, List.forall_mem_cons]
    by_cases ha : ∀ x ∈ l.take k, ¬ a ≤ x
    · have hstep := take_eraseCeil ha
      have hrest := ih (hl.sublist (eraseCeil_sublist l a))
      rw [hstep] at hrest
      rw [hrest]
      exact (and_iff_right ha).symm
    · refine iff_of_false (fun h => ?_) fun h => ha h.1
      push Not at ha
      obtain ⟨x, hx, hlost⟩ := exists_lost hl ha
      rw [← h] at hx
      exact hlost ((foldl_eraseCeil_sublist as _).subset (List.mem_of_mem_take hx))

/-- **When the first elements left are those of the difference**: none of these is at or above a search
that is of something else, or is made once more. -/
theorem take_foldl_eraseCeil_iff (hl : l.Pairwise (· < ·)) :
    (bs.foldl eraseCeil l).take k = (l.filter (· ∉ bs)).take k ↔
      ∀ b ∈ bs, b ∉ l ∨ 1 < bs.count b → ∀ x ∈ (l.filter (· ∉ bs)).take k, ¬ b ≤ x := by
  have hnodup : l.Nodup := hl.imp ne_of_lt
  -- first the searches of what is there, once each
  have hperm : (l.filter (· ∈ bs) ++ bs.diff (l.filter (· ∈ bs))).Perm bs := by
    refine List.subperm_append_diff_self_of_count_le fun x hx => ?_
    rw [List.count_eq_one_of_mem (hnodup.filter _) hx]
    rw [List.mem_filter, decide_eq_true_eq] at hx
    exact List.one_le_count_iff.2 hx.2
  have hrest : ∀ b, b ∈ bs.diff (l.filter (· ∈ bs)) ↔ b ∈ bs ∧ (b ∉ l ∨ 1 < bs.count b) := by
    intro b
    have hcount := hperm.count_eq b
    rw [List.count_append] at hcount
    rw [← List.count_pos_iff, ← List.count_pos_iff]
    by_cases hb : b ∈ bs ∧ b ∈ l
    · rw [List.count_eq_one_of_mem (hnodup.filter _) (List.mem_filter.2 ⟨hb.2, decide_eq_true hb.1⟩)] at hcount
      simp only [hb.2, not_true_eq_false, false_or]
      omega
    · have hnot : b ∉ l.filter (· ∈ bs) := fun h => by
        rw [List.mem_filter, decide_eq_true_eq] at h
        exact hb h.symm
      rw [List.count_eq_zero_of_not_mem hnot] at hcount
      have hl : 0 < bs.count b → b ∉ l := fun hpos hbl => hb ⟨List.count_pos_iff.1 hpos, hbl⟩
      constructor
      · exact fun hpos => ⟨by omega, .inl (hl (by omega))⟩
      · exact fun hpos => by omega
  have hfirst : (l.filter (· ∈ bs)).foldl eraseCeil l = l.filter (· ∉ bs) := by
    rw [foldl_eraseCeil_eq_filter hl (fun a ha => List.mem_of_mem_filter ha) (hnodup.filter _)]
    refine List.filter_congr fun x hx => ?_
    simp [hx]
  rw [← foldl_eraseCeil_perm hperm hl, List.foldl_append, hfirst, take_foldl_eraseCeil (hl.filter _)]
  constructor
  · exact fun h b hb hagain => h b ((hrest b).2 ⟨hb, hagain⟩)
  · exact fun h b hb => h b ((hrest b).1 hb).1 ((hrest b).1 hb).2

end Dbsql.Core
