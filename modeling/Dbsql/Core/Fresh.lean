import Mathlib.Tactic.Common
/-!
# Leaving out what has been seen, and cutting

`keep dup pre xs` leaves out of `xs` each element that an earlier one, or one of `pre`, makes
a duplicate. `window m n` drops `m` elements and keeps `n` at most, or all others. The two do
not commute; `keep_window` says when they do, and `clean_of_keep_window` that this is
necessary where images tell the elements apart that are no duplicates.

`dup` need not be an equivalence. On the list at hand it has to be `Chained`: what `y` makes a
duplicate, every `z` between that is new after `y` does too. Equality is chained, and so is
"the key is at or below mine".
-/
namespace Dbsql.Core

variable {α β : Type} (dup : α → α → Bool)

def seen (pre : List α) (x : α) : Bool := pre.any (dup · x)

def keep : List α → List α → List α
  | _, [] => []
  | pre, x :: xs => if seen dup pre x then keep (pre ++ [x]) xs else x :: keep (pre ++ [x]) xs

/-- Nothing of `xs` is left out. -/
def AllNew (pre xs : List α) : Prop := keep dup pre xs = xs

/-- All of `xs` is left out. -/
def NoneNew (pre xs : List α) : Prop := keep dup pre xs = []

def Chained (xs : List α) : Prop :=
  ∀ y z x, List.Sublist [y, z, x] xs → dup y z = false → dup y x = true → dup z x = true

/-- All but the first `m`, and of these `n` at most. -/
def window (m : Nat) (n : Option Nat) (xs : List α) : List α :=
  match n with
  | none => xs.drop m
  | some k => (xs.drop m).take k

/-- The window begins with a new element after new ones only, and either all its elements are
new or none behind it. -/
def CutsClean (m : Nat) (n : Option Nat) (xs : List α) : Prop :=
  n = some 0 ∨ xs.length ≤ m ∨
    (AllNew dup [] (xs.take (m + 1)) ∧
      ∀ k, n = some k →
        AllNew dup [] (xs.take (m + k)) ∨ NoneNew dup (xs.take (m + k)) (xs.drop (m + k)))

variable {dup} {pre xs ys : List α} {x y z : α} {m : Nat} {n : Option Nat}

/-! ## Keeping -/

theorem seen_eq_false : seen dup pre x = false ↔ ∀ y ∈ pre, dup y x = false := by
  simp [seen]

theorem keep_cons : keep dup pre (x :: xs) =
    if seen dup pre x then keep dup (pre ++ [x]) xs else x :: keep dup (pre ++ [x]) xs := rfl

theorem keep_append : keep dup pre (xs ++ ys) = keep dup pre xs ++ keep dup (pre ++ xs) ys := by
  induction xs generalizing pre with
  | nil => simp [keep]
  | cons x xs ih =>
    rw [List.cons_append, keep_cons, keep_cons, ih, List.append_assoc, List.singleton_append]
    split
    · rfl
    · rfl

theorem keep_sublist : (keep dup pre xs).Sublist xs := by
  induction xs generalizing pre with
  | nil => exact .slnil
  | cons x xs ih =>
    rw [keep_cons]
    split
    · exact .cons _ ih
    · exact .cons_cons _ ih

theorem length_keep_le : (keep dup pre xs).length ≤ xs.length := keep_sublist.length_le

theorem allNew_of_length (h : xs.length ≤ (keep dup pre xs).length) : AllNew dup pre xs :=
  keep_sublist.eq_of_length_le h

/-- What is kept is a duplicate of nothing before the list. -/
theorem dup_eq_false_of_mem_keep (h : x ∈ keep dup pre xs) (hy : y ∈ pre) : dup y x = false := by
  induction xs generalizing pre with
  | nil => cases h
  | cons z xs ih =>
    rw [keep_cons] at h
    have hpre : y ∈ pre ++ [z] := List.mem_append_left _ hy
    split at h
    · exact ih h hpre
    · rename_i hs
      rcases List.mem_cons.1 h with rfl | h
      · exact seen_eq_false.1 (Bool.eq_false_iff.2 hs) y hy
      · exact ih h hpre

theorem allNew_append :
    AllNew dup pre (xs ++ ys) ↔ AllNew dup pre xs ∧ AllNew dup (pre ++ xs) ys := by
  unfold AllNew
  rw [keep_append]
  constructor
  · intro h
    have hlen := congrArg List.length h
    have h₁ : (keep dup pre xs).length ≤ xs.length := length_keep_le
    have h₂ : (keep dup (pre ++ xs) ys).length ≤ ys.length := length_keep_le
    rw [List.length_append, List.length_append] at hlen
    exact ⟨keep_sublist.eq_of_length (by omega), keep_sublist.eq_of_length (by omega)⟩
  · rintro ⟨h₁, h₂⟩
    rw [h₁, h₂]

theorem allNew_singleton : AllNew dup pre [x] ↔ ∀ y ∈ pre, dup y x = false := by
  unfold AllNew
  rw [keep_cons, ← seen_eq_false]
  cases seen dup pre x <;> simp [keep]

/-- Elements before `z` do not matter where `z` makes a duplicate of what they do. -/
theorem keep_shift (hz : z ∈ ys) (h : ∀ x ∈ xs, ∀ y ∈ pre, dup y x = true → dup z x = true) :
    keep dup (pre ++ ys) xs = keep dup ys xs := by
  induction xs generalizing ys with
  | nil => rfl
  | cons x xs ih =>
    have hseen : seen dup (pre ++ ys) x = seen dup ys x := by
      unfold seen
      rw [List.any_append]
      cases hp : pre.any (dup · x) with
      | false => rfl
      | true =>
        obtain ⟨y, hy, hd⟩ := List.any_eq_true.1 hp
        have hzx := h x List.mem_cons_self y hy hd
        rw [Bool.true_or]
        exact (List.any_eq_true.2 ⟨z, hz, hzx⟩).symm
    rw [keep_cons, keep_cons, hseen, List.append_assoc,
      ih (List.mem_append_left _ hz) fun x hx => h x (List.mem_cons_of_mem _ hx)]

/-! ## Cutting -/

section
variable {p r : List α}

/-- Behind new elements up to `z`, those before `z` do not matter. -/
theorem keep_behind (hc : Chained dup (p ++ z :: r)) (hz : ∀ y ∈ p, dup y z = false)
    (hys : z ∈ ys) (hxs : xs.Sublist r) : keep dup (p ++ ys) xs = keep dup ys xs := by
  refine keep_shift hys fun x hx y hy hd => hc y z x ?_ (hz y hy) hd
  have h₁ : [y].Sublist p := List.singleton_sublist.2 hy
  have h₂ : [x].Sublist r := List.singleton_sublist.2 (hxs.subset hx)
  exact h₁.append (h₂.cons_cons z)

theorem drop_keep (hc : Chained dup (p ++ z :: r)) (h : AllNew dup [] (p ++ [z])) :
    (keep dup [] (p ++ z :: r)).drop p.length = keep dup [] (z :: r) := by
  obtain ⟨hp, hz⟩ := allNew_append.1 h
  rw [List.nil_append] at hz
  have hz' := allNew_singleton.1 hz
  rw [keep_append, hp, List.drop_left' rfl, List.nil_append, keep_cons, keep_cons,
    seen_eq_false.2 hz', keep_behind hc hz' List.mem_cons_self (List.Sublist.refl _)]
  rfl

theorem take_length_split {k : Nat} (hk : (xs.take k).length < k) : xs.drop k = [] := by
  rw [List.length_take] at hk
  exact List.drop_eq_nil_of_le (by omega)

/-- Cutting behind `k` elements. -/
theorem take_keep {k : Nat} (h : AllNew dup [] (xs.take k) ∨ NoneNew dup (xs.take k) (xs.drop k)) :
    (keep dup [] xs).take k = keep dup [] (xs.take k) := by
  have hsplit : keep dup [] xs = keep dup [] (xs.take k) ++ keep dup (xs.take k) (xs.drop k) := by
    have h : keep dup [] (xs.take k ++ xs.drop k) = _ := keep_append
    rwa [List.take_append_drop, List.nil_append] at h
  have hle : (keep dup [] (xs.take k)).length ≤ k :=
    Nat.le_trans length_keep_le (List.length_take_le _ _)
  rw [hsplit]
  rcases h with h | h
  · rw [h]
    by_cases hk : (xs.take k).length < k
    · rw [take_length_split hk, keep, List.append_nil, List.take_take, Nat.min_self]
    · rw [List.take_append_of_le_length (by omega), List.take_of_length_le]
      rw [List.length_take]
      omega
  · rw [h, List.append_nil, List.take_of_length_le hle]

/-- Where nothing more than `xs.take k` gives is kept within `k`, the cut is clean. -/
theorem take_keep_clean {k : Nat}
    (h : ((keep dup [] xs).take k).length = (keep dup [] (xs.take k)).length) :
    AllNew dup [] (xs.take k) ∨ NoneNew dup (xs.take k) (xs.drop k) := by
  have hsplit : keep dup [] xs = keep dup [] (xs.take k) ++ keep dup (xs.take k) (xs.drop k) := by
    have h : keep dup [] (xs.take k ++ xs.drop k) = _ := keep_append
    rwa [List.take_append_drop, List.nil_append] at h
  cases hr : keep dup (xs.take k) (xs.drop k) with
  | nil => exact .inr hr
  | cons a as =>
    left
    apply allNew_of_length
    have hle := List.length_take_le k xs
    rw [hsplit, hr, List.length_take, List.length_append, List.length_cons] at h
    omega

/-- The list around position `m`. -/
theorem split_at_index (h : m < xs.length) :
    ∃ p z r, xs = p ++ z :: r ∧ p.length = m ∧ xs.take (m + 1) = p ++ [z] ∧ xs.drop m = z :: r := by
  refine ⟨xs.take m, xs[m], xs.drop (m + 1), ?_, ?_, ?_, ?_⟩
  · rw [← List.drop_eq_getElem_cons h, List.take_append_drop]
  · rw [List.length_take]
    omega
  · rw [List.take_succ_eq_append_getElem h]
  · rw [List.drop_eq_getElem_cons h]

/-- What the part of a clean cut that lies behind `m` says about the rest alone. -/
theorem clean_behind {k : Nat} (hc : Chained dup (p ++ z :: r)) (hk : 0 < k)
    (h : AllNew dup [] (p ++ [z])) :
    (AllNew dup [] ((p ++ z :: r).take (p.length + k)) ∨
      NoneNew dup ((p ++ z :: r).take (p.length + k)) ((p ++ z :: r).drop (p.length + k))) ↔
    AllNew dup [] ((z :: r).take k) ∨ NoneNew dup ((z :: r).take k) ((z :: r).drop k) := by
  obtain ⟨j, rfl⟩ : ∃ j, k = j + 1 := ⟨k - 1, by omega⟩
  obtain ⟨hp, hz⟩ := allNew_append.1 h
  rw [List.nil_append] at hz
  have hz' := allNew_singleton.1 hz
  have htake : (p ++ z :: r).take (p.length + (j + 1)) = (p ++ [z]) ++ r.take j := by
    rw [List.take_append, List.take_of_length_le (by omega), Nat.add_sub_cancel_left,
      List.take_succ_cons, List.append_assoc, List.singleton_append]
  have hdrop : (p ++ z :: r).drop (p.length + (j + 1)) = r.drop j := by
    rw [List.drop_append, List.drop_eq_nil_of_le (by omega), Nat.add_sub_cancel_left,
      List.drop_succ_cons, List.nil_append]
  have hnew : AllNew dup (p ++ [z]) (r.take j) ↔ AllNew dup [z] (r.take j) := by
    unfold AllNew
    rw [keep_behind hc hz' (List.mem_singleton_self z) (List.take_sublist j r)]
  have hnone : NoneNew dup (p ++ (z :: r.take j)) (r.drop j) ↔
      NoneNew dup (z :: r.take j) (r.drop j) := by
    unfold NoneNew
    rw [keep_behind hc hz' List.mem_cons_self (List.drop_sublist j r)]
  rw [htake, hdrop, List.take_succ_cons, List.drop_succ_cons, allNew_append, and_iff_right h,
    List.nil_append, hnew, List.append_assoc, List.singleton_append, hnone]
  have hone : AllNew dup [] (z :: r.take j) ↔ AllNew dup [z] (r.take j) := by
    rw [← List.singleton_append, allNew_append, List.nil_append]
    exact and_iff_right (allNew_singleton.2 fun y hy => (by cases hy))
  rw [hone]

theorem mem_drop_of_mem_window (h : x ∈ window m n xs) : x ∈ xs.drop m := by
  cases n with
  | none => exact h
  | some k => exact List.mem_of_mem_take h

/-- If `z` or something before it is left out, what is kept from position `p.length` on comes
from behind `z`. -/
theorem mem_keep_of_not_allNew (hnot : ¬ AllNew dup [] (p ++ [z]))
    (hx : x ∈ (keep dup [] (p ++ z :: r)).drop p.length) : x ∈ keep dup (p ++ [z]) r := by
  have hkeep : keep dup [] (p ++ z :: r) = keep dup [] (p ++ [z]) ++ keep dup (p ++ [z]) r := by
    rw [List.append_cons, keep_append]
    rfl
  have hshort : (keep dup [] (p ++ [z])).length ≤ p.length := by
    have h₁ : (keep dup [] (p ++ [z])).length ≤ (p ++ [z]).length := length_keep_le
    rw [List.length_append, List.length_singleton] at h₁
    by_contra h₂
    refine hnot (allNew_of_length ?_)
    rw [List.length_append, List.length_singleton]
    omega
  rw [hkeep, List.drop_append, List.drop_eq_nil_of_le hshort, List.nil_append] at hx
  exact List.mem_of_mem_drop hx

/-- **Where a cut is clean, what is kept of the window is the window of what is kept.** -/
theorem keep_window (hc : Chained dup xs) (h : CutsClean dup m n xs) :
    keep dup [] (window m n xs) = window m n (keep dup [] xs) := by
  rcases h with rfl | h | ⟨hfirst, hrest⟩
  · simp [window, keep]
  · have h₁ : xs.drop m = [] := List.drop_eq_nil_of_le h
    have h₂ : (keep dup [] xs).drop m = [] :=
      List.drop_eq_nil_of_le (Nat.le_trans length_keep_le h)
    cases n <;> simp [window, keep, h₁, h₂]
  · by_cases hm : m < xs.length
    · obtain ⟨p, z, r, rfl, rfl, htake, hdrop⟩ := split_at_index hm
      rw [htake] at hfirst
      have hd := drop_keep hc hfirst
      cases n with
      | none => rw [window, window, hdrop, hd]
      | some k =>
        rw [window, window, hdrop, hd]
        rcases Nat.eq_zero_or_pos k with rfl | hk
        · simp [keep]
        · exact (take_keep ((clean_behind hc hk hfirst).1 (hrest k rfl))).symm
    · have h₁ : xs.drop m = [] := List.drop_eq_nil_of_le (by omega)
      have h₂ : (keep dup [] xs).drop m = [] :=
        List.drop_eq_nil_of_le (Nat.le_trans length_keep_le (by omega))
      cases n <;> simp [window, keep, h₁, h₂]

/-- **And only there, if elements that are no duplicates of each other look different.** -/
theorem clean_of_keep_window {f : α → β} (hc : Chained dup xs)
    (hf : ∀ y x, List.Sublist [y, x] xs → dup y x = false → f y ≠ f x)
    (h : (keep dup [] (window m n xs)).map f = (window m n (keep dup [] xs)).map f) :
    CutsClean dup m n xs := by
  by_cases hn : n = some 0
  · exact .inl hn
  by_cases hm : xs.length ≤ m
  · exact .inr (.inl hm)
  obtain ⟨p, z, r, rfl, rfl, htake, hdrop⟩ := split_at_index (Nat.not_le.1 hm)
  -- the first row delivered is `z`
  obtain ⟨w, hw⟩ : ∃ w, window p.length n (p ++ z :: r) = z :: w := by
    unfold window
    rw [hdrop]
    rcases n with _ | _ | k
    · exact ⟨r, rfl⟩
    · exact absurd rfl hn
    · exact ⟨r.take k, rfl⟩
  have hhead : ((window p.length n (keep dup [] (p ++ z :: r))).map f).head? = some (f z) := by
    rw [← h, hw, keep_cons]
    rfl
  have hfirst : AllNew dup [] (p ++ [z]) := by
    by_contra hnot
    cases hwin : window p.length n (keep dup [] (p ++ z :: r)) with
    | nil =>
      rw [hwin] at hhead
      cases hhead
    | cons x _ =>
      rw [hwin] at hhead
      have hx := mem_keep_of_not_allNew hnot (mem_drop_of_mem_window (hwin ▸ List.mem_cons_self))
      have hzx := dup_eq_false_of_mem_keep hx (List.mem_append_right p (List.mem_singleton_self z))
      refine hf z x ?_ hzx (Option.some.inj hhead).symm
      have h₁ : [x].Sublist r := List.singleton_sublist.2 (keep_sublist.subset hx)
      exact (h₁.cons_cons z).trans (List.sublist_append_right p _)
  refine .inr (.inr ⟨htake ▸ hfirst, fun k hk => ?_⟩)
  subst hk
  have hpos : 0 < k := Nat.pos_of_ne_zero fun h0 => hn (h0 ▸ rfl)
  rw [clean_behind hc hpos hfirst]
  refine take_keep_clean ?_
  have hlen := congrArg List.length h
  rw [List.length_map, List.length_map, window, window, hdrop, drop_keep hc hfirst] at hlen
  exact hlen.symm

end
end Dbsql.Core
