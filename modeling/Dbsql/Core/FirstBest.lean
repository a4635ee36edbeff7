import Mathlib.Data.List.Induction
/-!
# The best of a list, kept while going over it

`runningBest` goes over a list and keeps an element until a better one comes. What it ends
with is the first best element, if nothing is as good as two things of which one is better
than the other.

Results:
* `FirstBest.runningBest`: the first best element is what is kept, whatever "better" is.
* `firstBest_of_runningBest`: and it is the only thing kept, for a strict weak order.
-/
namespace Dbsql.Core

variable {α : Type*} (better : α → α → Bool)

/-- One step: the first element, and then what is better. -/
def keepBetter (best : Option α) (x : α) : Option α :=
  match best with
  | none => some x
  | some b => if better x b then some x else some b

/-- What is kept at the end. -/
def runningBest (xs : List α) : Option α := xs.foldl (keepBetter better) none

/-- `x` is better than everything before it, and nothing behind it is better. -/
def FirstBest (xs : List α) (x : α) : Prop :=
  ∃ pre post, xs = pre ++ x :: post ∧ (∀ y ∈ pre, better x y = true) ∧ ∀ y ∈ post, better y x = false

/-- A strict weak order on the elements of a list. -/
structure StrictWeakOn (xs : List α) : Prop where
  asymm : ∀ x ∈ xs, ∀ y ∈ xs, better x y = true → better y x = false
  split : ∀ x ∈ xs, ∀ y ∈ xs, ∀ z ∈ xs, better x y = true → better x z = true ∨ better z y = true

variable {better} {xs ys : List α} {x y : α}

theorem StrictWeakOn.mono (h : StrictWeakOn better ys) (hs : ∀ x ∈ xs, x ∈ ys) :
    StrictWeakOn better xs :=
  ⟨fun x hx y hy => h.asymm x (hs x hx) y (hs y hy),
    fun x hx y hy z hz => h.split x (hs x hx) y (hs y hy) z (hs z hz)⟩

/-! ## What is kept -/

theorem runningBest_concat : runningBest better (xs ++ [x]) = keepBetter better (runningBest better xs) x := by
  rw [runningBest, List.foldl_append]
  rfl

theorem keepBetter_ne_none (best : Option α) : keepBetter better best x ≠ none := by
  unfold keepBetter
  split
  · exact Option.some_ne_none x
  · split <;> exact Option.some_ne_none _

theorem runningBest_eq_none : runningBest better xs = none ↔ xs = [] := by
  induction xs using List.reverseRecOn with
  | nil => exact iff_of_true rfl rfl
  | append_singleton xs x =>
    rw [runningBest_concat]
    exact iff_of_false (keepBetter_ne_none _) (by simp)

/-- What is kept stands in the list. -/
theorem mem_of_runningBest (h : runningBest better xs = some x) : x ∈ xs := by
  induction xs using List.reverseRecOn with
  | nil => cases h
  | append_singleton xs y ih =>
    rw [runningBest_concat] at h
    unfold keepBetter at h
    split at h
    · cases h
      exact List.mem_concat_self
    · rename_i b hb
      split at h
      · cases h
        exact List.mem_concat_self
      · cases h
        exact List.mem_append_left _ (ih hb)

/-- What nothing behind it beats stays. -/
theorem foldl_keepBetter (h : ∀ y ∈ ys, better y x = false) :
    ys.foldl (keepBetter better) (some x) = some x := by
  induction ys with
  | nil => rfl
  | cons y ys ih =>
    have hy : keepBetter better (some x) y = some x := by
      simp [keepBetter, h y List.mem_cons_self]
    rw [List.foldl_cons, hy]
    exact ih fun z hz => h z (List.mem_cons_of_mem _ hz)

/-! ## The first best element -/

theorem FirstBest.mem (h : FirstBest better xs x) : x ∈ xs := by
  obtain ⟨pre, post, rfl, -, -⟩ := h
  exact List.mem_append_right _ List.mem_cons_self

/-- The first element, if nothing is better. -/
theorem FirstBest.of_head (h : ∀ y ∈ xs, better y x = false) : FirstBest better (x :: xs) x :=
  ⟨[], xs, rfl, fun _ hy => (by cases hy), h⟩

/-- The last element, if it is better than the others. -/
theorem FirstBest.of_last (h : ∀ y ∈ xs, better x y = true) : FirstBest better (xs ++ [x]) x :=
  ⟨xs, [], rfl, h, fun _ hy => (by cases hy)⟩

/-- **The first best element is what is kept.** -/
theorem FirstBest.runningBest (h : FirstBest better xs x) : runningBest better xs = some x := by
  obtain ⟨pre, post, rfl, hpre, hpost⟩ := h
  have hx : keepBetter better (Core.runningBest better pre) x = some x := by
    cases hb : Core.runningBest better pre with
    | none => rfl
    | some b => simp [keepBetter, hpre b (mem_of_runningBest hb)]
  rw [Core.runningBest, List.foldl_append, List.foldl_cons]
  change post.foldl _ (keepBetter better (Core.runningBest better pre) x) = _
  rw [hx]
  exact foldl_keepBetter hpost

/-- Nothing is better than the first best element. -/
theorem FirstBest.unbeaten (h : FirstBest better xs x)
    (ha : ∀ x y, better x y = true → better y x = false) (hy : y ∈ xs) : better y x = false := by
  obtain ⟨pre, post, rfl, hpre, hpost⟩ := h
  rcases List.mem_append.1 hy with hy | hy
  · exact ha x y (hpre y hy)
  · rcases List.mem_cons.1 hy with rfl | hy
    · exact Bool.eq_false_iff.2 fun hyy => absurd hyy (Bool.eq_false_iff.1 (ha y y hyy))
    · exact hpost y hy

/-- An element is appended: it is better than the first best one, or that one stays. -/
theorem FirstBest.concat (hs : StrictWeakOn better (xs ++ [y])) (h : FirstBest better xs x) :
    FirstBest better (xs ++ [y]) (if better y x then y else x) := by
  have hx := List.mem_append_left [y] h.mem
  obtain ⟨pre, post, rfl, hpre, hpost⟩ := h
  have hy : y ∈ (pre ++ x :: post) ++ [y] := List.mem_concat_self
  split
  · rename_i hyx
    refine ⟨pre ++ x :: post, [], rfl, fun z hz => ?_, fun z hz => (by cases hz)⟩
    -- `y` is better than `x`; with `z` between them, `z` would be better than `x`
    have hz' := List.mem_append_left [y] hz
    rcases hs.split y hy x hx z hz' hyx with h | h
    · exact h
    · rcases List.mem_append.1 hz with hz | hz
      · have := hs.asymm x hx z hz' (hpre z hz)
        rw [h] at this
        cases this
      · rcases List.mem_cons.1 hz with rfl | hz
        · exact hyx
        · rw [hpost z hz] at h
          cases h
  · rename_i hyx
    refine ⟨pre, post ++ [y], by simp, hpre, fun z hz => ?_⟩
    rcases List.mem_append.1 hz with hz | hz
    · exact hpost z hz
    · rw [List.mem_singleton.1 hz]
      exact Bool.eq_false_iff.2 hyx

/-- **Only the first best element is kept.** -/
theorem firstBest_of_runningBest (hs : StrictWeakOn better xs) (h : runningBest better xs = some x) :
    FirstBest better xs x := by
  induction xs using List.reverseRecOn generalizing x with
  | nil => cases h
  | append_singleton xs y ih =>
    rw [runningBest_concat] at h
    cases hb : runningBest better xs with
    | none =>
      rw [hb] at h
      cases h
      rw [runningBest_eq_none.1 hb]
      exact .of_head fun _ hy => (by cases hy)
    | some b =>
      have := (ih (hs.mono fun z hz => List.mem_append_left _ hz) hb).concat hs
      rw [hb] at h
      unfold keepBetter at h
      dsimp only at h
      split at h
      · rename_i hyb
        rw [if_pos hyb] at this
        cases h
        exact this
      · rename_i hyb
        rw [if_neg hyb] at this
        cases h
        exact this

end Dbsql.Core
