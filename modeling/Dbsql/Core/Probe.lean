import Dbsql.Core.Brake
import Mathlib.Data.Fintype.Card
/-!
# A search for a free name that starts over

`search` goes through a list with a candidate. Where an element clashes with it, the next candidate
is taken and the search starts over from the first element. No element clashes with two candidates
(`Apart`), so each candidate given up has an element of its own, and the search comes to an end.

Results:
* `tried_le`: as many candidates are given up as there are elements, at most.
* `search_ends`: the search ends, with a candidate that no element clashes with.
-/
namespace Dbsql.Core.Probe
open Dbsql.Core.Brake

variable {α β : Type} (clash : α → β → Bool) (cand : Nat → β) (xs : List α)

/-- The number of the candidate that is left, once the search at element `j` with candidate `cnt`
has come to its end. -/
def search : Nat → Nat → Nat → Option Nat
  | 0, _, _ => none
  | fuel + 1, j, cnt =>
    match xs[j]? with
    | none => some cnt
    | some x => if clash x (cand cnt) then search fuel 0 (cnt + 1) else search fuel (j + 1) cnt

/-- No two candidates clash with the same element. -/
def Apart : Prop := ∀ x k m, clash x (cand k) = true → clash x (cand m) = true → k = m

/-- Each candidate before `cnt` has been given up. -/
def Tried (cnt : Nat) : Prop := ∀ k < cnt, ∃ x ∈ xs, clash x (cand k) = true

/-- None of the first `j` elements clashes with candidate `cnt`. -/
def Passed (j cnt : Nat) : Prop := ∀ x ∈ xs.take j, clash x (cand cnt) = false

/-- How many steps the search may take from here. -/
def stepsLeft (n j cnt : Nat) : Nat := (n - cnt) * (n + 1) + (n - j)

variable {clash cand xs} {j cnt : Nat} {x : α}

theorem Tried.zero (xs : List α) : Tried clash cand xs 0 := fun _ hk => absurd hk (Nat.not_lt_zero _)

theorem Tried.succ (h : Tried clash cand xs cnt) (hx : x ∈ xs) (hc : clash x (cand cnt) = true) :
    Tried clash cand xs (cnt + 1) := by
  intro k hk
  rcases Nat.lt_or_eq_of_le (Nat.le_of_lt_succ hk) with hlt | heq
  · exact h k hlt
  · exact ⟨x, hx, heq ▸ hc⟩

theorem Passed.zero (cnt : Nat) : Passed clash cand xs 0 cnt := by
  simp [Passed]

theorem Passed.succ (h : Passed clash cand xs j cnt) (hx : xs[j]? = some x)
    (hc : clash x (cand cnt) = false) : Passed clash cand xs (j + 1) cnt := by
  intro y hy
  rw [List.take_add_one, hx] at hy
  rcases List.mem_append.1 hy with hy | hy
  · exact h y hy
  · have : y = x := by simpa using hy
    rw [this]
    exact hc

/-- The elements that the candidates clash with are different. -/
theorem tried_le (hapart : Apart clash cand) (h : Tried clash cand xs cnt) : cnt ≤ xs.length := by
  have hex : ∀ k : Fin cnt, ∃ i : Fin xs.length, clash xs[i] (cand k) = true := by
    intro k
    obtain ⟨x, hx, hc⟩ := h k k.isLt
    obtain ⟨i, hi, rfl⟩ := List.mem_iff_getElem.1 hx
    exact ⟨⟨i, hi⟩, hc⟩
  choose f hf using hex
  have hinj : Function.Injective f := by
    intro k m hkm
    apply Fin.ext
    have hm : clash xs[f k] (cand m) = true := by
      simpa only [hkm] using hf m
    exact hapart _ k m (hf k) hm
  simpa using Fintype.card_le_of_injective f hinj

theorem stepsLeft_restart {n : Nat} (hcnt : cnt < n) : stepsLeft n 0 (cnt + 1) < stepsLeft n j cnt := by
  obtain ⟨d, rfl⟩ : ∃ d, n = cnt + 1 + d := ⟨n - (cnt + 1), by omega⟩
  have h₁ : cnt + 1 + d - (cnt + 1) = d := by omega
  have h₂ : cnt + 1 + d - cnt = d + 1 := by omega
  have hmul := Nat.add_one_mul d (cnt + 1 + d + 1)
  rw [stepsLeft, stepsLeft, h₁, h₂]
  omega

theorem stepsLeft_next {n : Nat} (cnt : Nat) (hj : j < n) : stepsLeft n (j + 1) cnt < stepsLeft n j cnt := by
  rw [stepsLeft, stepsLeft]
  omega

/-- **The search ends, and no element clashes with the candidate that is left.** -/
theorem search_ends (hapart : Apart clash cand) (htried : Tried clash cand xs cnt)
    (hpassed : Passed clash cand xs j cnt) :
    Brake.Ends (stepsLeft xs.length j cnt + 1) (fun fuel => search clash cand xs fuel j cnt)
      fun k => k ≤ xs.length ∧ ∀ x ∈ xs, clash x (cand k) = false := by
  -- each restart uses up an element, each other step brings `j` nearer to the end
  induction hn : stepsLeft xs.length j cnt using Nat.strong_induction_on generalizing j cnt with
  | h n ih =>
    subst hn
    apply Ends.succ
    cases hx : xs[j]? with
    | none =>
      have hlen := List.getElem?_eq_none_iff.1 hx
      have hall : ∀ x ∈ xs, clash x (cand cnt) = false := by
        intro x hmem
        apply hpassed
        rwa [List.take_of_length_le hlen]
      simp only [search, hx]
      exact Ends.pure ⟨tried_le hapart htried, hall⟩
    | some x =>
      have hj : j < xs.length := (List.getElem?_eq_some_iff.1 hx).1
      cases hc : clash x (cand cnt) with
      | true =>
        have hmem : x ∈ xs := List.mem_of_getElem? hx
        have htried' := htried.succ hmem hc
        have hlt := stepsLeft_restart (j := j) (tried_le hapart htried')
        simp only [search, hx, hc, if_true]
        exact (ih _ hlt htried' (Passed.zero _) rfl).mono (by omega)
      | false =>
        have hlt := stepsLeft_next cnt hj
        simp only [search, hx, hc, Bool.false_eq_true, if_false]
        exact (ih _ hlt htried (hpassed.succ hx hc) rfl).mono (by omega)

end Dbsql.Core.Probe
