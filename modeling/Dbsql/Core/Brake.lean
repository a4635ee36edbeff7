import Mathlib.Data.Finset.Card
import Mathlib.Tactic.Common
/-!
# Recursion that a stack brakes

A recursion over finitely many items that pushes an item on a stack before it goes down, and does
not push one that is there. What is left to push (`left`) falls at each push.

The recursion is a function of a fuel. It comes to an end when every fuel from some bound on gives
one result (`Ends`).
-/
namespace Dbsql.Core.Brake

/-! ## Fuel -/

variable {α β : Type}

/-- Any fuel from `n` on gives the same result, which has the property. -/
def Ends (n : Nat) (f : Nat → Option α) (Q : α → Prop) : Prop :=
  ∃ a, (∀ m, n ≤ m → f m = some a) ∧ Q a

namespace Ends
variable {n k : Nat} {f : Nat → Option α} {Q R : α → Prop}

theorem pure {a : α} (h : Q a) : Ends n (fun _ => some a) Q := ⟨a, fun _ _ => rfl, h⟩

theorem mono (h : Ends n f Q) (hle : n ≤ k) : Ends k f Q := by
  obtain ⟨a, hf, hq⟩ := h
  exact ⟨a, fun m hm => hf m (hle.trans hm), hq⟩

theorem imp (h : Ends n f Q) (hqr : ∀ a, Q a → R a) : Ends n f R := by
  obtain ⟨a, hf, hq⟩ := h
  exact ⟨a, hf, hqr a hq⟩

theorem bind {g : Nat → α → Option β} {S : β → Prop} (h : Ends n f Q) (hg : ∀ a, Q a → Ends n (g · a) S) :
    Ends n (fun m => (f m).bind (g m)) S := by
  obtain ⟨a, hf, hq⟩ := h
  obtain ⟨b, hb, hs⟩ := hg a hq
  refine ⟨b, fun m hm => ?_, hs⟩
  show (f m).bind (g m) = some b
  rw [hf m hm]
  exact hb m hm

theorem map {g : α → β} {S : β → Prop} (h : Ends n f Q) (hg : ∀ a, Q a → S (g a)) :
    Ends n (fun m => (f m).map g) S := by
  obtain ⟨a, hf, hq⟩ := h
  refine ⟨g a, fun m hm => ?_, hg a hq⟩
  show (f m).map g = some (g a)
  rw [hf m hm, Option.map_some]

/-- One call deeper. -/
theorem succ (h : Ends n (fun m => f (m + 1)) Q) : Ends (n + 1) f Q := by
  obtain ⟨a, hf, hq⟩ := h
  refine ⟨a, fun m hm => ?_, hq⟩
  obtain ⟨m, rfl⟩ : ∃ m', m = m' + 1 := ⟨m - 1, by omega⟩
  exact hf m (by omega)

end Ends

/-! ## What is left to push -/

section
variable [DecidableEq α] {all : Finset α} {stack : List α} {a : α}

def left (all : Finset α) (stack : List α) : Nat := (all.filter (· ∉ stack)).card

theorem left_le_card (all : Finset α) (stack : List α) : left all stack ≤ all.card :=
  Finset.card_filter_le _ _

theorem left_push_lt (ha : a ∈ all) (hnew : a ∉ stack) : left all (a :: stack) < left all stack := by
  apply Finset.card_lt_card
  rw [Finset.ssubset_iff_of_subset]
  · exact ⟨a, by simp [ha, hnew], by simp⟩
  · intro b hb
    simp only [Finset.mem_filter, List.mem_cons, not_or] at hb ⊢
    exact ⟨hb.1, hb.2.2⟩

end

end Dbsql.Core.Brake
