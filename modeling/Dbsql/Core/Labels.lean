import Mathlib.Tactic.Common
/-!
# Labels

A program under construction has labels for addresses that are not known yet. The label of number `i`
is the target `-1 - i`; it stands for the address that it is resolved to. A program can keep its
targets translated as it grows: it translates the targets of each new instruction, and patches the
old ones when a label is resolved.

Results:
* `look_resolve`: patching the targets of one label translates by the labels with that one resolved.
-/
namespace Dbsql.Core.Labels

/-- The addresses of the labels that have been resolved. -/
abbrev Addrs := List (Option Nat)

/-- The number of a label. -/
def num (x : Int) : Nat := (-1 - x).toNat

/-- The label of number `i`. -/
def label (i : Nat) : Int := -1 - i

/-- A target by the labels that have been resolved. -/
def look (addr : Addrs) (x : Int) : Int :=
  if x < 0 then
    match addr[num x]? with
    | some (some a) => a
    | _ => x
  else x

/-- A target with label `x` put to `a`. -/
def patch (x : Int) (a : Nat) (y : Int) : Int := if y = x then a else y

theorem num_inj {x y : Int} (hx : x < 0) (hy : y < 0) : num x = num y ↔ x = y := by
  unfold num
  omega

@[simp] theorem look_nil (x : Int) : look [] x = x := by simp [look]

theorem look_of_nonneg {x : Int} (h : 0 ≤ x) (addr : Addrs) : look addr x = x := by
  rw [look, if_neg (by omega)]

theorem look_of_some {addr : Addrs} {x : Int} {a : Nat} (hx : x < 0) (h : addr[num x]? = some (some a)) :
    look addr x = a := by
  rw [look, if_pos hx, h]

/-- A label without an address stands for itself. -/
theorem look_of_none {addr : Addrs} {x : Int} (h : ∀ a, addr[num x]? ≠ some (some a)) :
    look addr x = x := by
  unfold look
  split
  · split
    · next a ha => exact absurd ha (h a)
    · rfl
  · rfl

/-- A target that is still a label is one that has no address. -/
theorem look_neg {addr : Addrs} {x : Int} (h : look addr x < 0) : look addr x = x := by
  unfold look at h ⊢
  split
  · rename_i hx
    rw [if_pos hx] at h
    split
    · next a ha =>
      rw [ha] at h
      dsimp only at h
      omega
    · rfl
  · rfl

/-- A new label changes no target. -/
theorem look_fresh (addr : Addrs) (x : Int) : look (addr ++ [none]) x = look addr x := by
  by_cases h : ∃ a, addr[num x]? = some (some a)
  · obtain ⟨a, ha⟩ := h
    have hlt : num x < addr.length := (List.getElem?_eq_some_iff.1 ha).1
    unfold look
    rw [List.getElem?_append_left hlt]
  · rw [not_exists] at h
    rw [look_of_none h, look_of_none fun a ha => ?_]
    rcases Nat.lt_or_ge (num x) addr.length with hlt | hge
    · rw [List.getElem?_append_left hlt] at ha
      exact h a ha
    · rw [List.getElem?_append_right hge, List.getElem?_singleton] at ha
      split at ha <;> cases ha

/-- Patching the targets of a label that has no address translates by the labels with that address. -/
theorem look_resolve {addr : Addrs} {x : Int} (a : Nat) (hx : x < 0) (h : addr[num x]? = some none)
    (y : Int) : patch x a (look addr y) = look (addr.set (num x) (some a)) y := by
  have hlt : num x < addr.length := (List.getElem?_eq_some_iff.1 h).1
  by_cases hyx : y = x
  · subst hyx
    rw [look_of_none (by simp [h]), patch, if_pos rfl,
      look_of_some hx (by rw [List.getElem?_set_self hlt])]
  · have hset : look (addr.set (num x) (some a)) y = look addr y := by
      unfold look
      split
      · rename_i hy
        rw [List.getElem?_set_ne fun e => hyx ((num_inj hx hy).1 e).symm]
      · rfl
    have hne : look addr y ≠ x := by
      intro e
      have := @look_neg addr y (by omega)
      omega
    rw [hset, patch, if_neg hne]

end Dbsql.Core.Labels
