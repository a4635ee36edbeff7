import Mathlib.Data.List.Basic
import Mathlib.Tactic.Common
/-!
# Comparing by several keys

`byKeys ks` compares by the first of the keys `ks` that tells two elements apart. A list that is
sorted by some keys is sorted by the first of them, and where the elements tie on a key it does not
matter.
-/
namespace Dbsql.Core.Keys

variable {α : Type}

def byKeys : List (α → α → Ordering) → α → α → Ordering
  | [], _, _ => .eq
  | k :: ks, a, b => (k a b).then (byKeys ks a b)

def Sorted (ks : List (α → α → Ordering)) (l : List α) : Prop := l.Pairwise fun a b => (byKeys ks a b).isLE

theorem byKeys_append (ks ks' : List (α → α → Ordering)) (a b : α) :
    byKeys (ks ++ ks') a b = (byKeys ks a b).then (byKeys ks' a b) := by
  induction ks with
  | nil => rfl
  | cons k ks ih => rw [List.cons_append, byKeys, byKeys, ih, Ordering.then_assoc]

theorem byKeys_tied {ks : List (α → α → Ordering)} {a b : α} (h : ∀ k ∈ ks, k a b = .eq) : byKeys ks a b = .eq := by
  induction ks with
  | nil => rfl
  | cons k ks ih =>
    rw [List.forall_mem_cons] at h
    rw [byKeys, h.1, ih h.2]
    rfl

/-- Keys that tie can be put before the others, or left out. -/
theorem byKeys_tied_append {ks : List (α → α → Ordering)} {a b : α} (h : ∀ k ∈ ks, k a b = .eq)
    (ks' : List (α → α → Ordering)) : byKeys (ks ++ ks') a b = byKeys ks' a b := by
  rw [byKeys_append, byKeys_tied h]
  rfl

theorem byKeys_isLE_of_append {ks ks' : List (α → α → Ordering)} {a b : α} (h : (byKeys (ks ++ ks') a b).isLE) :
    (byKeys ks a b).isLE := by
  rw [byKeys_append] at h
  cases hk : byKeys ks a b with
  | gt =>
    rw [hk] at h
    exact h
  | lt | eq => rfl

theorem byKeys_congr {ks ks' : List (α → α → Ordering)} {a b a' b' : α}
    (h : List.Forall₂ (fun k k' => k a b = k' a' b') ks ks') : byKeys ks a b = byKeys ks' a' b' := by
  induction h with
  | nil => rfl
  | cons hk _ ih => rw [byKeys, byKeys, hk, ih]

end Dbsql.Core.Keys
