import Mathlib.Data.List.Nodup
import Mathlib.Logic.Function.Basic
import Mathlib.Tactic.Common
/-!
# Chains of pointers

A link for each live node: `next q` is `none` for an address where no node is. `Chain next p qs`
says that the links lead from the pointer `p` over the nodes `qs` to a null pointer.

Results:
* `Chain.unique`, `Chain.nodup`: a pointer has one chain, and no node is on it twice.
* `Chain.congr`: other nodes do not matter.
* `Chain.skip`, `Chain.insert`: a node passed over by the one before it, or put behind it.
-/
namespace Dbsql.Core

/-- The nodes from a pointer on. -/
def Chain (next : Nat → Option (Option Nat)) : Option Nat → List Nat → Prop
  | p, [] => p = none
  | p, q :: qs => p = some q ∧ ∃ r, next q = some r ∧ Chain next r qs

namespace Chain
variable {next next' : Nat → Option (Option Nat)}

theorem live {qs : List Nat} : ∀ {p : Option Nat}, Chain next p qs → ∀ q ∈ qs, ∃ r, next q = some r := by
  induction qs with
  | nil =>
    intro p _ q hq
    cases hq
  | cons x qs ih =>
    rintro p ⟨-, r, hr, h⟩ q hq
    rcases List.mem_cons.1 hq with rfl | hq
    · exact ⟨r, hr⟩
    · exact ih h q hq

theorem congr {qs : List Nat} (heq : ∀ q ∈ qs, next' q = next q) :
    ∀ {p : Option Nat}, Chain next p qs → Chain next' p qs := by
  induction qs with
  | nil => exact fun h => h
  | cons x qs ih =>
    rintro p ⟨hp, r, hr, h⟩
    refine ⟨hp, r, (heq x (List.mem_cons_self ..)).trans hr, ?_⟩
    exact ih (fun q hq => heq q (List.mem_cons_of_mem x hq)) h

theorem unique {qs : List Nat} : ∀ {p : Option Nat} {qs' : List Nat}, Chain next p qs →
    Chain next p qs' → qs = qs' := by
  induction qs with
  | nil =>
    rintro p qs' rfl h'
    cases qs' with
    | nil => rfl
    | cons q qs' => cases h'.1
  | cons x qs ih =>
    rintro p qs' ⟨rfl, r, hr, h⟩ h'
    cases qs' with
    | nil => cases h'
    | cons q qs' =>
      obtain ⟨hq, r', hr', h'⟩ := h'
      obtain rfl := Option.some.inj hq
      obtain rfl := Option.some.inj (hr.symm.trans hr')
      rw [ih h h']

/-- What comes after a node of the chain. -/
theorem rest {as bs : List Nat} {q : Nat} : ∀ {p : Option Nat}, Chain next p (as ++ q :: bs) →
    ∃ r, next q = some r ∧ Chain next r bs := by
  induction as with
  | nil => exact fun h => h.2
  | cons a as ih =>
    rintro p ⟨-, r, -, h⟩
    exact ih h

theorem nodup {qs : List Nat} : ∀ {p : Option Nat}, Chain next p qs → qs.Nodup := by
  induction qs with
  | nil => exact fun _ => List.nodup_nil
  | cons x qs ih =>
    rintro p ⟨-, r, hr, h⟩
    refine List.nodup_cons.2 ⟨fun hmem => ?_, ih h⟩
    -- from a second `x` on the chain would be as long as from the first
    obtain ⟨as, bs, rfl⟩ := List.append_of_mem hmem
    obtain ⟨r', hr', h'⟩ := h.rest
    obtain rfl := Option.some.inj (hr.symm.trans hr')
    have hlen := congrArg List.length (h.unique h')
    simp only [List.length_append, List.length_cons] at hlen
    omega

/-- The link of `a` now passes over `b`. -/
theorem skip {as bs : List Nat} {a b : Nat} {r : Option Nat} (hb : next b = some r) :
    ∀ {p : Option Nat}, Chain next p (as ++ a :: b :: bs) →
      Chain (Function.update next a (some r)) p (as ++ a :: bs) := by
  induction as with
  | nil =>
    intro p h
    have hnd := h.nodup
    obtain ⟨hp, ra, -, -, rb, hrb, h⟩ := h
    obtain rfl := Option.some.inj (hb.symm.trans hrb)
    refine ⟨hp, r, Function.update_self a (some r) next, h.congr fun q hq => ?_⟩
    have hne : q ≠ a := by
      rintro rfl
      exact (List.nodup_cons.1 hnd).1 (List.mem_cons_of_mem b hq)
    exact Function.update_of_ne hne (some r) next
  | cons x as ih =>
    intro p h
    have hnd := h.nodup
    obtain ⟨hp, rx, hrx, h⟩ := h
    have hne : x ≠ a := by
      rintro rfl
      exact (List.nodup_cons.1 hnd).1 (List.mem_append_right _ (List.mem_cons_self ..))
    exact ⟨hp, rx, (Function.update_of_ne hne (some r) next).trans hrx, ih h⟩

/-- The link of `a` now leads over `q` to where it led. -/
theorem insert {as bs : List Nat} {a q : Nat} {r : Option Nat} (ha : next a = some r)
    (ha' : next' a = some (some q)) (hq : next' q = some r) :
    ∀ {p : Option Nat}, (∀ x ∈ as ++ a :: bs, x ≠ a → next' x = next x) → Chain next p (as ++ a :: bs) →
      Chain next' p (as ++ a :: q :: bs) := by
  induction as with
  | nil =>
    intro p heq h
    have hnd := h.nodup
    obtain ⟨hp, r', hr', hbs⟩ := h
    obtain rfl := Option.some.inj (ha.symm.trans hr')
    refine ⟨hp, some q, ha', rfl, r, hq, hbs.congr fun x hx => ?_⟩
    have hne : x ≠ a := fun h => (List.nodup_cons.1 hnd).1 (h ▸ hx)
    exact heq x (List.mem_cons_of_mem a hx) hne
  | cons x as ih =>
    intro p heq h
    have hnd := h.nodup
    obtain ⟨hp, rx, hrx, hrest⟩ := h
    have hne : x ≠ a := by
      intro hxa
      exact (List.nodup_cons.1 hnd).1 (hxa ▸ List.mem_append_right _ (List.mem_cons_self ..))
    refine ⟨hp, rx, ?_, ih (fun y hy => heq y (List.mem_cons_of_mem x hy)) hrest⟩
    rw [heq x (List.mem_cons_self ..) hne, hrx]

end Chain
end Dbsql.Core
