import Mathlib.Tactic.Common
/-!
# Computations that allocate

`Alloc α` takes addresses one after the other and may fault. `Makes m c Q`: started with nothing
but addresses from `m` on to take, `c` ends with a result in `Q`. `Yields c a`: some run ends with `a`.
`Ends c`: it does not always fault.
-/
namespace Dbsql.Core

variable {α β : Type}

/-- From the first address that is free to the result and the next one; `none` is a fault. -/
def Alloc (α : Type) : Type := Nat → Option (α × Nat)

namespace Alloc

instance : Monad Alloc where
  pure a := fun n => some (a, n)
  bind c f := fun n => (c n).bind fun r => f r.1 r.2

/-- A new block. -/
def new : Alloc Nat := fun n => some (n, n + 1)

def fault : Alloc α := fun _ => none

def Makes (m : Nat) (c : Alloc α) (Q : α → Prop) : Prop :=
  ∀ n, m ≤ n → ∃ a n', c n = some (a, n') ∧ m ≤ n' ∧ Q a

def Yields (c : Alloc α) (a : α) : Prop := ∃ n n', c n = some (a, n')

def Ends (c : Alloc α) : Prop := ∃ a, Yields c a

variable {m : Nat} {c : Alloc α} {f : α → Alloc β} {P : α → Prop} {Q : β → Prop} {a a' : α} {b : β}

theorem Makes.pure (h : Q b) : Makes m (pure b) Q := fun n hn => ⟨b, n, rfl, hn, h⟩

theorem Makes.bind (hc : Makes m c P) (hf : ∀ a, P a → Makes m (f a) Q) : Makes m (c >>= f) Q := by
  intro n hn
  obtain ⟨a, n₁, h₁, hn₁, ha⟩ := hc n hn
  obtain ⟨b, n₂, h₂, hn₂, hb⟩ := hf a ha n₁ hn₁
  refine ⟨b, n₂, ?_, hn₂, hb⟩
  show (c n).bind _ = _
  rw [h₁]
  exact h₂

theorem Makes.mono {P' : α → Prop} (hc : Makes m c P) (h : ∀ a, P a → P' a) : Makes m c P' :=
  fun n hn =>
    let ⟨a, n', hrun, hn', ha⟩ := hc n hn
    ⟨a, n', hrun, hn', h a ha⟩

theorem makes_new : Makes m new (m ≤ ·) :=
  fun n hn => ⟨n, n + 1, rfl, Nat.le_succ_of_le hn, hn⟩

theorem Yields.of_bind (h : Yields (c >>= f) b) : ∃ a, Yields c a ∧ Yields (f a) b := by
  obtain ⟨n, n', h⟩ := h
  obtain ⟨⟨a, n₁⟩, hc, hf⟩ := Option.bind_eq_some_iff.1 h
  exact ⟨a, ⟨n, n₁, hc⟩, n₁, n', hf⟩

theorem Yields.of_pure (h : Yields (Pure.pure a : Alloc α) a') : a' = a := by
  obtain ⟨n, n', h⟩ := h
  exact (Prod.mk.inj (Option.some.inj h)).1.symm

theorem Ends.of_bind (h : Ends (c >>= f)) : Ends c ∧ ∃ a, Yields c a ∧ Ends (f a) := by
  obtain ⟨b, h⟩ := h
  obtain ⟨a, hc, hf⟩ := h.of_bind
  exact ⟨⟨a, hc⟩, a, hc, b, hf⟩

theorem not_ends_fault : ¬ Ends (fault : Alloc α) := nofun

end Alloc
end Dbsql.Core
