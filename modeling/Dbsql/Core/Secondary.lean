import Dbsql.Core.SortedMap
/-!
# Secondary indices

A map whose keys are computed from the elements of a set is an index of it (`IndexOf`): it has
the key of every element and no other. Different elements are to have different keys; then
each element has exactly one entry, and an element is removed or added with its key.
-/
namespace Dbsql.Core

variable {E K V : Type} [LinearOrder K]

/-- The keys of `m` are those of the elements in `R`, each of which has one. -/
structure IndexOf (key : E → Option K) (R : E → Prop) (m : SortedMap K V) : Prop where
  complete : ∀ e, R e → ∃ k, key e = some k ∧ k ∈ m
  entry : ∀ k ∈ m, ∃ e, R e ∧ key e = some k

namespace IndexOf
variable {key : E → Option K} {R R' : E → Prop} {m : SortedMap K V} {e : E} {k : K}

theorem congr (h : IndexOf key R m) (hr : ∀ e, R' e ↔ R e) : IndexOf key R' m := by
  refine ⟨fun e he => h.complete e ((hr e).1 he), fun k hk => ?_⟩
  obtain ⟨e, he, hke⟩ := h.entry k hk
  exact ⟨e, (hr e).2 he, hke⟩

theorem mem (h : IndexOf key R m) (he : R e) (hk : key e = some k) : k ∈ m := by
  obtain ⟨k', hk', hmem⟩ := h.complete e he
  rw [hk, Option.some.injEq] at hk'
  exact hk' ▸ hmem

/-- An element is removed with its key. -/
theorem erase (h : IndexOf key R m) (hk : key e = some k)
    (hinj : ∀ e', R e' → key e' = some k → e' = e) :
    IndexOf key (fun e' => R e' ∧ e' ≠ e) (m.erase k) := by
  refine ⟨fun e' he' => ?_, fun k' hk' => ?_⟩
  · obtain ⟨k', hk', hmem⟩ := h.complete e' he'.1
    refine ⟨k', hk', SortedMap.mem_erase.2 ⟨hmem, fun heq => he'.2 ?_⟩⟩
    exact hinj e' he'.1 (heq ▸ hk')
  · obtain ⟨hmem, hne⟩ := SortedMap.mem_erase.1 hk'
    obtain ⟨e', he', hke'⟩ := h.entry k' hmem
    refine ⟨e', ⟨he', fun heq => hne ?_⟩, hke'⟩
    rw [heq, hk, Option.some.injEq] at hke'
    exact hke'.symm

/-- An element is added with its key. -/
theorem insert (h : IndexOf key R m) (hk : key e = some k) (v : V) :
    IndexOf key (fun e' => R e' ∨ e' = e) (m.insert k v) := by
  refine ⟨fun e' he' => ?_, fun k' hk' => ?_⟩
  · rcases he' with he' | rfl
    · obtain ⟨k', hk', hmem⟩ := h.complete e' he'
      exact ⟨k', hk', SortedMap.mem_insert.2 (.inr hmem)⟩
    · exact ⟨k, hk, SortedMap.mem_insert.2 (.inl rfl)⟩
  · rcases SortedMap.mem_insert.1 hk' with rfl | hmem
    · exact ⟨e, .inr rfl, hk⟩
    · obtain ⟨e', he', hke'⟩ := h.entry k' hmem
      exact ⟨e', .inl he', hke'⟩

/-- An element takes the place of another that has the same key. -/
theorem replace {e' : E} (h : IndexOf key R m) (he : R e)
    (hk : key e' = key e) : IndexOf key (fun x => (R x ∧ x ≠ e) ∨ x = e') m := by
  refine ⟨fun x hx => ?_, fun k hkm => ?_⟩
  · rcases hx with ⟨hx, -⟩ | rfl
    · exact h.complete x hx
    · exact hk ▸ h.complete e he
  · obtain ⟨x, hx, hkx⟩ := h.entry k hkm
    by_cases hxe : x = e
    · exact ⟨e', .inr rfl, hk.trans (hxe ▸ hkx)⟩
    · exact ⟨x, .inl ⟨hx, hxe⟩, hkx⟩

end IndexOf
end Dbsql.Core
