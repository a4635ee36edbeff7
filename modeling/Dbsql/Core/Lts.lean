import Mathlib.Tactic.Common
/-!
# Labelled transition systems

`LTS S L` is a set of initial states and a labelled step relation; `Run` is a
finite sequence of steps and `Reachable` a state some run ends in. An invariant
is proved once for the initial states and once for a step (`Inductive`) and then
holds of every reachable state (`Inductive.reachable`). `restrict` keeps the
steps that meet a side condition on the state they start in.
-/
namespace Dbsql.Core

structure LTS (S L : Type) where
  init : S → Prop
  step : S → L → S → Prop

namespace LTS
variable {S L : Type} {T : LTS S L}

inductive Run (T : LTS S L) : S → List L → S → Prop
  | nil (s : S) : Run T s [] s
  | cons {s s' s'' : S} {l : L} {ls : List L} : T.step s l s' → Run T s' ls s'' → Run T s (l :: ls) s''

def Reachable (T : LTS S L) (s : S) : Prop := ∃ s₀ ls, T.init s₀ ∧ T.Run s₀ ls s

/-- The runs all of whose steps meet `ok`. -/
def restrict (T : LTS S L) (ok : S → L → Prop) : LTS S L where
  init := T.init
  step s l s' := ok s l ∧ T.step s l s'

structure Inductive (T : LTS S L) (Q : S → Prop) : Prop where
  init : ∀ s, T.init s → Q s
  step : ∀ s l s', Q s → T.step s l s' → Q s'

/-- What every step preserves holds at the end of a run. -/
theorem Run.preserves {Q : S → Prop} (hstep : ∀ s l s', Q s → T.step s l s' → Q s') {s s' : S}
    {ls : List L} (hr : T.Run s ls s') (hs : Q s) : Q s' := by
  induction hr with
  | nil => exact hs
  | cons hst _ ih => exact ih (hstep _ _ _ hs hst)

theorem Inductive.reachable {Q : S → Prop} (h : T.Inductive Q) {s : S} (hr : T.Reachable s) : Q s := by
  obtain ⟨s₀, ls, hi, hrun⟩ := hr
  exact hrun.preserves h.step (h.init s₀ hi)

/-- A run of a system whose steps another system can follow is a run of that one. -/
theorem Run.simulates {S' : Type} {U : LTS S' L} {R : S → S' → Prop}
    (hstep : ∀ s l s' u, R s u → T.step s l s' → ∃ u', U.step u l u' ∧ R s' u') {s s' : S} {ls : List L}
    (hr : T.Run s ls s') {u : S'} (h : R s u) : ∃ u', U.Run u ls u' ∧ R s' u' := by
  induction hr generalizing u with
  | nil s => exact ⟨u, .nil u, h⟩
  | cons hst _ ih =>
    obtain ⟨u', hu, h'⟩ := hstep _ _ _ u h hst
    obtain ⟨u'', hrun, h''⟩ := ih h'
    exact ⟨u'', .cons hu hrun, h''⟩

theorem Run.append {s s' s'' : S} {ls ls' : List L} (h : T.Run s ls s') (h' : T.Run s' ls' s'') :
    T.Run s (ls ++ ls') s'' := by
  induction h with
  | nil => exact h'
  | cons hst _ ih => exact .cons hst (ih h')

theorem Run.split {s s'' : S} {ls ls' : List L} (h : T.Run s (ls ++ ls') s'') :
    ∃ s', T.Run s ls s' ∧ T.Run s' ls' s'' := by
  induction ls generalizing s with
  | nil => exact ⟨s, .nil s, h⟩
  | cons l ls ih =>
    obtain _ | ⟨hst, hrest⟩ := h
    obtain ⟨s', hrun, hrun'⟩ := ih hrest
    exact ⟨s', .cons hst hrun, hrun'⟩

theorem Run.of_restrict {ok : S → L → Prop} {s s' : S} {ls : List L}
    (h : (T.restrict ok).Run s ls s') : T.Run s ls s' := by
  induction h with
  | nil s => exact .nil s
  | cons hst _ ih => exact .cons hst.2 ih

theorem Reachable.run {s s' : S} {ls : List L} (hr : T.Reachable s) (h : T.Run s ls s') :
    T.Reachable s' := by
  obtain ⟨s₀, ls₀, hi, hrun⟩ := hr
  exact ⟨s₀, ls₀ ++ ls, hi, hrun.append h⟩

theorem Reachable.step {s s' : S} {l : L} (hr : T.Reachable s) (h : T.step s l s') : T.Reachable s' :=
  hr.run (.cons h (.nil _))

theorem Reachable.init {s : S} (h : T.init s) : T.Reachable s := ⟨s, [], h, .nil s⟩

end LTS
end Dbsql.Core
