import Mathlib.Data.List.Basic
/-!
# A reader whose rows are consumed as they come

A reader goes step by step over a store, and now and then yields a row. What is done with the row
may change the store, and the reader goes on with the changed one. Then it yields what it would
have yielded on the first store, if it does not see the changes; and it does so, whatever it sees,
if the rows are only put aside.
-/
namespace Dbsql.Core.Reader

variable {δ σ ρ : Type}

/-- One step of a reader. -/
inductive Next (σ ρ : Type)
  | done
  | go (s : σ)
  | row (r : ρ) (s : σ)

section
variable (next : δ → σ → Next σ ρ)

/-- A run to the end: the rows, and the store after they have been consumed. -/
inductive Yields (consume : δ → ρ → δ) : δ → σ → List ρ → δ → Prop
  | done {d : δ} {s : σ} (h : next d s = .done) : Yields consume d s [] d
  | go {d d' : δ} {s s' : σ} {rs : List ρ} (h : next d s = .go s')
      (t : Yields consume d s' rs d') : Yields consume d s rs d'
  | row {d d' : δ} {s s' : σ} {r : ρ} {rs : List ρ} (h : next d s = .row r s')
      (t : Yields consume (consume d r) s' rs d') : Yields consume d s (r :: rs) d'

/-- The rows on a store that stays. -/
def Rows (d : δ) (s : σ) (rs : List ρ) : Prop := Yields next (fun d _ => d) d s rs d

/-- The rows are put aside. -/
def aside : δ × List ρ → ρ → δ × List ρ := fun p r => (p.1, p.2 ++ [r])

end

variable {next : δ → σ → Next σ ρ} {consume : δ → ρ → δ} {d d' d₀ : δ} {s : σ} {rs : List ρ}

/-- **A reader that does not see the changes** yields the rows of the first store. -/
theorem Yields.rows (Same : δ → δ → Prop) (hread : ∀ d s, Same d₀ d → next d s = next d₀ s)
    (hkeep : ∀ d r, Same d₀ d → Same d₀ (consume d r)) (hd : Same d₀ d)
    (h : Yields next consume d s rs d') : Rows next d₀ s rs := by
  induction h with
  | done hn => exact .done ((hread _ _ hd).symm.trans hn)
  | go hn _ ih => exact .go ((hread _ _ hd).symm.trans hn) (ih hd)
  | row hn _ ih => exact .row ((hread _ _ hd).symm.trans hn) (ih (hkeep _ _ hd))

/-- **Rows that are put aside** are those of the store, one behind the other. -/
theorem yields_aside {p p' : δ × List ρ}
    (h : Yields (fun p s => next p.1 s) aside p s rs p') :
    Rows next p.1 s rs ∧ p' = (p.1, p.2 ++ rs) := by
  induction h with
  | done hn => exact ⟨.done hn, by rw [List.append_nil]⟩
  | go hn _ ih => exact ⟨.go hn ih.1, ih.2⟩
  | row hn _ ih =>
    refine ⟨.row hn ih.1, ?_⟩
    rw [ih.2, aside, List.append_assoc]
    rfl

end Dbsql.Core.Reader
