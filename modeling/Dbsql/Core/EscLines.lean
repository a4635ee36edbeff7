import Mathlib.Data.List.Basic
import Mathlib.Data.List.DropRight
/-!
# Lines that an escape continues

A text is cut into lines at its marks. A mark behind an odd number of escapes is part of its line.
The text may be read in pieces, each up to the next mark but of a limited length. A piece that does
not end in an odd number of escapes leaves nothing behind for the next one (`cut_piece`), whatever
its length.
-/
namespace Dbsql.Core.EscLines

variable {α : Type*} [DecidableEq α] (esc mark : α)

/-- Whether what follows `z` stands behind an odd number of escapes; `o` tells it of `z`. -/
@[grind =] def odd (o : Bool) (z : List α) : Bool := z.foldl (fun o c => decide (c = esc) && !o) o

/-- The line up to the first mark that is not part of it, and what follows the mark. -/
@[grind =] def cut : Bool → List α → List α × List α
  | _, [] => ([], [])
  | o, c :: z =>
    if c = mark ∧ o = false then ([], z)
    else (c :: (cut (decide (c = esc) && !o) z).1, (cut (decide (c = esc) && !o) z).2)

/-- The lines of a text behind the part `line` of the first; a mark at the end starts no line. -/
@[grind =] def lines : Bool → List α → List α → List (List α)
  | _, line, [] => if line = [] then [] else [line]
  | o, line, c :: z =>
    if c = mark ∧ o = false then line :: lines false [] z
    else lines (decide (c = esc) && !o) (line ++ [c]) z

/-- What a reader takes at once: at most `k` elements, none behind a mark. -/
@[grind =] def piece : Nat → List α → List α
  | 0, _ => []
  | _ + 1, [] => []
  | k + 1, c :: z => if c = mark then [c] else c :: piece k z

/-- The piece ends its line. -/
def EndsLine (p : List α) : Prop := p.getLast? = some mark ∧ odd esc false p.dropLast = false

instance (p : List α) : Decidable (EndsLine esc mark p) := inferInstanceAs (Decidable (_ ∧ _))

variable {esc mark}

@[simp] theorem odd_nil (o : Bool) : odd esc o [] = o := rfl

@[simp] theorem odd_cons (o : Bool) (c : α) (z : List α) :
    odd esc o (c :: z) = odd esc (decide (c = esc) && !o) z := rfl

@[simp] theorem odd_append (o : Bool) (y z : List α) :
    odd esc o (y ++ z) = odd esc (odd esc o y) z := by
  simp [odd]

/-! ## Lines -/

theorem cut_append {q : List α} (h : mark ∉ q) (o : Bool) (z : List α) :
    cut esc mark o (q ++ z) = (q ++ (cut esc mark (odd esc o q) z).1, (cut esc mark (odd esc o q) z).2) := by
  induction q generalizing o with
  | nil => rfl
  | cons c q ih =>
    have hc : ¬(c = mark ∧ o = false) := fun e => h (e.1 ▸ List.mem_cons_self)
    rw [List.cons_append, cut, if_neg hc, ih (fun e => h (List.mem_cons_of_mem _ e))]
    rfl

theorem cut_mark (z : List α) : cut esc mark false (mark :: z) = ([], z) := by simp [cut]

theorem cut_length (o : Bool) (z : List α) (hz : z ≠ []) : (cut esc mark o z).2.length < z.length := by
  induction z generalizing o with
  | nil => exact absurd rfl hz
  | cons c z ih =>
    rw [cut]
    split
    · simp
    · rcases z with _ | ⟨d, z⟩
      · simp [cut]
      · exact Nat.lt_succ_of_lt (ih _ (by simp))

/-- The first line is what `cut` finds. -/
theorem lines_eq (o : Bool) (line z : List α) (h : line ≠ [] ∨ z ≠ []) :
    lines esc mark o line z =
      (line ++ (cut esc mark o z).1) :: lines esc mark false [] (cut esc mark o z).2 := by
  induction z generalizing o line with
  | nil => simpa [lines, cut] using h
  | cons c z ih =>
    rw [lines, cut]
    split
    · simp
    · rw [ih _ _ (.inl (by simp))]
      simp

/-! ## Pieces -/

theorem piece_append_drop (mark : α) (k : Nat) (z : List α) : piece mark k z ++ z.drop (piece mark k z).length = z := by
  induction z generalizing k with
  | nil => cases k <;> rfl
  | cons c z ih =>
    cases k with
    | zero => rfl
    | succ k =>
      rw [piece]
      split
      · rfl
      · simpa using ih k

theorem piece_length (mark : α) (k : Nat) (z : List α) : (piece mark k z).length ≤ k := by
  induction z generalizing k with
  | nil => cases k <;> simp [piece]
  | cons c z ih =>
    cases k with
    | zero => simp [piece]
    | succ k =>
      rw [piece]
      split
      · simp
      · simpa using ih k

theorem piece_eq_nil {k : Nat} {z : List α} (hk : 0 < k) (h : piece mark k z = []) : z = [] := by
  obtain ⟨k, rfl⟩ := Nat.exists_eq_add_of_lt hk
  cases z with
  | nil => rfl
  | cons c z =>
    rw [Nat.zero_add, piece] at h
    split at h <;> simp at h

/-- A piece has no mark, or one at its end. -/
theorem piece_cases (mark : α) (k : Nat) (z : List α) :
    mark ∉ piece mark k z ∨ ∃ q, piece mark k z = q ++ [mark] ∧ mark ∉ q := by
  induction z generalizing k with
  | nil => cases k <;> simp [piece]
  | cons c z ih =>
    cases k with
    | zero => simp [piece]
    | succ k =>
      rw [piece]
      split
      · next hc => exact .inr ⟨[], by simp [hc], by simp⟩
      · next hc =>
        rcases ih k with h | ⟨q, hq, hm⟩
        · exact .inl (by simpa [Ne.symm hc] using h)
        · exact .inr ⟨c :: q, by simp [hq], by simpa [Ne.symm hc] using hm⟩

theorem piece_append {q : List α} (h : mark ∉ q) {k : Nat} (hk : q.length ≤ k) (z : List α) :
    piece mark k (q ++ z) = q ++ piece mark (k - q.length) z := by
  induction q generalizing k with
  | nil => rfl
  | cons c q ih =>
    have hc : c ≠ mark := fun e => h (e ▸ List.mem_cons_self)
    cases k with
    | zero => simp at hk
    | succ k =>
      rw [List.cons_append, piece, if_neg hc, ih (fun e => h (List.mem_cons_of_mem _ e)) (by simpa using hk)]
      simp

theorem piece_append_of_lt {q : List α} (h : mark ∉ q) {k : Nat} (hk : k ≤ q.length) (z : List α) :
    piece mark k (q ++ z) = q.take k := by
  induction q generalizing k with
  | nil => simp_all [piece]
  | cons c q ih =>
    have hc : c ≠ mark := fun e => h (e ▸ List.mem_cons_self)
    cases k with
    | zero => rfl
    | succ k =>
      rw [List.cons_append, piece, if_neg hc, ih (fun e => h (List.mem_cons_of_mem _ e)) (by simpa using hk)]
      rfl

theorem mem_cut_of_mem_piece {c : α} (hc : c ≠ mark) {k : Nat} {z : List α} (h : c ∈ piece mark k z)
    (o : Bool) : c ∈ (cut esc mark o z).1 := by
  induction z generalizing k o with
  | nil => cases k <;> simp [piece] at h
  | cons d z ih =>
    cases k with
    | zero => simp [piece] at h
    | succ k =>
      rw [piece] at h
      split at h
      · next hd => exact absurd ((List.mem_singleton.1 h).trans hd) hc
      · next hd =>
        rw [cut, if_neg (by simp [hd])]
        rcases List.mem_cons.1 h with rfl | h
        · exact List.mem_cons_self
        · exact List.mem_cons_of_mem _ (ih h _)

theorem endsLine_append_mark (q : List α) : EndsLine esc mark (q ++ [mark]) ↔ odd esc false q = false := by
  simp [EndsLine]

theorem not_endsLine {p : List α} (h : mark ∉ p) : ¬EndsLine esc mark p :=
  fun e => h (List.mem_of_getLast? e.1)

/-- A piece that ends the line. -/
theorem cut_piece_end {k : Nat} {z : List α} (h : EndsLine esc mark (piece mark k z)) :
    cut esc mark false z = ((piece mark k z).dropLast, z.drop (piece mark k z).length) := by
  rcases piece_cases mark k z with hm | ⟨q, hq, hm⟩
  · exact absurd h (not_endsLine hm)
  · rw [hq, endsLine_append_mark] at h
    conv_lhs => rw [← piece_append_drop mark k z, hq, List.append_assoc, cut_append hm, h]
    simp [cut_mark, hq]

/-- A piece that does not end the line. -/
theorem cut_piece (hne : esc ≠ mark) {k : Nat} {z : List α} (h : ¬EndsLine esc mark (piece mark k z)) :
    cut esc mark false z =
      (piece mark k z ++ (cut esc mark (odd esc false (piece mark k z)) (z.drop (piece mark k z).length)).1,
        (cut esc mark (odd esc false (piece mark k z)) (z.drop (piece mark k z).length)).2) := by
  conv_lhs => rw [← piece_append_drop mark k z]
  rcases piece_cases mark k z with hm | ⟨q, hq, hm⟩
  · exact cut_append hm _ _
  · rw [hq, endsLine_append_mark, Bool.not_eq_false] at h
    rw [hq, List.append_assoc, cut_append hm, h]
    simp [cut, h, hne.symm]

end Dbsql.Core.EscLines
