import Mathlib.Tactic.Common
import Mathlib.Data.List.Induction
/-!
# Passes until nothing changes

`doWhile` repeats a pass as long as it reports progress, at most so many times. A pass over the
elements of a list is a fold whose steps change nothing or report progress (`Advances`). When a
measure grows with every change and is bounded, the loop ends in a state that no step changes.

Results:
* `doWhile_stable`: with more rounds than the measure can grow, the last pass reported nothing.
* `pass_still`, `pass_grows`: a pass without progress changed nothing; one with progress grew.
* `saturate_stable`: the end of the loop is a state that every element leaves as it is.
-/
namespace Dbsql.Core.Saturate

variable {S A : Type*}

/-- `do { progress = 0; … } while( progress )`. -/
def doWhile (pass : S → S × Bool) : Nat → S → S
  | 0, s => s
  | n + 1, s => if (pass s).2 = true then doWhile pass n (pass s).1 else (pass s).1

/-- One pass over the elements of a list. -/
def pass (f : S × Bool → A → S × Bool) (l : List A) (s : S) : S × Bool := l.foldl f (s, false)

def saturate (f : S × Bool → A → S × Bool) (l : List A) (n : Nat) (s : S) : S := doWhile (pass f l) n s

/-- **With enough rounds the loop ends by itself.** -/
theorem doWhile_stable {P : S → Prop} {pass : S → S × Bool} {m : S → Nat} {b n : Nat} {s : S}
    (hP : ∀ s, P s → P (pass s).1) (hm : ∀ s, P s → m s ≤ b)
    (hgrow : ∀ s, P s → (pass s).2 = true → m s < m (pass s).1) (hs : P s) (hn : b < m s + n) :
    ∃ s', P s' ∧ (pass s').2 = false ∧ doWhile pass n s = (pass s').1 := by
  induction n generalizing s with
  | zero =>
    have hle := hm s hs
    omega
  | succ n ih =>
    unfold doWhile
    by_cases h : (pass s).2 = true
    · have hlt := hgrow s hs h
      rw [if_pos h]
      exact ih (hP s hs) (by omega)
    · rw [if_neg h]
      exact ⟨s, hs, by simpa using h, rfl⟩

/-- A step changes nothing, or the measure grows and progress is reported. -/
def Advances (P : S → Prop) (m : S → Nat) (f : S × Bool → A → S × Bool) (l : List A) : Prop :=
  ∀ a ∈ l, ∀ s, P s → ∀ b,
    f (s, b) a = (s, b) ∨ (P (f (s, b) a).1 ∧ (f (s, b) a).2 = true ∧ m s < m (f (s, b) a).1)

variable {P : S → Prop} {m : S → Nat} {f : S × Bool → A → S × Bool} {l l' : List A} {s : S}

theorem Advances.foldl (h : Advances P m f l) (hs : P s) (b : Bool) :
    (l.foldl f (s, b) = (s, b) ∧ ∀ a ∈ l, f (s, b) a = (s, b)) ∨
      (P (l.foldl f (s, b)).1 ∧ (l.foldl f (s, b)).2 = true ∧ m s < m (l.foldl f (s, b)).1) := by
  induction l generalizing s b with
  | nil => exact .inl ⟨rfl, by simp⟩
  | cons a l ih =>
    have hl : Advances P m f l := fun a' ha' => h a' (List.mem_cons_of_mem a ha')
    rw [List.foldl_cons]
    rcases h a List.mem_cons_self s hs b with hstill | ⟨hP, hb, hlt⟩
    · rw [hstill]
      rcases ih hl hs b with ⟨heq, hall⟩ | hgrow
      · exact .inl ⟨heq, List.forall_mem_cons.2 ⟨hstill, hall⟩⟩
      · exact .inr hgrow
    · have hpair : f (s, b) a = ((f (s, b) a).1, true) := by rw [← hb]
      rw [hpair]
      rcases ih hl hP true with ⟨heq, _⟩ | ⟨hP', hb', hlt'⟩
      · rw [heq]
        exact .inr ⟨hP, rfl, hlt⟩
      · exact .inr ⟨hP', hb', Nat.lt_trans hlt hlt'⟩

theorem pass_still (h : Advances P m f l) (hs : P s) (hb : (pass f l s).2 = false) :
    (pass f l s).1 = s ∧ ∀ a ∈ l, f (s, false) a = (s, false) := by
  rcases h.foldl hs false with ⟨heq, hall⟩ | ⟨_, hgrow, _⟩
  · exact ⟨congrArg Prod.fst heq, hall⟩
  · unfold pass at hb
    rw [hgrow] at hb
    cases hb

theorem pass_grows (h : Advances P m f l) (hs : P s) (hb : (pass f l s).2 = true) :
    m s < m (pass f l s).1 := by
  rcases h.foldl hs false with ⟨heq, _⟩ | ⟨_, _, hlt⟩
  · unfold pass at hb
    rw [heq] at hb
    cases hb
  · exact hlt

theorem pass_inv (h : Advances P m f l) (hs : P s) : P (pass f l s).1 := by
  rcases h.foldl hs false with ⟨heq, _⟩ | ⟨hP, _⟩
  · unfold pass
    rwa [heq]
  · exact hP

/-- **The loop ends in a state that no element changes.** -/
theorem saturate_stable {b n : Nat} (h : Advances P m f l) (hm : ∀ s, P s → m s ≤ b) (hs : P s)
    (hn : b < n) :
    P (saturate f l n s) ∧ ∀ a ∈ l, f (saturate f l n s, false) a = (saturate f l n s, false) := by
  obtain ⟨s', hs', hstill, heq⟩ := doWhile_stable (fun _ => pass_inv h) hm (fun _ => pass_grows h) hs
    (Nat.lt_add_left (m s) hn)
  obtain ⟨hsame, hall⟩ := pass_still h hs' hstill
  unfold saturate
  rw [heq, hsame]
  exact ⟨hs', hall⟩

end Dbsql.Core.Saturate
