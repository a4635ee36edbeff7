import Dbsql.Core.FirstBest
import Dbsql.L3Vdbe.Value
import Mathlib.Order.WithBot
/-!
# The order of `__str_numeric_cmp` (str.c:599-635)

Strings that are numbers come before those that are not; numbers are compared by value,
other strings byte by byte. A NaN is neither below nor above any number, so this is a strict
weak order among strings of which none reads as a NaN.

Results:
* `strNumericCmp_lt`, `strNumericCmp_gt`: the sign of the result by `Rank`.
* `Rank.lt_asymm`, `Rank.lt_split`: the laws of the order.
-/
namespace Dbsql.L3
open Dbsql.Core Dbsql.L1
open List (compareLex)

/-! ## `<` of `double` -/

/-- Where a double stands among the numbers; a NaN stands nowhere. -/
def Double.height : Double → WithBot (WithTop ℚ)
  | .fin q => ((q : WithTop ℚ) : WithBot (WithTop ℚ))
  | .negZero => ((0 : WithTop ℚ) : WithBot (WithTop ℚ))
  | .inf neg => if neg then ⊥ else ((⊤ : WithTop ℚ) : WithBot (WithTop ℚ))
  | .nan => ⊥

theorem Double.ne_nan_of_lt {r r' : Double} (h : Double.lt r r' = true) : r ≠ .nan ∧ r' ≠ .nan := by
  constructor
  · rintro rfl
    cases h
  · rintro rfl
    cases r <;> cases h

theorem Double.lt_iff {r r' : Double} (h : r ≠ .nan) (h' : r' ≠ .nan) :
    Double.lt r r' = true ↔ Double.height r < Double.height r' := by
  cases r with
  | nan => exact absurd rfl h
  | inf neg =>
    cases r' with
    | nan => exact absurd rfl h'
    | inf neg' => cases neg <;> cases neg' <;> simp [Double.lt, Double.height]
    | fin q' => cases neg <;> simp [Double.lt, Double.height]
    | negZero => cases neg <;> simp [Double.lt, Double.height]
  | fin q =>
    cases r' with
    | nan => exact absurd rfl h'
    | inf neg' =>
      cases neg' with
      | false => exact iff_of_true rfl (WithBot.coe_lt_coe.2 (WithTop.coe_lt_top q))
      | true => simp [Double.lt, Double.height]
    | fin q' => exact decide_eq_true_iff.trans (by simp [Double.height, Double.toRat])
    | negZero => exact decide_eq_true_iff.trans (by simp [Double.height, Double.toRat])
  | negZero =>
    cases r' with
    | nan => exact absurd rfl h'
    | inf neg' =>
      cases neg' with
      | false => exact iff_of_true rfl (WithBot.coe_lt_coe.2 (WithTop.coe_lt_top 0))
      | true => simp [Double.lt, Double.height]
    | fin q' => exact decide_eq_true_iff.trans (by simp [Double.height, Double.toRat])
    | negZero => exact iff_of_false Bool.false_ne_true (lt_irrefl _)

theorem Double.lt_asymm {r r' : Double} (h : Double.lt r r' = true) : Double.lt r' r = false := by
  obtain ⟨hr, hr'⟩ := Double.ne_nan_of_lt h
  rw [Double.lt_iff hr hr'] at h
  rw [Bool.eq_false_iff, ne_eq, Double.lt_iff hr' hr]
  exact not_lt_of_gt h

theorem Double.lt_split {r r' r'' : Double} (h : Double.lt r r' = true) (hn : r'' ≠ .nan) :
    Double.lt r r'' = true ∨ Double.lt r'' r' = true := by
  obtain ⟨hr, hr'⟩ := Double.ne_nan_of_lt h
  rw [Double.lt_iff hr hr'] at h
  rw [Double.lt_iff hr hn, Double.lt_iff hn hr']
  rcases lt_or_ge (Double.height r) (Double.height r'') with hlt | hge
  · exact .inl hlt
  · exact .inr (hge.trans_lt h)

/-! ## Ranks -/

/-- What a string is to `__str_numeric_cmp`. -/
inductive Rank
  | num (r : Double)
  | text (z : Dbt)

def Rank.lt : Rank → Rank → Bool
  | .num r, .num r' => Double.lt r r'
  | .num _, .text _ => true
  | .text _, .num _ => false
  | .text z, .text z' => decide (z < z')

theorem Rank.lt_asymm {x y : Rank} (h : x.lt y = true) : y.lt x = false := by
  cases x with
  | num r =>
    cases y with
    | num r' => exact Double.lt_asymm h
    | text z' => rfl
  | text z =>
    cases y with
    | num r' => cases h
    | text z' => exact decide_eq_false (not_lt_of_gt (of_decide_eq_true h))

theorem Rank.lt_split {x y z : Rank} (h : x.lt y = true) (hz : z ≠ .num .nan) :
    x.lt z = true ∨ z.lt y = true := by
  cases z with
  | num r =>
    cases x with
    | text a =>
      cases y with
      | num r' => cases h
      | text b => exact .inr rfl
    | num r₁ =>
      cases y with
      | num r₂ => exact Double.lt_split h fun hr => hz (congrArg Rank.num hr)
      | text b => exact .inr rfl
  | text c =>
    cases x with
    | num r₁ => exact .inl rfl
    | text a =>
      cases y with
      | num r₂ => cases h
      | text b =>
        have hab : a < b := of_decide_eq_true h
        rcases lt_or_ge a c with hac | hca
        · exact .inl (decide_eq_true hac)
        · exact .inr (decide_eq_true (hca.trans_lt hab))

/-! ## The sign of the result -/

section
variable {L : Type} (ar : Arith L)

def rank (z : Bytes) : Rank :=
  if strIsNumeric (cstr z) then .num (dbsqlAtof ar.ld z) else .text ⟨cstr z⟩

theorem toInt_ordInt (o : Ordering) : (BitVec.ofInt 32 (ordInt o)).toInt = ordInt o := by
  cases o <;> rfl

theorem strcmp_lt {a b : Bytes} : (strcmp a b).toInt < 0 ↔ (⟨cstr a⟩ : Dbt) < ⟨cstr b⟩ := by
  rw [strcmp, toInt_ordInt, ordInt_lt, Dbt.lt_iff]

theorem strcmp_gt {a b : Bytes} : 0 < (strcmp a b).toInt ↔ (⟨cstr b⟩ : Dbt) < ⟨cstr a⟩ := by
  have hswap : ordInt (compareLex compare (cstr a) (cstr b)) =
      -ordInt (compareLex compare (cstr b) (cstr a)) := by
    rw [← smCmpValues_eq, ← smCmpValues_eq, smCmpValues_swap (cstr b)]
  rw [strcmp, toInt_ordInt, hswap, Dbt.lt_iff, Int.neg_pos, ordInt_lt]

theorem strNumericCmp_lt (a b : Bytes) :
    (strNumericCmp ar a b).toInt < 0 ↔ (rank ar a).lt (rank ar b) = true := by
  unfold strNumericCmp rank
  split
  · split
    · dsimp only
      split
      · rename_i h
        exact iff_of_true (by decide) h
      · rename_i h
        split
        · exact iff_of_false (by decide) h
        · exact iff_of_false (by decide) h
    · exact iff_of_true (by decide) rfl
  · split
    · exact iff_of_false (by decide) (by simp [Rank.lt])
    · exact strcmp_lt.trans decide_eq_true_iff.symm

theorem strNumericCmp_gt (a b : Bytes) :
    0 < (strNumericCmp ar a b).toInt ↔ (rank ar b).lt (rank ar a) = true := by
  unfold strNumericCmp rank
  split
  · split
    · dsimp only
      split
      · rename_i h
        exact iff_of_false (by decide) (by simp [Rank.lt, Double.lt_asymm h])
      · split
        · rename_i h
          exact iff_of_true (by decide) h
        · rename_i h
          exact iff_of_false (by decide) h
    · exact iff_of_false (by decide) (by simp [Rank.lt])
  · split
    · exact iff_of_true (by decide) rfl
    · exact strcmp_gt.trans decide_eq_true_iff.symm

end
end Dbsql.L3
