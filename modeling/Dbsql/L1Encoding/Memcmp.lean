import Dbsql.Core.LexOrder
import Mathlib.Order.Lattice
/-!
# Key comparison (sm.c:40-72)

`__sm_cmp_values` compares two byte strings by `memcmp` over the shorter length
and then shorter first; `__sm_bt_compare` applies it to two DBTs and is the
comparison function every btree is opened with.

Results:
* `smCmpValues_eq`: the comparison is the lexicographic order of bytes.
* the instance `LinearOrder Dbt`: `__sm_bt_compare` is a linear order, so a btree
  is a `Core.SortedMap Dbt`.
-/
namespace Dbsql.L1
open Dbsql.Core
open List (compareLex)

abbrev Bytes := List UInt8

instance : LawfulBEq Bytes := inferInstance

/-- C `memcmp`: the sign of the first difference among the first `n` bytes. -/
def memcmp : Bytes → Bytes → Nat → Int
  | a :: x, b :: y, n + 1 => if a = b then memcmp x y n else if a < b then -1 else 1
  | _, _, _ => 0

/-- `__sm_cmp_values` (sm.c:40-58). -/
def smCmpValues (a b : Bytes) : Int :=
  let mcmp := memcmp a b (if a.length ≤ b.length then a.length else b.length)
  if mcmp = 0 then
    if a.length = b.length then 0 else if a.length < b.length then -1 else 1
  else if 0 < mcmp then 1 else -1

/-- The three-way result of a comparison function for a comparison. -/
def ordInt : Ordering → Int
  | .lt => -1
  | .eq => 0
  | .gt => 1

@[simp] theorem ordInt_lt {o : Ordering} : ordInt o < 0 ↔ o = .lt := by cases o <;> simp [ordInt]
@[simp] theorem ordInt_eq {o : Ordering} : ordInt o = 0 ↔ o = .eq := by cases o <;> simp [ordInt]
@[simp] theorem ordInt_gt {o : Ordering} : 0 < ordInt o ↔ o = .gt := by cases o <;> simp [ordInt]

theorem ordInt_swap (o : Ordering) : ordInt o.swap = -ordInt o := by cases o <;> rfl

theorem compare_byte_eq_iff {a b : UInt8} : compare a b = .eq ↔ a = b := Std.compare_eq_iff_eq

theorem compare_byte_lt_iff {a b : UInt8} : compare a b = .lt ↔ a < b := by
  rw [UInt8.compare_eq_toNat_compare_toNat, Nat.compare_eq_lt, UInt8.lt_iff_toNat_lt]

theorem smCmpValues_cons_self (a : UInt8) (x y : Bytes) :
    smCmpValues (a :: x) (a :: y) = smCmpValues x y := by
  simp only [smCmpValues, List.length_cons, Nat.add_le_add_iff_right, Nat.add_right_cancel_iff,
    Nat.add_lt_add_iff_right]
  split <;> simp only [memcmp, if_true]

theorem smCmpValues_cons_ne {a b : UInt8} (h : a ≠ b) (x y : Bytes) :
    smCmpValues (a :: x) (b :: y) = if a < b then -1 else 1 := by
  have hm : ∀ n, memcmp (a :: x) (b :: y) (n + 1) = if a < b then -1 else 1 := fun n => by
    rw [memcmp, if_neg h]
  simp only [smCmpValues, List.length_cons]
  split <;> rw [hm] <;> split <;> simp

/-- `__sm_cmp_values` is the lexicographic order of bytes, shorter first. -/
theorem smCmpValues_eq : ∀ a b : Bytes, smCmpValues a b = ordInt (compareLex compare a b)
  | [], [] => rfl
  | [], _ :: _ => by simp [smCmpValues, memcmp, List.compareLex_nil_cons, ordInt]
  | _ :: _, [] => by simp [smCmpValues, memcmp, List.compareLex_cons_nil, ordInt]
  | a :: x, b :: y => by
    by_cases h : a = b
    · subst h
      rw [smCmpValues_cons_self, Lex.compareLex_cons_self, smCmpValues_eq x y]
    · rw [smCmpValues_cons_ne h, List.compareLex_cons_cons]
      have hne : compare a b ≠ .eq := fun e => h (compare_byte_eq_iff.1 e)
      by_cases hlt : a < b
      · rw [if_pos hlt, compare_byte_lt_iff.2 hlt]
        rfl
      · have hnl : compare a b ≠ .lt := fun e => hlt (compare_byte_lt_iff.1 e)
        rw [if_neg hlt]
        cases e : compare a b
        · exact absurd e hnl
        · exact absurd e hne
        · rfl

theorem smCmpValues_swap (a b : Bytes) : smCmpValues b a = -smCmpValues a b := by
  have : compareLex compare b a = (compareLex compare a b).swap :=
    @Std.OrientedCmp.eq_swap _ (compareLex compare) _ _ _
  rw [smCmpValues_eq, smCmpValues_eq, this, ordInt_swap]

@[simp] theorem smCmpValues_eq_zero {a b : Bytes} : smCmpValues a b = 0 ↔ a = b := by
  rw [smCmpValues_eq, ordInt_eq]
  exact Std.LawfulEqCmp.compare_eq_iff_eq

theorem smCmpValues_lt_trans {a b c : Bytes} (h : smCmpValues a b < 0) (h' : smCmpValues b c < 0) :
    smCmpValues a c < 0 := by
  rw [smCmpValues_eq, ordInt_lt] at *
  exact @Std.TransCmp.lt_trans _ (compareLex compare) _ _ _ _ h h'

/-! ## DBT -/

/-- A DBT: the bytes `data[0:size]`. -/
structure Dbt where
  data : Bytes
  deriving DecidableEq, Repr

/-- `__sm_bt_compare` (sm.c:66-73). -/
def smBtCompare (dbt1 dbt2 : Dbt) : Int := smCmpValues dbt1.data dbt2.data

instance : LT Dbt := ⟨fun a b => smBtCompare a b < 0⟩
instance : LE Dbt := ⟨fun a b => smBtCompare a b ≤ 0⟩

theorem Dbt.lt_def {a b : Dbt} : a < b ↔ smBtCompare a b < 0 := Iff.rfl
theorem Dbt.le_def {a b : Dbt} : a ≤ b ↔ smBtCompare a b ≤ 0 := Iff.rfl

theorem smBtCompare_swap (a b : Dbt) : smBtCompare b a = -smBtCompare a b :=
  smCmpValues_swap a.data b.data

theorem smBtCompare_eq_zero {a b : Dbt} : smBtCompare a b = 0 ↔ a = b := by
  rw [smBtCompare, smCmpValues_eq_zero]
  exact ⟨fun h => by cases a; cases b; exact congrArg Dbt.mk h, fun h => by rw [h]⟩

theorem Dbt.le_iff_lt_or_eq {a b : Dbt} : a ≤ b ↔ a < b ∨ a = b := by
  rw [Dbt.le_def, Dbt.lt_def, ← smBtCompare_eq_zero]
  omega

/-- `__sm_bt_compare` orders DBTs linearly. -/
instance : LinearOrder Dbt where
  le_refl a := Dbt.le_iff_lt_or_eq.2 (.inr rfl)
  le_trans a b c h h' := by
    rcases Dbt.le_iff_lt_or_eq.1 h with h | rfl
    · rcases Dbt.le_iff_lt_or_eq.1 h' with h' | rfl
      · exact Dbt.le_iff_lt_or_eq.2 (.inl (smCmpValues_lt_trans h h'))
      · exact Dbt.le_iff_lt_or_eq.2 (.inl h)
    · exact h'
  le_antisymm a b h h' := by
    rw [Dbt.le_def] at h h'
    rw [smBtCompare_swap] at h'
    exact smBtCompare_eq_zero.1 (by omega)
  le_total a b := by
    rw [Dbt.le_def, Dbt.le_def, smBtCompare_swap a b]
    omega
  lt_iff_le_not_ge a b := by
    rw [Dbt.le_def, Dbt.le_def, Dbt.lt_def, smBtCompare_swap a b]
    omega
  toDecidableLE a b := inferInstanceAs (Decidable (smBtCompare a b ≤ 0))
  toDecidableLT a b := inferInstanceAs (Decidable (smBtCompare a b < 0))
  toDecidableEq := inferInstance

theorem Dbt.lt_iff {a b : Dbt} : a < b ↔ compareLex compare a.data b.data = .lt := by
  rw [Dbt.lt_def, smBtCompare, smCmpValues_eq, ordInt_lt]

end Dbsql.L1
