import Dbsql.L3Vdbe.Compare
import Dbsql.L3Vdbe.ForceInt
/-!
# Comparisons as SQL has them

In SQL a comparison with NULL is unknown. Numbers are compared by value and come before texts, texts
byte by byte, and a NaN is neither below nor above nor equal to a number. `OP_Eq` … `OP_Ge` subtract
integers as `int`, go by the texts of reals, and take a NaN to be equal to every number.

Results:
* `compare3_text`: `OP_StrEq` … `OP_StrGe` compare as SQL does.
* `test_sub_iff`: which operators are right on the difference of two integers.
* `compare3_eq_sqlCompare`: integers that are near and texts that are no NaN are compared as in SQL.
-/
namespace Dbsql.L3
open Dbsql.L1

/-! ## What a comparison says -/

/-- The same number or the same text. -/
def Rank.eq : Rank → Rank → Bool
  | .num r, .num r' => r ≠ .nan && r' ≠ .nan && !Double.lt r r' && !Double.lt r' r
  | .text z, .text z' => z = z'
  | _, _ => false

/-- The relation of an operator. -/
def Cmp.ranks (op : Cmp) (x y : Rank) : Bool :=
  match op with
  | .eq => x.eq y
  | .ne => !x.eq y
  | .lt => x.lt y
  | .le => x.lt y || x.eq y
  | .gt => y.lt x
  | .ge => y.lt x || x.eq y

section
variable {L : Type} (ar : Arith L)

/-- What a value is to a comparison, of texts or of numbers; NULL is neither. -/
def Val.rankAs (text : Bool) (v : Val) : Option Rank :=
  if text then if v.isNull then none else some (.text ⟨cstr v.text⟩) else v.rank ar

/-- SQL's value of `x op y`. -/
def sqlCompare (text : Bool) (op : Cmp) (x y : Val) : Option Bool :=
  (x.rankAs ar text).bind fun k => (y.rankAs ar text).map (op.ranks k)

end

/-! ## What the opcodes say -/

/-- The sign of the opcode's `c` decides as the ranks do. -/
theorem Cmp.test_eq_ranks {c : CInt} {x y : Rank} (hlt : c.toInt < 0 ↔ x.lt y = true)
    (hgt : 0 < c.toInt ↔ y.lt x = true) (heq : x.eq y = (!x.lt y && !y.lt x)) (op : Cmp) :
    op.test c = op.ranks x y := by
  have hzero : c = 0 ↔ ¬ c.toInt < 0 ∧ ¬ 0 < c.toInt := by
    refine ⟨fun h => by rw [h]; decide, fun h => BitVec.eq_of_toInt_eq ?_⟩
    rw [show (0 : CInt).toInt = 0 from rfl]
    omega
  have hle : c.toInt ≤ 0 ↔ ¬ 0 < c.toInt := not_lt.symm
  have hge : 0 ≤ c.toInt ↔ ¬ c.toInt < 0 := not_lt.symm
  have hasymm : x.lt y = true → y.lt x = false := Rank.lt_asymm
  unfold Cmp.ranks
  rw [heq]
  cases op <;> simp only [Cmp.test, ne_eq, hzero, hle, hge, hlt, hgt]
  all_goals
    revert hasymm
    cases x.lt y <;> cases y.lt x <;> simp

theorem Rank.eq_text (z z' : Dbt) :
    (Rank.text z).eq (.text z') = (!(Rank.text z).lt (.text z') && !(Rank.text z').lt (.text z)) := by
  rw [Bool.eq_iff_iff]
  simp only [Rank.eq, Rank.lt, decide_eq_true_eq, Bool.and_eq_true, Bool.not_eq_true', decide_eq_false_iff_not,
    not_lt]
  exact ⟨fun h => ⟨h.ge, h.le⟩, fun h => le_antisymm h.2 h.1⟩

/-- Without a NaN one of the three holds. -/
theorem Rank.eq_of_ne_nan {x y : Rank} (hx : x ≠ .num .nan) (hy : y ≠ .num .nan) :
    x.eq y = (!x.lt y && !y.lt x) := by
  cases x with
  | num r =>
    cases y with
    | num r' =>
      have hr : r ≠ .nan := fun h => hx (congrArg Rank.num h)
      have hr' : r' ≠ .nan := fun h => hy (congrArg Rank.num h)
      simp [Rank.eq, Rank.lt, hr, hr']
    | text z' => rfl
  | text z =>
    cases y with
    | num r' => rfl
    | text z' => exact Rank.eq_text z z'

/-- **The text opcodes compare as SQL does.** -/
theorem compare3_text {L : Type} (ar : Arith L) (op : Cmp) (x y : Val) :
    compare3 ar true op x y = sqlCompare ar true op x y := by
  unfold compare3 sqlCompare Val.rankAs
  rw [if_pos rfl, if_pos rfl, if_pos rfl]
  cases x.isNull with
  | true => cases y.isNull <;> rfl
  | false =>
    cases y.isNull with
    | true => rfl
    | false =>
      refine congrArg some (Cmp.test_eq_ranks ?_ ?_ (Rank.eq_text _ _) op)
      · exact strcmp_lt.trans decide_eq_true_iff.symm
      · exact strcmp_gt.trans decide_eq_true_iff.symm

/-- Without overflow the difference has the sign that it should have, with overflow the other. -/
theorem sub_sign (x b : CInt) :
    ((x - b).toInt < 0 ↔ (x.toInt < b.toInt ↔ ¬ BitVec.ssubOverflow x b = true)) ∧
      ((x - b).toInt ≤ 0 ↔ (x.toInt ≤ b.toInt ↔ ¬ BitVec.ssubOverflow x b = true)) := by
  have hx := BitVec.toInt_lt (x := x)
  have hx' := BitVec.le_toInt x
  have hb := BitVec.toInt_lt (x := b)
  have hb' := BitVec.le_toInt b
  simp only [BitVec.ssubOverflow, Bool.or_eq_true, decide_eq_true_eq]
  rw [BitVec.toInt_sub, Int.bmod_def]
  constructor
  · split <;> omega
  · split <;> omega

theorem fin_lt (x y : CInt) :
    (Rank.num (.fin x.toInt)).lt (.num (.fin y.toInt)) = true ↔ x.toInt < y.toInt :=
  (ReadsAs.fin rfl : ReadsAs (.fin x.toInt) x.toInt).lt_iff (.fin rfl)

/-- On the difference of two integers `=` and `<>` are right, and the other operators just where it
does not overflow. -/
theorem test_sub_iff (op : Cmp) (x y : CInt) :
    op.test (x - y) = op.ranks (.num (.fin x.toInt)) (.num (.fin y.toInt)) ↔
      op = .eq ∨ op = .ne ∨ BitVec.ssubOverflow x y = false := by
  have hnan : ∀ i : CInt, Rank.num (.fin i.toInt) ≠ .num .nan := fun i h => by cases h
  have heq : (Rank.num (.fin x.toInt)).eq (.num (.fin y.toInt)) = decide (x = y) := by
    rw [Rank.eq_of_ne_nan (hnan x) (hnan y), Bool.eq_iff_iff]
    simp only [Bool.and_eq_true, Bool.not_eq_true', ← Bool.not_eq_true, fin_lt, decide_eq_true_eq,
      ← BitVec.toInt_inj]
    omega
  have hlt := Bool.eq_iff_iff.2 ((fin_lt x y).trans decide_eq_true_iff.symm)
  have hgt := Bool.eq_iff_iff.2 ((fin_lt y x).trans decide_eq_true_iff.symm)
  have hzero : x - y = (0 : CInt) ↔ x = y := by grind
  have hxy : x = y ↔ x.toInt = y.toInt := BitVec.toInt_inj.symm
  have hle : (decide (x.toInt < y.toInt) || decide (x = y)) = decide (x.toInt ≤ y.toInt) := by
    rw [← Bool.decide_or, decide_eq_decide, hxy]
    omega
  have hge : (decide (y.toInt < x.toInt) || decide (x = y)) = decide (¬ x.toInt < y.toInt) := by
    rw [← Bool.decide_or, decide_eq_decide, hxy]
    omega
  -- with overflow the sign says the opposite
  have hflip : ∀ {p q : Prop}, (p ↔ (q ↔ ¬ BitVec.ssubOverflow x y = true)) →
      ((p ↔ q) ↔ BitVec.ssubOverflow x y = false) := by
    intro p q h
    rw [h, ← Bool.not_eq_true]
    by_cases hq : q <;> simp [hq]
  obtain ⟨hneg, hpos⟩ := sub_sign x y
  unfold Cmp.ranks Cmp.test
  rw [heq, hlt, hgt]
  cases op with
  | eq => exact iff_of_true (decide_eq_decide.2 hzero) (.inl rfl)
  | ne =>
    refine iff_of_true ?_ (.inr (.inl rfl))
    rw [← decide_not]
    exact decide_eq_decide.2 (not_congr hzero)
  | lt =>
    refine (decide_eq_decide.trans (hflip hneg)).trans ?_
    simp
  | le =>
    rw [hle]
    refine (decide_eq_decide.trans (hflip hpos)).trans ?_
    simp
  | gt =>
    refine decide_eq_decide.trans ((Iff.trans ?_ (hflip hpos)).trans ?_)
    · rw [← not_le, ← not_le]
      exact not_iff_not
    · simp
  | ge =>
    rw [hge]
    refine decide_eq_decide.trans ((Iff.trans ?_ (hflip hneg)).trans ?_)
    · rw [← not_lt]
      exact not_iff_not
    · simp

/-- A double that is an integer stands where the integer stands. -/
theorem lt_of_readsAs {r : Double} {i : Int} (h : ReadsAs r i) (k : Rank) :
    (Rank.num r).lt k = (Rank.num (.fin i)).lt k ∧ k.lt (.num r) = k.lt (.num (.fin i)) := by
  have hfin : ReadsAs (.fin i) i := .fin rfl
  cases k with
  | text z => exact ⟨rfl, rfl⟩
  | num r' =>
    by_cases hn : r' = .nan
    · subst hn
      have hright : ∀ r : Double, Double.lt r .nan = false := fun r => by cases r <;> rfl
      exact ⟨(hright r).trans (hright (.fin i)).symm, rfl⟩
    · constructor
      · exact Bool.eq_iff_iff.2 (by
          rw [Rank.lt, Rank.lt, Double.lt_iff h.1 hn, Double.lt_iff hfin.1 hn, h.2, hfin.2])
      · exact Bool.eq_iff_iff.2 (by
          rw [Rank.lt, Rank.lt, Double.lt_iff hn h.1, Double.lt_iff hn hfin.1, h.2, hfin.2])

/-- The text of a value has the rank of the value. -/
theorem StackValue.rank_text {L : Type} {ar : Arith L} (hfp : ExactInts ar.ld) {x : Val} (hx : StackValue x) :
    ∃ k, x.rank ar = some k ∧
      ∀ k', (rank ar x.text).lt k' = k.lt k' ∧ k'.lt (rank ar x.text) = k'.lt k := by
  rcases hx.shape with ⟨i, z, rfl⟩ | ⟨z, rfl⟩
  · obtain ⟨r, hr, hread⟩ := rank_readsAs hfp hx rfl
    rw [hr]
    exact ⟨_, rfl, lt_of_readsAs hread⟩
  · exact ⟨_, rfl, fun _ => ⟨rfl, rfl⟩⟩

/-- **The number opcodes compare as SQL does** integers that are near, and texts that are no NaN. -/
theorem compare3_eq_sqlCompare {L : Type} {ar : Arith L} (hfp : ExactInts ar.ld) {x y : Val}
    (hx : StackValue x) (hy : StackValue y)
    (hnear : ∀ i j, intOf x = some i → intOf y = some j → Near i j)
    (hxn : x.rank ar ≠ some (.num .nan)) (hyn : y.rank ar ≠ some (.num .nan)) (op : Cmp) :
    compare3 ar false op x y = sqlCompare ar false op x y := by
  obtain ⟨k, hk, hkx⟩ := hx.rank_text hfp
  obtain ⟨k', hk', hky⟩ := hy.rank_text hfp
  have hlt := numCmp_lt ar hfp hx hy hnear
  have hgt := numCmp_gt ar hfp hx hy hnear
  rw [(hkx _).1, (hky _).2] at hlt
  rw [(hky _).1, (hkx _).2] at hgt
  have heq := Rank.eq_of_ne_nan (fun h => hxn (hk.trans (congrArg some h))) (fun h => hyn (hk'.trans (congrArg some h)))
  unfold compare3 sqlCompare Val.rankAs
  rw [hx.isNull, hy.isNull, if_neg Bool.false_ne_true, hk, hk']
  exact congrArg some (Cmp.test_eq_ranks hlt hgt heq op)

end Dbsql.L3
