import Dbsql.L3Vdbe.Arithmetic
import Dbsql.L3Vdbe.NumericOrder
/-!
# `OP_ForceInt` (vdbe.c:1332-1367)

The opcode rounds the number on top of the stack up to an integer, or to the next integer if P1
is set. It jumps only if there is no number: an integer that does not fit an `int` wraps around,
and a number that does not fit is cast as the machine casts it.

Results:
* `forceReal_eq`: the rounding, modulo 2³², of a number that fits without its fraction.
* `forceIntSpec_iff`: the opcode does what it is to do if the integer is an `int`.
-/
namespace Dbsql.L3
open Dbsql.L1

/-! ## The opcode -/

/-- `r == (double)v`. -/
def Double.eqInt (r : Double) (v : CInt) : Bool := r.toRat = some (v.toInt : ℚ)

section
variable {L : Type} (ar : Arith L)

/-- The `else` branch of `OP_ForceInt`. -/
def forceReal (p1 : Bool) (r : Double) : CInt :=
  let v := ar.toInt r
  let v := if Double.lt (.fin v.toInt) r then v + 1 else v
  if p1 && Double.eqInt r v then v + 1 else v

/-- `OP_ForceInt` (vdbe.c:1343-1367): what it leaves, or `none` if it pops and jumps to P2. -/
def opForceInt (p1 : Bool) : Val → Option CInt
  | .null => none
  | .int i _ => some (if p1 then i + 1 else i)
  | .real r => some (forceReal ar p1 r)
  | .str z => if strIsNumeric (cstr z) then some (forceReal ar p1 (dbsqlAtof ar.ld z)) else none

/-! ## What it is to do -/

/-- The number or the text that a value is in a comparison; NULL is neither. -/
def Val.rank : Val → Option Rank
  | .null => none
  | .int i _ => some (.num (.fin i.toInt))
  | .real r => some (.num r)
  | .str z => some (L3.rank ar z)

/-- The value of a number. -/
def Val.number (v : Val) : Option ℚ :=
  match v.rank ar with
  | some (.num r) => r.toRat
  | _ => none

/-- The integers at or above a number, or above it. -/
def intsFrom (strict : Bool) (q : ℚ) : Set Int := {n | if strict then q < n else q ≤ n}

/-- The least of them. -/
def leastInt (strict : Bool) (q : ℚ) : Int := if strict then ⌊q⌋ + 1 else ⌈q⌉

/-- `OP_ForceInt` leaves the least such integer if it is an `int`, and jumps if it is not or if
there is no number. -/
def ForceIntSpec (p1 : Bool) (v : Val) (out : Option CInt) : Prop :=
  ∀ k : CInt, out = some k ↔ ∃ q, v.number ar = some q ∧ IsLeast (intsFrom p1 q) k.toInt

/-- A number has such an integer, and it is an `int`. Below -2147483648 the cast has to give
that number. -/
def Forceable (p1 : Bool) (v : Val) : Prop :=
  ∀ r, v.rank ar = some (.num r) → ∃ q, r.toRat = some q ∧
    -2147483648 ≤ leastInt p1 q ∧ leastInt p1 q ≤ 2147483647 ∧
    (q = -2147483649 → (ar.toInt r).toInt = -2147483648)

end

theorem mem_intsFrom {strict : Bool} {q : ℚ} {n : Int} :
    n ∈ intsFrom strict q ↔ leastInt strict q ≤ n := by
  cases strict with
  | true =>
    have h : q < n ↔ ⌊q⌋ < n := Int.floor_lt.symm
    exact h.trans Int.lt_iff_add_one_le
  | false =>
    have h : q ≤ n ↔ ⌈q⌉ ≤ n := Int.ceil_le.symm
    exact h

theorem isLeast_intsFrom {strict : Bool} {q : ℚ} {n : Int} :
    IsLeast (intsFrom strict q) n ↔ n = leastInt strict q := by
  have hleast : IsLeast (intsFrom strict q) (leastInt strict q) :=
    ⟨mem_intsFrom.2 le_rfl, fun m hm => mem_intsFrom.1 hm⟩
  exact ⟨fun h => h.unique hleast, fun h => h ▸ hleast⟩

/-- The integers from just below the range of `int` on. -/
theorem leastInt_min (strict : Bool) :
    leastInt strict (-2147483649) = if strict then -2147483648 else -2147483649 := by
  cases strict <;> norm_num [leastInt]

/-- The numbers whose integer is an `int`. -/
theorem range_of_leastInt {strict : Bool} {q : ℚ} (hlo : -2147483648 ≤ leastInt strict q)
    (hhi : leastInt strict q ≤ 2147483647) (hne : q ≠ -2147483649) :
    -2147483649 < q ∧ q < 2147483648 := by
  cases strict with
  | true =>
    have hfloor : (-2147483649 : Int) ≤ ⌊q⌋ ∧ ⌊q⌋ < 2147483648 := by
      rw [leastInt, if_pos rfl] at hlo hhi
      omega
    refine ⟨lt_of_le_of_ne ?_ hne.symm, ?_⟩
    · exact_mod_cast Int.le_floor.1 hfloor.1
    · exact_mod_cast Int.floor_lt.1 hfloor.2
  | false =>
    have hceil : (-2147483649 : Int) < ⌈q⌉ ∧ ⌈q⌉ ≤ 2147483647 := by
      rw [leastInt, if_neg Bool.false_ne_true] at hlo hhi
      omega
    have hle : q ≤ 2147483647 := by exact_mod_cast Int.ceil_le.1 hceil.2
    refine ⟨?_, hle.trans_lt (by norm_num)⟩
    exact_mod_cast Int.lt_ceil.1 hceil.1

/-! ## The rounding -/

section
variable {L : Type} {ar : Arith L} {r : Double} {q : ℚ}

/-- An integer below a number, as doubles. -/
theorem Double.lt_of_toRat (hr : r.toRat = some q) (i : Int) :
    Double.lt (.fin i) r = true ↔ (i : ℚ) < q := by
  cases r with
  | inf | nan => cases hr
  | fin | negZero =>
    cases hr
    exact decide_eq_true_iff

/-- A number below an integer. -/
theorem Double.lt_fin_of_toRat (hr : r.toRat = some q) (i : Int) :
    Double.lt r (.fin i) = true ↔ q < i := by
  cases r with
  | inf | nan => cases hr
  | fin | negZero =>
    cases hr
    exact decide_eq_true_iff

theorem Double.eqInt_iff (hr : r.toRat = some q) (v : CInt) :
    Double.eqInt r v = true ↔ q = v.toInt := by
  rw [Double.eqInt, decide_eq_true_iff, hr, Option.some_inj]

/-- The cast and the first `v++` round up. -/
theorem roundUp_eq (hc : ar.Casts) (hr : r.toRat = some q) (hlo : -2147483649 < q)
    (hhi : q < 2147483648) :
    (if Double.lt (.fin (ar.toInt r).toInt) r then ar.toInt r + 1 else ar.toInt r) =
      BitVec.ofInt 32 ⌈q⌉ := by
  have hcast := hc.trunc r q hr hlo hhi
  have hv : ar.toInt r = BitVec.ofInt 32 (truncRat q) := by
    rw [← hcast, BitVec.ofInt_toInt]
  have hlt : Double.lt (.fin (ar.toInt r).toInt) r = true ↔ (truncRat q : ℚ) < q := by
    rw [Double.lt_of_toRat hr, hcast]
  rcases le_total 0 q with h | h
  · rw [truncRat_of_nonneg h] at hv hlt
    by_cases hfloor : (⌊q⌋ : ℚ) < q
    · have hceil : ⌈q⌉ = ⌊q⌋ + 1 := by
        refine le_antisymm (Int.ceil_le_floor_add_one q) ?_
        exact Int.add_one_le_iff.2 (Int.lt_ceil.2 hfloor)
      rw [if_pos (hlt.2 hfloor), hv, hceil, BitVec.ofInt_add]
      rfl
    · have hceil : ⌈q⌉ = ⌊q⌋ :=
        le_antisymm (Int.ceil_le.2 (not_lt.1 hfloor)) (Int.floor_le_ceil q)
      rw [if_neg (mt hlt.1 hfloor), hv, hceil]
  · rw [truncRat_of_nonpos h] at hv hlt
    rw [if_neg (mt hlt.1 (not_lt.2 (Int.le_ceil q))), hv]

/-- **The rounding of `OP_ForceInt`**, modulo 2³². -/
theorem forceReal_eq (hc : ar.Casts) (p1 : Bool) (hr : r.toRat = some q) (hlo : -2147483649 < q)
    (hhi : q < 2147483648) : forceReal ar p1 r = BitVec.ofInt 32 (leastInt p1 q) := by
  have hup := roundUp_eq hc hr hlo hhi
  unfold forceReal
  dsimp only
  rw [hup]
  cases p1 with
  | false => rfl
  | true =>
    have heq := Double.eqInt_iff hr (BitVec.ofInt 32 ⌈q⌉)
    have hloc : (-2147483649 : Int) < ⌈q⌉ := Int.lt_ceil.2 (by exact_mod_cast hlo)
    have hhic : ⌈q⌉ ≤ 2147483648 := Int.ceil_le.2 (by exact_mod_cast hhi.le)
    rw [Bool.true_and, leastInt, if_pos rfl]
    by_cases hq : q = ⌈q⌉
    · -- the number is an integer, so an `int`
      have hmax : ⌈q⌉ ≠ 2147483648 := by
        intro h
        rw [h] at hq
        exact absurd hhi (by rw [hq]; norm_num)
      have hint : (BitVec.ofInt 32 ⌈q⌉).toInt = ⌈q⌉ := by
        rw [BitVec.toInt_ofInt, Int.bmod_eq_of_le (by omega) (by omega)]
      have hfloor : ⌊q⌋ = ⌈q⌉ := by
        rw [hq, Int.floor_intCast, Int.ceil_intCast]
      rw [if_pos (heq.2 (by rw [hint]; exact hq)), hfloor, BitVec.ofInt_add]
      rfl
    · have hne : ¬ q = ((BitVec.ofInt 32 ⌈q⌉).toInt : ℚ) := by
        intro h
        rw [h, Int.ceil_intCast] at hq
        exact hq rfl
      have hfloor : ⌈q⌉ = ⌊q⌋ + 1 := by
        refine le_antisymm (Int.ceil_le_floor_add_one q) (Int.add_one_le_iff.2 (Int.lt_ceil.2 ?_))
        refine lt_of_le_of_ne (Int.floor_le q) fun h => hq ?_
        rw [← h, Int.ceil_intCast]
      rw [if_neg (mt heq.1 hne), hfloor]

/-- Below every `int` it is the cast. -/
theorem forceReal_below (p1 : Bool) (hr : r.toRat = some q) (h : q < -2147483648) :
    forceReal ar p1 r = ar.toInt r := by
  have hge : q < (ar.toInt r).toInt := by
    have := BitVec.le_toInt (ar.toInt r)
    exact h.trans_le (by exact_mod_cast this)
  unfold forceReal
  dsimp only
  rw [if_neg (mt (Double.lt_of_toRat hr _).1 hge.le.not_gt), if_neg]
  rw [Bool.and_eq_true, not_and]
  exact fun _ => mt (Double.eqInt_iff hr _).1 hge.ne

/-- A number is rounded as the double that it is. -/
theorem opForceInt_num (hc : ar.Casts) (p1 : Bool) {v : Val} (h : v.rank ar = some (.num r)) :
    opForceInt ar p1 v = some (forceReal ar p1 r) := by
  cases v with
  | null => cases h
  | real => cases h; rfl
  | int i z =>
    cases h
    have hlo := BitVec.le_toInt i
    have hhi := BitVec.toInt_lt (x := i)
    rw [forceReal_eq hc p1 (q := (i.toInt : ℚ)) rfl (by exact_mod_cast (by omega))
      (by exact_mod_cast (by omega)), leastInt, Int.floor_intCast, Int.ceil_intCast]
    cases p1 with
    | false => exact congrArg some (BitVec.ofInt_toInt).symm
    | true =>
      rw [if_pos rfl, BitVec.ofInt_add, BitVec.ofInt_toInt]
      rfl
  | str z =>
    rw [Val.rank, rank] at h
    split at h
    · rename_i hnum
      cases h
      exact if_pos hnum
    · cases h

/-- It jumps if there is no number. -/
theorem opForceInt_none (p1 : Bool) {v : Val} (h : ∀ r, v.rank ar ≠ some (.num r)) :
    opForceInt ar p1 v = none := by
  cases v with
  | null => rfl
  | int i z => exact absurd rfl (h _)
  | real r => exact absurd rfl (h r)
  | str z =>
    rw [opForceInt]
    split
    · rename_i hnum
      exact absurd (congrArg some (if_pos hnum)) (h (dbsqlAtof ar.ld z))
    · rfl

theorem number_num {v : Val} (h : v.rank ar = some (.num r)) : v.number ar = r.toRat := by
  rw [Val.number, h]

theorem number_none {v : Val} (h : ∀ r, v.rank ar ≠ some (.num r)) : v.number ar = none := by
  unfold Val.number
  split
  · rename_i hr
    exact absurd hr (h _)
  · rfl

/-- **`OP_ForceInt`** rounds a number as it is to, or jumps, if and only if the integer that it
is to leave is an `int`. -/
theorem forceIntSpec_iff (hc : ar.Casts) (p1 : Bool) (v : Val) :
    ForceIntSpec ar p1 v (opForceInt ar p1 v) ↔ Forceable ar p1 v := by
  by_cases hnum : ∃ r, v.rank ar = some (.num r)
  · obtain ⟨r, hr⟩ := hnum
    have hspec : ForceIntSpec ar p1 v (opForceInt ar p1 v) ↔ ∀ k : CInt, forceReal ar p1 r = k ↔
        ∃ q, r.toRat = some q ∧ k.toInt = leastInt p1 q := by
      simp only [ForceIntSpec, opForceInt_num hc p1 hr, number_num hr, Option.some_inj,
        isLeast_intsFrom]
    have hforce : Forceable ar p1 v ↔ ∃ q, r.toRat = some q ∧ -2147483648 ≤ leastInt p1 q ∧
        leastInt p1 q ≤ 2147483647 ∧ (q = -2147483649 → (ar.toInt r).toInt = -2147483648) := by
      refine ⟨fun h => h r hr, fun h r' hr' => ?_⟩
      rw [hr] at hr'
      cases hr'
      exact h
    rw [hspec, hforce]
    constructor
    · intro h
      obtain ⟨q, hq, hk⟩ := (h _).1 rfl
      have hlo := BitVec.le_toInt (forceReal ar p1 r)
      have hhi := BitVec.toInt_lt (x := forceReal ar p1 r)
      refine ⟨q, hq, by omega, by omega, fun hmin => ?_⟩
      have hbelow : forceReal ar p1 r = ar.toInt r :=
        forceReal_below p1 hq (by rw [hmin]; norm_num)
      have hleast := leastInt_min p1
      rw [hbelow, hmin] at hk
      rw [hbelow] at hlo
      omega
    · rintro ⟨q, hq, hlo, hhi, hmin⟩ k
      have hval : (forceReal ar p1 r).toInt = leastInt p1 q := by
        by_cases h : q = -2147483649
        · rw [forceReal_below p1 hq (by rw [h]; norm_num), hmin h]
          have hleast := leastInt_min p1
          rw [h] at hlo ⊢
          omega
        · obtain ⟨hlo', hhi'⟩ := range_of_leastInt hlo hhi h
          rw [forceReal_eq hc p1 hq hlo' hhi', BitVec.toInt_ofInt,
            Int.bmod_eq_of_le (by omega) (by omega)]
      constructor
      · rintro rfl
        exact ⟨q, hq, hval⟩
      · rintro ⟨q', hq', hk⟩
        rw [hq] at hq'
        cases hq'
        exact BitVec.eq_of_toInt_eq (hval.trans hk.symm)
  · have hnone : ∀ r, v.rank ar ≠ some (.num r) := fun r hr => hnum ⟨r, hr⟩
    refine iff_of_true (fun k => ?_) fun r hr => absurd hr (hnone r)
    rw [opForceInt_none p1 hnone, number_none hnone]
    simp

end
end Dbsql.L3
