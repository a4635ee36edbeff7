import Dbsql.L3Vdbe.Value
/-!
# Arithmetic opcodes (vdbe.c:1134-1207)

`OP_Add` … `OP_Remainder` compute with `int` if both operands are integers and with `double`
otherwise; `OP_Remainder` then casts both operands to `int`. A zero divisor is tested for
before each division, the smallest `int` over -1 is not.

The cast of a number that does not fit an `int` is the machine's. Of the others the language
says that they are truncated, `Arith.Casts`.

Results:
* `opArith_meets_iff`: the opcodes do what their comments say unless they `Overflow`.
-/
namespace Dbsql.L3
open Dbsql.L1

/-! ## Casts -/

/-- A rational number without its fraction. -/
def truncRat (q : ℚ) : Int := q.num.tdiv q.den

/-- `(int)r` drops the fraction of a number that fits without it. -/
structure Arith.Casts {L : Type} (ar : Arith L) : Prop where
  trunc : ∀ r q, r.toRat = some q → -2147483649 < q → q < 2147483648 →
    (ar.toInt r).toInt = truncRat q

theorem truncRat_of_nonneg {q : ℚ} (h : 0 ≤ q) : truncRat q = ⌊q⌋ := by
  rw [truncRat, Int.tdiv_eq_ediv_of_nonneg (Rat.num_nonneg.2 h), Rat.floor_def']

theorem truncRat_neg (q : ℚ) : truncRat (-q) = -truncRat q := by
  rw [truncRat, truncRat, Rat.num_neg_eq_neg_num, Rat.den_neg_eq_den, Int.neg_tdiv]

theorem truncRat_of_nonpos {q : ℚ} (h : q ≤ 0) : truncRat q = ⌈q⌉ := by
  have hneg : truncRat (-q) = ⌊-q⌋ := truncRat_of_nonneg (by linarith)
  rw [truncRat_neg, Int.floor_neg] at hneg
  omega

theorem truncRat_intCast (i : Int) : truncRat i = i := by
  simp [truncRat]

/-- Without its fraction a number is in the range of `int`. -/
theorem truncRat_range {q : ℚ} (hlo : -2147483649 < q) (hhi : q < 2147483648) :
    -2147483648 ≤ truncRat q ∧ truncRat q < 2147483648 := by
  rcases le_total 0 q with h | h
  · rw [truncRat_of_nonneg h]
    exact ⟨le_trans (by norm_num) (Int.floor_nonneg.2 h), Int.floor_lt.2 (by exact_mod_cast hhi)⟩
  · rw [truncRat_of_nonpos h]
    have hlt : (-2147483649 : Int) < ⌈q⌉ := Int.lt_ceil.2 (by exact_mod_cast hlo)
    have hle : ⌈q⌉ ≤ 0 := Int.ceil_le.2 (by exact_mod_cast h)
    omega

theorem exactMachine_casts : exactMachine.Casts where
  trunc r q hr hlo hhi := by
    obtain ⟨h, h'⟩ := truncRat_range hlo hhi
    have : exactMachine.toInt r = BitVec.ofInt 32 (truncRat q) := by
      simp only [exactMachine, hr, truncRat]
    rw [this, BitVec.toInt_ofInt, Int.bmod_eq_of_le (by omega) (by omega)]

section
variable {L : Type} (ar : Arith L)

/-- `(int)r` of an operand. -/
def Val.cast : Val → CInt
  | .int i _ => i
  | v => ar.toInt (v.toReal ar)

variable {ar}

/-- An integer survives `__entity_to_real` and the cast back. -/
theorem Arith.Casts.toInt_toReal (hc : ar.Casts) (v : Val) : ar.toInt (v.toReal ar) = v.cast ar := by
  cases v with
  | null | real | str => rfl
  | int i z =>
    have hlo := BitVec.le_toInt i
    have hhi := BitVec.toInt_lt (x := i)
    refine BitVec.eq_of_toInt_eq ?_
    rw [hc.trunc _ i.toInt rfl (by exact_mod_cast (by omega)) (by exact_mod_cast (by omega)),
      truncRat_intCast]
    rfl

/-- A number that is 0 is cast to 0. -/
theorem Arith.Casts.toInt_zero (hc : ar.Casts) {r : Double} (h : Double.isZero r = true) :
    ar.toInt r = 0 := by
  have hr : r.toRat = some 0 := by
    cases r with
    | fin q =>
      cases of_decide_eq_true h
      rfl
    | negZero => rfl
    | inf | nan => cases h
  refine BitVec.eq_of_toInt_eq ?_
  rw [hc.trunc r 0 hr (by norm_num) (by norm_num)]
  rfl

/-! ## What the opcodes are to do -/

/-- `OP_Divide` and `OP_Remainder`. -/
def ArithOp.divides (op : ArithOp) : Bool := op = .divide ∨ op = .remainder

/-- `i` is the result of `op` for two integers: the sum, difference or product modulo 2³², the
quotient or the remainder of the division that truncates toward 0. -/
def ArithOp.Exact (op : ArithOp) (b a i : CInt) : Prop :=
  match op with
  | .add => i.toInt % 2 ^ 32 = (b.toInt + a.toInt) % 2 ^ 32
  | .subtract => i.toInt % 2 ^ 32 = (b.toInt - a.toInt) % 2 ^ 32
  | .multiply => i.toInt % 2 ^ 32 = (b.toInt * a.toInt) % 2 ^ 32
  | .divide => i.toInt = b.toInt.tdiv a.toInt
  | .remainder => i.toInt = b.toInt.tmod a.toInt

variable (ar)

/-- `res` is what `op` is to do with the operands; a trap is no result. -/
structure ArithOp.Meets (op : ArithOp) (nos tos : Val) (res : Option Val) : Prop where
  noTrap : res ≠ none
  null : nos.isNull ∨ tos.isNull → res = some .null
  zero : op.divides → Double.isZero (tos.toReal ar) → res = some .null
  exact : ∀ b zb a za, nos = .int b zb → tos = .int a za → (op.divides → a ≠ 0) →
    ∃ i, res = some (.int i none) ∧ op.Exact b a i

/-- The smallest `int` is to be divided by -1. -/
def ArithOp.Overflow (op : ArithOp) (nos tos : Val) : Prop :=
  match op with
  | .divide => ∃ z z', nos = .int (.intMin 32) z ∧ tos = .int (-1) z'
  | .remainder =>
    nos.isNull = false ∧ tos.isNull = false ∧ nos.cast ar = .intMin 32 ∧ tos.cast ar = -1
  | .add | .subtract | .multiply => False

/-! ## When they do -/

theorem traps_iff {b a : CInt} : traps b a = true ↔ b = .intMin 32 ∧ a = -1 := by
  simp [traps]

/-- Two integers that do not overflow. -/
theorem intArith_exact {op : ArithOp} {b a : CInt} (hz : op.divides → a ≠ 0)
    (ht : op.divides → traps b a = false) :
    ∃ i, intArith op b a = some (.int i none) ∧ op.Exact b a i := by
  cases op with
  | add => exact ⟨_, rfl, by rw [ArithOp.Exact, BitVec.toInt_add]; exact Int.bmod_emod⟩
  | subtract => exact ⟨_, rfl, by rw [ArithOp.Exact, BitVec.toInt_sub]; exact Int.bmod_emod⟩
  | multiply => exact ⟨_, rfl, by rw [ArithOp.Exact, BitVec.toInt_mul]; exact Int.bmod_emod⟩
  | divide =>
    have ht := ht rfl
    refine ⟨b.sdiv a, by rw [intArith, if_neg (hz rfl), ht]; rfl, ?_⟩
    refine BitVec.toInt_sdiv_of_ne_or_ne b a ?_
    by_contra hc
    push Not at hc
    rw [traps_iff.2 hc] at ht
    cases ht
  | remainder =>
    have ht := ht rfl
    exact ⟨b.srem a, by rw [intArith, if_neg (hz rfl), ht]; rfl, BitVec.toInt_srem b a⟩

/-- Two integers trap if a division overflows. -/
theorem intArith_eq_none {op : ArithOp} {b a : CInt} :
    intArith op b a = none ↔ op.divides ∧ traps b a := by
  have ha : traps b a = true → a ≠ 0 := fun h => by
    rw [(traps_iff.1 h).2]
    decide
  cases op with
  | add | subtract | multiply => simp [intArith, ArithOp.divides]
  | divide | remainder =>
    by_cases hz : a = 0
    · simp only [intArith, if_pos hz, reduceCtorEq, false_iff, not_and]
      exact fun _ h => ha h hz
    · simp only [intArith, if_neg hz]
      cases traps b a <;> simp [ArithOp.divides]

/-- Other operands trap if a remainder overflows after the casts. -/
theorem realArith_eq_none {op : ArithOp} {b a : Double} :
    realArith ar op b a = none ↔ op = .remainder ∧ traps (ar.toInt b) (ar.toInt a) := by
  cases op with
  | add | subtract | multiply => simp [realArith]
  | divide => by_cases hz : Double.isZero a <;> simp [realArith, hz]
  | remainder =>
    by_cases hz : ar.toInt a = 0
    · simp only [realArith, if_pos hz, reduceCtorEq, true_and, false_iff]
      intro h
      rw [(traps_iff.1 h).2] at hz
      exact absurd hz (by decide)
    · simp only [realArith, if_neg hz]
      cases traps (ar.toInt b) (ar.toInt a) <;> simp

/-- A zero divisor gives NULL. -/
theorem realArith_zero {ar : Arith L} (hc : ar.Casts) {op : ArithOp} {b a : Double}
    (hd : op.divides) (hz : Double.isZero a = true) : realArith ar op b a = some .null := by
  cases op with
  | add | subtract | multiply => cases hd
  | divide => exact if_pos hz
  | remainder => exact if_pos (hc.toInt_zero hz)

/-- Neither operand is NULL and not both are integers. -/
theorem opArith_real {ar : Arith L} {op : ArithOp} {nos tos : Val} (hn : nos.isNull = false)
    (ht : tos.isNull = false) (h : ∀ b zb a za, nos = .int b zb → tos ≠ .int a za) :
    opArith ar op nos tos = realArith ar op (nos.toReal ar) (tos.toReal ar) := by
  unfold opArith
  rw [if_neg (by simp [hn, ht])]
  split
  · exact absurd rfl (h _ _ _ _ rfl)
  · rfl

/-- The two ways to have no result. -/
theorem opArith_eq_none {ar : Arith L} (hc : ar.Casts) (op : ArithOp) (nos tos : Val) :
    opArith ar op nos tos = none ↔ op.Overflow ar nos tos := by
  by_cases hnull : (tos.isNull || nos.isNull) = true
  · have hres : opArith ar op nos tos = some .null := if_pos hnull
    rw [hres]
    refine iff_of_false (by simp) fun h => ?_
    cases op with
    | add | subtract | multiply => exact h
    | divide =>
      obtain ⟨z, z', rfl, rfl⟩ := h
      cases hnull
    | remainder =>
      obtain ⟨hn, ht, -⟩ := h
      simp [hn, ht] at hnull
  · obtain ⟨ht, hn⟩ : tos.isNull = false ∧ nos.isNull = false := by simpa using hnull
    by_cases hint : ∃ b zb a za, nos = .int b zb ∧ tos = .int a za
    · obtain ⟨b, zb, a, za, rfl, rfl⟩ := hint
      change intArith op b a = none ↔ _
      rw [intArith_eq_none, traps_iff]
      cases op <;> simp [ArithOp.divides, ArithOp.Overflow, Val.isNull, Val.cast]
    · have hreal : ∀ b zb a za, nos = .int b zb → tos ≠ .int a za :=
        fun b zb a za hb ha => hint ⟨b, zb, a, za, hb, ha⟩
      rw [opArith_real hn ht hreal, realArith_eq_none, traps_iff, hc.toInt_toReal, hc.toInt_toReal]
      cases op with
      | add | subtract | multiply => simp [ArithOp.Overflow]
      | divide =>
        refine iff_of_false (by simp) ?_
        rintro ⟨z, z', h, h'⟩
        exact hreal _ _ _ _ h h'
      | remainder => simp [ArithOp.Overflow, hn, ht]

/-- For every two operands the opcodes do what they are to do if and only if the smallest `int` is
not to be divided by -1. -/
theorem opArith_meets_iff {ar : Arith L} (hc : ar.Casts) (op : ArithOp) (nos tos : Val) :
    op.Meets ar nos tos (opArith ar op nos tos) ↔ ¬ op.Overflow ar nos tos := by
  rw [← opArith_eq_none hc]
  refine ⟨fun h => h.noTrap, fun h => ⟨h, fun hnull => ?_, fun hd hz => ?_, ?_⟩⟩
  · exact if_pos (by simpa [or_comm] using hnull)
  · by_cases hnull : (tos.isNull || nos.isNull) = true
    · exact if_pos hnull
    · obtain ⟨ht, hn⟩ : tos.isNull = false ∧ nos.isNull = false := by simpa using hnull
      by_cases hint : ∃ b zb a za, nos = .int b zb ∧ tos = .int a za
      · obtain ⟨b, zb, a, za, rfl, rfl⟩ := hint
        have ha : a = 0 := BitVec.eq_of_toInt_eq (by exact_mod_cast of_decide_eq_true hz)
        change intArith op b a = some .null
        cases op with
        | add | subtract | multiply => cases hd
        | divide | remainder => exact if_pos ha
      · rw [opArith_real hn ht fun b zb a za hb ha => hint ⟨b, zb, a, za, hb, ha⟩]
        exact realArith_zero hc hd hz
  · rintro b zb a za rfl rfl hz
    refine intArith_exact hz fun hd => ?_
    by_contra ht
    exact h (intArith_eq_none.2 ⟨hd, by simpa using ht⟩)

/-- 7 / -2 on a machine that does not round. -/
theorem opArith_meets_iff_seven :
    exactMachine.Casts ∧ ArithOp.divide.Meets exactMachine (.int 7 none) (.int (-2) none)
      (opArith exactMachine .divide (.int 7 none) (.int (-2) none)) :=
  ⟨exactMachine_casts, (opArith_meets_iff exactMachine_casts _ _ _).2 fun ⟨z, z', h, _⟩ => by
    injection h with h
    exact absurd h (by decide)⟩

/-- `SELECT (-2147483647 - 1) / -1` traps. -/
theorem opArith_meets_fails :
    opArith exactMachine .subtract (.int (-2147483647) none) (.int 1 none) =
        some (.int (.intMin 32) none) ∧
      ¬ ArithOp.divide.Meets exactMachine (.int (.intMin 32) none) (.int (-1) none)
        (opArith exactMachine .divide (.int (.intMin 32) none) (.int (-1) none)) :=
  ⟨rfl, fun h => h.noTrap rfl⟩

end

end Dbsql.L3
