import Dbsql.L1Encoding.Format
/-!
# The conversions of `double` (clib/xvprintf.c:412-607)

`%f`, `%e` and `%g` scale the value to one digit before the point, and take its digits off one by
one. The arithmetic is the machine's (`RealMachine`). Whatever that gives, the loops end: each of
the four that scale counts up to 100, and more than that prints `NaN`.

Results:
* `realText_fits`: the text and what was written beside it fit the buffer.
-/
namespace Dbsql.L1.Printf
open Dbsql.L1

/-- The arithmetic of the conversions. -/
structure RealMachine (L : Type) extends LongDouble L where
  ofDouble : Double → L
  sub : L → L → L
  lt : L → L → Bool
  le : L → L → Bool
  /-- the cast to `int` -/
  toInt : L → Int
  /-- `rounder *= 0.1`, on a `double` -/
  tenth : Double → Double

/-- What a conversion leaves: the text at the front of the buffer, and how many bytes of the buffer
it has written; or the constant `NaN`; or it has read `charset[0]`, which `%f` does not have. -/
inductive RealOut
  | nan
  | noCharset
  | text (z : Bytes) (written : Nat)
  deriving DecidableEq, Repr

section
variable {L : Type} (m : RealMachine L)

/-- `prefix`, where 0 is none. -/
def signOf (sp : Spec) (neg : Bool) : Bytes :=
  if neg then [45] else if sp.plussign then [43] else if sp.blanksign then [32] else []

/-- `for(idx = precision, rounder = 0.5; idx > 0; idx--, rounder *= 0.1)`. -/
def rounderOf (precision : Int) : L := m.ofDouble (m.tenth^[precision.toNat] (.fin (1 / 2)))

/-- `while(… && k++ < 100)`, where `n` is what is left of the 100. -/
def scaleLoop (cond : L → Bool) (step : L → L) (d : Int) : Nat → L × Int → (L × Int) × Nat
  | 0, p => (p, 0)
  | n + 1, (v, exp) =>
    if cond v then scaleLoop cond step d n (step v, exp + d) else ((v, exp), n + 1)

/-- The value scaled into [1, 10), and `exp`; `none` for more than 100 rounds. -/
def scaleReal (v : L) : Option (L × Int) :=
  if m.lt (m.lit 0) v then
    let (p, n) := scaleLoop (fun v => m.le (m.lit (10 ^ 8)) v) (fun v => m.mul v (m.lit (1 / 10 ^ 8))) 8
      100 (v, 0)
    let (p, n) := scaleLoop (fun v => m.le (m.lit 10) v) (fun v => m.mul v (m.lit (1 / 10))) 1 n p
    let (p, n) := scaleLoop (fun v => m.lt v (m.lit (1 / 10 ^ 8))) (fun v => m.mul v (m.lit (10 ^ 8))) (-8)
      n p
    let (p, n) := scaleLoop (fun v => m.lt v (m.lit 1)) (fun v => m.mul v (m.lit 10)) (-1) n p
    if n = 0 then none else some p
  else some (v, 0)

/-- `et_getdigit` `n` times: the digits, and `*val` and `*cnt`. -/
def getDigits : Nat → L × Nat → Bytes × (L × Nat)
  | 0, p => ([], p)
  | n + 1, (val, cnt) =>
    if 16 ≤ cnt then
      let (ds, p) := getDigits n (val, cnt + 1)
      (48 :: ds, p)
    else
      let digit := m.toInt val
      let (ds, p) := getDigits n (m.mul (m.sub val (m.lit digit)) (m.lit 10), cnt + 1)
      (.ofInt (digit + 48) :: ds, p)

/-- `Remove trailing zeros and "."`. -/
def stripZeros (z : Bytes) : Bytes :=
  match z.reverse.dropWhile (· = 48) with
  | 46 :: z => z.reverse
  | z => z.reverse

/-- The digits around the point: the text before zeros are removed. -/
def fixedText (sp : Spec) (sign : Bytes) (v : L) (exp precision : Int) : Bytes :=
  let dp := 0 < precision || sp.alternateform
  let (whole, p) := if exp < 0 then ([48], (v, 0)) else getDigits m (exp + 1).toNat (v, 0)
  let zeros := min (-(exp + 1)) precision
  sign ++ whole ++ (if dp then [46] else []) ++ List.replicate zeros.toNat 48 ++
    (getDigits m (precision - max zeros 0).toNat p).1

/-- One digit, the point and the others. -/
def mantissaText (sp : Spec) (sign : Bytes) (v : L) (precision : Int) : Bytes :=
  let dp := 0 < precision || sp.alternateform
  let (first, p) := getDigits m 1 (v, 0)
  sign ++ first ++ (if dp then [46] else []) ++ (getDigits m precision.toNat p).1

/-- `e`, the sign and at least two digits. -/
def exponentText (info : EtInfo) (exp : Int) : Bytes :=
  let e := exp.natAbs
  info.charset.take 1 ++ [if exp < 0 then 45 else 43] ++
    (if 100 ≤ e then [UInt8.ofNat (e / 100 + 48)] else []) ++
    [UInt8.ofNat (e % 100 / 10 + 48), UInt8.ofNat (e % 10 + 48)]

/-- `Add leading zeros if the flag_zeropad flag is set and we are not left justified`. -/
def padZeros (sp : Spec) (sign text : Bytes) (written : Nat) : RealOut :=
  if sp.zeropad ∧ ¬ sp.leftjustify ∧ (text.length : Int) < sp.width then
    .text (text.take sign.length ++ List.replicate (sp.width - text.length).toNat 48 ++
      text.drop sign.length) (max written (sp.width.toNat + 1))
  else .text text written

/-- `%g` becomes `%e` for a small or a large exponent, else `%f`. -/
def asExp (info : EtInfo) (exp precision : Int) : Bool :=
  info.type = .exp || info.type = .generic && (exp < -4 || precision < exp)

/-- The precision it then has. -/
def restPrecision (info : EtInfo) (exp precision : Int) : Int :=
  if info.type = .generic ∧ asExp info exp precision = false then precision - exp else precision

/-- The text of a scaled value (xvprintf.c:493-580). -/
def realDigits (sp : Spec) (info : EtInfo) (sign : Bytes) (v : L) (exp precision : Int) : RealOut :=
  let fixed := !asExp info exp precision
  let precision := restPrecision info exp precision
  let rtz := info.type = .generic ∧ ¬ sp.alternateform
  let strip (z : Bytes) := if rtz ∧ (0 < precision ∨ sp.alternateform) then stripZeros z else z
  if fixed ∧ exp + precision < 994 then
    let z := fixedText m sp sign v exp precision
    padZeros sp sign (strip z) (z.length + 1)
  else
    let z := mantissaText m sp sign v precision
    if exp = 0 ∧ info.type ≠ .exp then padZeros sp sign (strip z) z.length
    else if info.charset = [] then .noCharset
    else
      let text := strip z ++ exponentText info exp
      padZeros sp sign text (max z.length text.length)

/-- The precision before it is known whether `%g` is `%e`. -/
def realPrecision (sp : Spec) (info : EtInfo) : Int :=
  let precision := if sp.precision < 0 then 6 else sp.precision
  let precision := if 1014 < precision then 1014 else precision
  if info.type = .generic ∧ 0 < precision then precision - 1 else precision

/-- `%f`, `%e`, `%E`, `%g` and `%G` (xvprintf.c:412-607). -/
def realText (sp : Spec) (info : EtInfo) (r : Double) : RealOut :=
  let v := m.ofDouble r
  let neg := m.lt v (m.lit 0)
  let v := if neg then m.neg v else v
  let sign := signOf sp neg
  let precision := realPrecision sp info
  let rounder := rounderOf m precision
  let v := if info.type = .float then m.add v rounder else v
  match scaleReal m v with
  | none => .nan
  | some (v, exp) =>
    let v := if info.type ≠ .float then m.add v rounder else v
    if info.type ≠ .float ∧ m.le (m.lit 10) v then
      realDigits m sp info sign (m.mul v (m.lit (1 / 10))) (exp + 1) precision
    else realDigits m sp info sign v exp precision

end

/-! ## The buffer -/

section
variable {L : Type} {m : RealMachine L}

theorem getDigits_length (n : Nat) (p : L × Nat) : (getDigits m n p).1.length = n := by
  induction n generalizing p with
  | zero => rfl
  | succ n ih =>
    unfold getDigits
    split
    · rw [List.length_cons, ih]
    · rw [List.length_cons, ih]

theorem signOf_length (sp : Spec) (neg : Bool) : (signOf sp neg).length ≤ 1 := by
  unfold signOf
  split
  · exact Nat.le_refl 1
  split
  · exact Nat.le_refl 1
  split
  · exact Nat.le_refl 1
  · exact Nat.zero_le 1

theorem stripZeros_length (z : Bytes) : (stripZeros z).length ≤ z.length := by
  have hdrop := (List.dropWhile_sublist (· = (48 : UInt8)) (l := z.reverse)).length_le
  rw [List.length_reverse] at hdrop
  unfold stripZeros
  split
  · rename_i heq
    rw [heq, List.length_cons] at hdrop
    rw [List.length_reverse]
    omega
  · rw [List.length_reverse]
    exact hdrop

theorem fixedText_length (sp : Spec) {sign : Bytes} (hsign : sign.length ≤ 1)
    (v : L) {exp precision : Int}
    (hp : 0 ≤ precision) (hfit : exp + precision < 994) (hsmall : precision ≤ 1014) :
    (fixedText m sp sign v exp precision).length ≤ 1019 := by
  have hdot : (if (0 < precision || sp.alternateform) = true then [(46 : UInt8)] else []).length ≤
      1 := by
    split
    · exact Nat.le_refl 1
    · exact Nat.zero_le 1
  unfold fixedText
  dsimp only
  simp only [List.length_append, List.length_replicate, getDigits_length]
  split
  · rw [List.length_singleton]
    omega
  · rw [getDigits_length]
    omega

theorem mantissaText_length (sp : Spec) {sign : Bytes} (hsign : sign.length ≤ 1)
    (v : L) {precision : Int}
    (hp : 0 ≤ precision) (hsmall : precision ≤ 984) :
    (mantissaText m sp sign v precision).length ≤ 987 := by
  have hdot : (if (0 < precision || sp.alternateform) = true then [(46 : UInt8)] else []).length ≤
      1 := by
    split
    · exact Nat.le_refl 1
    · exact Nat.zero_le 1
  unfold mantissaText
  dsimp only
  simp only [List.length_append, getDigits_length]
  omega

theorem exponentText_length (info : EtInfo) (exp : Int) : (exponentText info exp).length ≤ 5 := by
  have htake : (info.charset.take 1).length ≤ 1 := List.length_take_le 1 _
  unfold exponentText
  dsimp only
  simp only [List.length_append, List.length_cons, List.length_nil]
  split
  · rw [List.length_singleton]
    omega
  · rw [List.length_nil]
    omega

/-- A text within what was written, within the buffer. -/
def RealOut.Fits : RealOut → Prop
  | .text z written => z.length ≤ written ∧ written ≤ 1024
  | _ => True

theorem padZeros_fits {sp : Spec} (hw : sp.width ≤ 1014) {sign text : Bytes} {written : Nat}
    (hle : text.length ≤ written) (hwr : written ≤ 1024) : (padZeros sp sign text written).Fits := by
  unfold padZeros
  split
  · rename_i h
    refine ⟨?_, by omega⟩
    have := List.length_take (l := text) (i := sign.length)
    simp only [List.length_append, List.length_replicate, List.length_take, List.length_drop]
    omega
  · exact ⟨hle, hwr⟩

theorem realPrecision_bounds {sp : Spec} (hp : sp.precision ≤ 984) (info : EtInfo) :
    0 ≤ realPrecision sp info ∧ realPrecision sp info ≤ 984 := by
  unfold realPrecision
  dsimp only
  split
  · split
    · omega
    · omega
  · split
    · omega
    · omega

theorem restPrecision_bounds (info : EtInfo) (exp : Int) {precision : Int} (hp : 0 ≤ precision)
    (hp' : precision ≤ 984) :
    0 ≤ restPrecision info exp precision ∧ restPrecision info exp precision ≤ 988 ∧
      (restPrecision info exp precision ≤ 984 ∨ exp + restPrecision info exp precision < 994 ∧
        asExp info exp precision = false) := by
  unfold restPrecision
  split
  · rename_i h
    have hexp := h.2
    unfold asExp at hexp
    simp only [h.1, decide_true, Bool.true_and, Bool.or_eq_false_iff, decide_eq_false_iff_not] at hexp
    exact ⟨by omega, by omega, .inr ⟨by omega, h.2⟩⟩
  · omega

theorem realDigits_fits {sp : Spec} (hw : sp.width ≤ 1014) (info : EtInfo) {sign : Bytes}
    (hsign : sign.length ≤ 1) (v : L) (exp : Int) {precision : Int} (hp : 0 ≤ precision)
    (hp' : precision ≤ 984) : (realDigits m sp info sign v exp precision).Fits := by
  obtain ⟨h0, h988, hsmall⟩ := restPrecision_bounds info exp hp hp'
  unfold realDigits
  dsimp only
  generalize restPrecision info exp precision = p at h0 h988 hsmall ⊢
  have hstrip : ∀ z : Bytes, (if (info.type = .generic ∧ ¬ sp.alternateform = true) ∧
      (0 < p ∨ sp.alternateform = true) then stripZeros z else z).length ≤ z.length := by
    intro z
    split
    · exact stripZeros_length z
    · exact Nat.le_refl _
  split
  · rename_i h
    have hz := fixedText_length (m := m) sp hsign v h0 h.2 (by omega)
    have := hstrip (fixedText m sp sign v exp p)
    exact padZeros_fits hw (by omega) (by omega)
  · rename_i h
    have hp984 : p ≤ 984 := by
      rcases hsmall with hle | ⟨hlt, hexp⟩
      · exact hle
      · exact absurd ⟨by rw [hexp]; rfl, hlt⟩ h
    have hz := mantissaText_length (m := m) sp hsign v h0 hp984
    have := hstrip (mantissaText m sp sign v p)
    split
    · exact padZeros_fits hw this (by omega)
    split
    · trivial
    · have he := exponentText_length info exp
      refine padZeros_fits hw (Nat.le_max_right _ _) ?_
      rw [List.length_append]
      omega

/-- **The text fits the buffer.** -/
theorem realText_fits {sp : Spec} (hw : sp.width ≤ 1014) (hp : sp.precision ≤ 984) (info : EtInfo)
    (r : Double) : (realText m sp info r).Fits := by
  obtain ⟨h0, h984⟩ := realPrecision_bounds hp info
  unfold realText
  dsimp only
  split
  · trivial
  · rename_i v exp _
    generalize (if info.type ≠ .float then m.add v (rounderOf m (realPrecision sp info)) else v) = v'
    split
    · exact realDigits_fits hw info (signOf_length sp _) _ _ h0 h984
    · exact realDigits_fits hw info (signOf_length sp _) _ _ h0 h984

end

end Dbsql.L1.Printf
