import Dbsql.L1Encoding.Printf
import Mathlib.Data.Nat.Digits.Lemmas
/-!
# Integer conversions and the C standard

`standard` is the text that the C standard asks of `%d %i %o %u %x %X`: the digits, at least as
many as the precision says, and none for the value 0 with precision 0; with the flag `#`, one more
zero in front of an octal number that does not begin with one, and `0x` in front of a hexadecimal
number that is not 0; with the flag `0`, zeros up to the width, unless there is a precision or the
flag `-`.

`__et_printf` leaves the prefix at the hexadecimal 0 on purpose. `standard` has that as a parameter.
`Regular` leaves out what it misses: the precision 0, the flag `0` where it counts for nothing or
stands beside `#`, and an `unsigned int` whose highest bit is set.

Results:
* `radixText_standard_iff`: the text is that of the standard exactly when it is regular.
* `convert_standard`: every integer conversion stays in its buffer, and hands over that text.
-/
namespace Dbsql.L1.Printf
open Dbsql.L1

/-! ## The standard -/

/-- A digit; `upper` takes `A` to `F`. -/
def digitOf (upper : Bool) (d : Nat) : UInt8 :=
  UInt8.ofNat (if d < 10 then 48 + d else if upper then 55 + d else 87 + d)

/-- The digits of a number, of which 0 has none. -/
@[grind =] def numeral (base : Nat) (upper : Bool) (v : Nat) : Bytes :=
  ((Nat.digits base v).map (digitOf upper)).reverse

/-- At least `n` digits. -/
@[grind =] def expand (n : Nat) (digits : Bytes) : Bytes := List.replicate (n - digits.length) 48 ++ digits

/-- The value of an argument. -/
def Arg.value (signed : Bool) : Arg → Int
  | .int i => if signed then i.toInt else i.toNat
  | .long l => if signed then l.toInt else l.toNat
  | _ => 0

/-- The sign of a value. -/
def signFor (sp : Spec) (info : EtInfo) (x : Int) : Bytes :=
  if ¬ info.signed then []
  else if x < 0 then [45] else if sp.plussign then [43] else if sp.blanksign then [32] else []

/-- What C prints of a value, without its field; `keep` says that 0 has the prefix `0x` too. -/
def standardText (keep : Bool) (sp : Spec) (info : EtInfo) (x : Int) : Bytes :=
  let digits := numeral info.base (info.fmttype = 88) x.natAbs
  let text := expand (if sp.precision < 0 then 1 else sp.precision.toNat) digits
  let text := if sp.alternateform ∧ info.base = 8 ∧ peek text ≠ 48 then 48 :: text else text
  let pre := if sp.alternateform ∧ info.base = 16 ∧ (x ≠ 0 ∨ keep) then [48, info.fmttype] else []
  let pre := signFor sp info x ++ pre
  let zeros :=
    if sp.zeropad ∧ ¬ sp.leftjustify ∧ sp.precision < 0 then (sp.width - pre.length - text.length).toNat
    else 0
  pre ++ List.replicate zeros 48 ++ text

/-- What C prints for an argument. -/
def standard (keep : Bool) (sp : Spec) (info : EtInfo) (a : Arg) : Bytes :=
  sp.field (standardText keep sp info (a.value info.signed))

/-- The digits that a value has in any case. -/
def leastDigits (sp : Spec) (info : EtInfo) (x : Int) : Nat :=
  let digits := numeral info.base (info.fmttype = 88) x.natAbs
  if sp.alternateform ∧ info.base = 8 then digits.length + 1 else max 1 digits.length

/-- The conversions that `__et_printf` does as the standard says. -/
structure Regular (sp : Spec) (info : EtInfo) (a : Arg) : Prop where
  /-- an `unsigned int` is fetched as an `int` -/
  fetched : ∀ i, a = .int i → info.signed = true ∨ i.toNat < 2 ^ 31
  /-- the value 0 with the precision 0 -/
  zero : a.value info.signed = 0 → sp.precision = 0 → sp.alternateform = true ∧ info.base = 8
  /-- the flag `0` beside `-`, a precision or `0x`, where it would add zeros -/
  zeropad : sp.zeropad = true →
    sp.leftjustify = true ∨ 0 ≤ sp.precision ∨ sp.alternateform = true ∧ info.base = 16 →
    sp.width - (signFor sp info (a.value info.signed)).length ≤
      max sp.precision (leastDigits sp info (a.value info.signed))

/-! ## Digits -/

/-- The loop of the digits makes the numeral, and makes one digit of 0. -/
theorem radixDigits_eq (cset : Bytes) {base : Nat} (hb : 1 < base) (n v : Nat) (text : Bytes)
    (hn : v < base ^ (n + 1)) : radixDigits cset base (n + 1) v text =
      (if v = 0 then [cset.getD 0 0] else ((Nat.digits base v).map (cset.getD · 0)).reverse) ++
        text := by
  induction n generalizing v text with
  | zero =>
    rw [Nat.zero_add, Nat.pow_one] at hn
    unfold radixDigits
    dsimp only
    rw [Nat.div_eq_of_lt hn, Nat.mod_eq_of_lt hn, if_neg (Nat.lt_irrefl 0)]
    split
    · rename_i h0
      rw [h0]
      rfl
    · rename_i h0
      rw [Nat.digits_of_lt base v h0 hn]
      rfl
  | succ n ih =>
    have hdiv : v / base < base ^ (n + 1) := by
      rw [Nat.div_lt_iff_lt_mul (by omega), ← Nat.pow_succ]
      exact hn
    unfold radixDigits
    dsimp only
    split
    · rename_i hpos
      have h0 : v ≠ 0 := by
        rintro rfl
        rw [Nat.zero_div] at hpos
        exact Nat.lt_irrefl 0 hpos
      rw [ih _ _ hdiv, if_neg (by omega), if_neg h0, Nat.digits_eq_cons_digits_div hb h0,
        List.map_cons,
        List.reverse_cons, List.append_assoc, List.singleton_append]
    · rename_i hzero
      have hlt : v < base := by
        rw [Nat.not_lt, Nat.le_zero, Nat.div_eq_zero_iff] at hzero
        omega
      rw [Nat.mod_eq_of_lt hlt]
      split
      · rename_i h0
        rw [h0]
        rfl
      · rename_i h0
        rw [Nat.digits_of_lt base v h0 hlt]
        rfl

/-- The rows of the table that convert integers. -/
theorem radix_rows {info : EtInfo} (h : info ∈ fmtinfo) (ht : info.type = .radix) :
    (∀ d < info.base, info.charset.getD d 0 = digitOf (info.fmttype = 88) d) ∧
    (info.base = 10 ∧ info.pre = [] ∨ info.base = 8 ∧ info.signed = false ∧ info.pre = [48] ∨
      info.base = 16 ∧ info.signed = false ∧ info.pre = [info.fmttype, 48] ∧
        ∀ d < 16, digitOf (info.fmttype = 88) d ≠ info.fmttype) := by
  have hall : ∀ info ∈ fmtinfo, info.type = .radix →
      (∀ d < info.base, info.charset.getD d 0 = digitOf (info.fmttype = 88) d) ∧
      (info.base = 10 ∧ info.pre = [] ∨ info.base = 8 ∧ info.signed = false ∧ info.pre = [48] ∨
        info.base = 16 ∧ info.signed = false ∧ info.pre = [info.fmttype, 48] ∧
          ∀ d < 16, digitOf (info.fmttype = 88) d ≠ info.fmttype) := by
    decide +kernel
  exact hall info h ht

section
variable {info : EtInfo}

theorem base_gt (h : info ∈ fmtinfo) (ht : info.type = .radix) : 1 < info.base := by
  obtain ⟨-, h | h | h⟩ := radix_rows h ht
  · omega
  · omega
  · omega

/-- The digits of a `long` have the first of them also when it is 0. -/
theorem digits_expand (h : info ∈ fmtinfo) (ht : info.type = .radix) (v : Nat) (hv : v < 2 ^ 64) :
    radixDigits info.charset info.base 64 v [] =
      expand 1 (numeral info.base (info.fmttype = 88) v) := by
  have hb := base_gt h ht
  obtain ⟨hset, -⟩ := radix_rows h ht
  have hpow : v < info.base ^ (63 + 1) := hv.trans_le (Nat.pow_le_pow_left hb 64)
  rw [radixDigits_eq _ hb 63 v [] hpow, List.append_nil]
  unfold numeral
  split
  · rename_i h0
    rw [h0, Nat.digits_zero, hset 0 (by omega)]
    rfl
  · rename_i h0
    have hmap : (Nat.digits info.base v).map (info.charset.getD · 0) =
        (Nat.digits info.base v).map (digitOf (info.fmttype = 88)) :=
      List.map_congr_left fun d hd => hset d (Nat.digits_lt_base hb hd)
    have hlen : 0 < (((Nat.digits info.base v).map (digitOf (info.fmttype = 88))).reverse).length := by
      rw [List.length_reverse, List.length_map]
      exact List.length_pos_iff.2 (Nat.digits_ne_nil_iff_ne_zero.2 h0)
    unfold expand
    rw [hmap, Nat.sub_eq_zero_of_le hlen]
    rfl

end

/-! ## Zeros in front -/

theorem expand_length (n : Nat) (digits : Bytes) : (expand n digits).length = max n digits.length := by
  unfold expand
  rw [List.length_append, List.length_replicate]
  omega

/-- Zeros in front of enough digits are more digits. -/
theorem replicate_expand {n k : Nat} (digits : Bytes) (h : (expand n digits).length ≤ k) :
    List.replicate (k - (expand n digits).length) 48 ++ expand n digits = expand k digits := by
  rw [expand_length] at h ⊢
  unfold expand
  rw [← List.append_assoc, List.replicate_append_replicate]
  congr 2
  omega

theorem expand_le {n : Nat} {digits : Bytes} (h : n ≤ digits.length) : expand n digits = digits := by
  unfold expand
  rw [Nat.sub_eq_zero_of_le h]
  rfl

theorem peek_expand {n : Nat} {digits : Bytes} (h : digits.length < n) :
    peek (expand n digits) = 48 := by
  unfold expand
  obtain ⟨k, hk⟩ : ∃ k, n - digits.length = k + 1 := ⟨n - digits.length - 1, by omega⟩
  rw [hk]
  rfl

/-- `n` digits are `z` zeros and `q` digits exactly when they are as many. -/
theorem expand_eq_iff {n z q : Nat} (digits : Bytes) :
    expand n digits = List.replicate z 48 ++ expand q digits ↔
      max n digits.length = z + max q digits.length := by
  have hn := expand_length n digits
  have hq := expand_length q digits
  constructor
  · intro h
    have hlen := congrArg List.length h
    rw [List.length_append, List.length_replicate] at hlen
    omega
  · intro h
    have hz : z = (z + max q digits.length) - (expand q digits).length := by omega
    rw [hz, replicate_expand digits (by omega), ← h]
    unfold expand
    congr 2
    omega

theorem replicate_append (z q : Nat) (digits : Bytes) :
    List.replicate z 48 ++ expand q digits = expand (z + max q digits.length) digits := by
  apply ((expand_eq_iff digits).2 _).symm
  omega

/-- The zero in front of an octal number. -/
theorem push_zero {digits : Bytes} (hd : peek digits ≠ 48) (n : Nat) :
    (if peek (expand n digits) ≠ 48 then 48 :: expand n digits else expand n digits) =
      expand (max n (digits.length + 1)) digits := by
  by_cases h : digits.length < n
  · rw [peek_expand h, if_neg (fun hne => hne rfl), Nat.max_eq_left h]
  · rw [expand_le (by omega), if_pos hd, Nat.max_eq_right (by omega)]
    unfold expand
    rw [Nat.add_sub_cancel_left]
    rfl

theorem push_octal {digits : Bytes} (hd : peek digits ≠ 48) {x : Int} (h0 : x = 0 → digits.length = 0)
    (n : Nat) : (if ¬ x = 0 then pushPre [48] (expand (max 1 n) digits) else expand (max 1 n) digits) =
      expand (max (max 1 n) (digits.length + 1)) digits := by
  split
  · rw [← push_zero hd]
    unfold pushPre
    have hiff : [(48 : UInt8)] ≠ [] ∧ peek (expand (max 1 n) digits) ≠ peek [48] ↔
        peek (expand (max 1 n) digits) ≠ 48 := and_iff_right (List.cons_ne_nil _ _)
    simp only [hiff]
    rfl
  · rename_i hx
    have hlen := h0 (not_not.1 hx)
    congr 1
    omega

/-- A numeral does not begin with a zero. -/
theorem peek_numeral {base : Nat} (hb : 1 < base) (hle : base ≤ 16) (upper : Bool) (v : Nat) :
    peek (numeral base upper v) ≠ 48 := by
  have hdigit : ∀ d < 16, d ≠ 0 → digitOf upper d ≠ 48 := by
    cases upper with
    | true => decide
    | false => decide
  by_cases h0 : v = 0
  · rw [h0]
    unfold numeral
    rw [Nat.digits_zero]
    show (0 : UInt8) ≠ 48
    decide
  · have hne : Nat.digits base v ≠ [] := Nat.digits_ne_nil_iff_ne_zero.2 h0
    have hlast := Nat.getLast_digit_ne_zero base h0
    have hlt := Nat.digits_lt_base hb (List.getLast_mem hne)
    unfold numeral peek
    rw [← List.map_reverse, List.headD_eq_head?_getD, List.head?_map, List.head?_reverse,
      List.getLast?_eq_getLast_of_ne_nil hne]
    exact hdigit _ (hlt.trans_le hle) hlast

/-- What has a digit begins with one. -/
theorem peek_digit {base n : Nat} (hb : 1 < base) (hn : 1 ≤ n) (upper : Bool) (v : Nat) :
    ∃ d < base, peek (expand n (numeral base upper v)) = digitOf upper d := by
  by_cases h : (numeral base upper v).length < n
  · refine ⟨0, by omega, ?_⟩
    rw [peek_expand h]
    rfl
  · rw [expand_le (by omega)]
    obtain ⟨b, rest, hcons⟩ := List.exists_cons_of_length_pos (l := numeral base upper v) (by omega)
    have hmem : b ∈ numeral base upper v := hcons ▸ List.mem_cons_self
    unfold numeral at hmem
    rw [List.mem_reverse, List.mem_map] at hmem
    obtain ⟨d, hd, rfl⟩ := hmem
    refine ⟨d, Nat.digits_lt_base hb hd, ?_⟩
    rw [hcons]
    rfl

/-! ## The text -/

section
variable {sp : Spec} {info : EtInfo} {a : Arg}

/-- The absolute value of a `long`; that of the smallest fits an `unsigned long`. -/
theorem toNat_abs (l : BitVec 64) : (if l.slt 0 then -l else l).toNat = l.toInt.natAbs := by
  have hlt := l.isLt
  have hslt : l.slt 0 = decide (l.toInt < 0) := rfl
  rw [hslt]
  by_cases h : l.toInt < 0
  · rw [decide_eq_true h, if_pos rfl, BitVec.toNat_neg]
    rw [BitVec.toInt_eq_toNat_cond] at h ⊢
    split at h
    · omega
    · rename_i hbig
      rw [if_neg hbig]
      omega
  · rw [decide_eq_false h, if_neg Bool.false_ne_true]
    rw [BitVec.toInt_eq_toNat_cond] at h ⊢
    split at h
    · rename_i hsmall
      rw [if_pos hsmall]
      omega
    · omega

/-- The value of the argument is found in `longvalue`. -/
theorem longvalue_value (hf : ∀ i, a = .int i → info.signed = true ∨ i.toNat < 2 ^ 31) :
    (info.signed && (longvalue a).slt 0) = decide (info.signed = true ∧ a.value info.signed < 0) ∧
    (if info.signed && (longvalue a).slt 0 then -longvalue a else longvalue a).toNat =
      (a.value info.signed).natAbs := by
  have hslt : ∀ l : BitVec 64, l.slt 0 = decide (l.toInt < 0) := fun _ => rfl
  cases hs : info.signed with
  | true =>
    have hval : a.value true = (longvalue a).toInt := by
      cases a with
      | int i => exact (BitVec.toInt_signExtend_of_le (by omega)).symm
      | long l => rfl
      | _ => rfl
    rw [hval, Bool.true_and, toNat_abs, hslt]
    exact ⟨by simp, rfl⟩
  | false =>
    have hval : a.value false = (longvalue a).toNat := by
      cases a with
      | int i =>
        have hlt : i.toNat < 2 ^ 31 := (hf i rfl).resolve_left (by rw [hs]; exact Bool.false_ne_true)
        have hmsb : i.msb = false := by
          rw [BitVec.msb_eq_decide]
          simpa using hlt
        have hext : (i.signExtend 64).toNat = i.toNat := by
          rw [BitVec.signExtend_eq_setWidth_of_msb_false hmsb, BitVec.toNat_setWidth]
          omega
        exact congrArg Nat.cast hext.symm
      | long l => rfl
      | _ => rfl
    rw [hval]
    exact ⟨by simp, rfl⟩

/-- The precision that `__et_printf` goes by. -/
def usedPrecision (sp : Spec) (info : EtInfo) (x : Int) : Int :=
  let least := sp.width - (signFor sp info x).length
  if sp.zeropad ∧ sp.precision < least then least else sp.precision

theorem signFor_length (sp : Spec) (info : EtInfo) (x : Int) : (signFor sp info x).length ≤ 1 := by
  unfold signFor
  split
  · exact Nat.zero_le 1
  split
  · exact Nat.le_refl 1
  split
  · exact Nat.le_refl 1
  split
  · exact Nat.le_refl 1
  · exact Nat.zero_le 1

/-- `Zero pad` where there is at least one digit. -/
theorem zeroPad_expand {p : Int} (digits : Bytes) (hd : (expand 1 digits).length ≤ 64) (h0 : -1 ≤ p)
    (h1 : p ≤ 1014) : zeroPad p (expand 1 digits) = expand (max 1 p.toNat) digits := by
  have hk : (p - (expand 1 digits).length).toNat = max 1 p.toNat - (expand 1 digits).length := by
    rw [expand_length]
    omega
  unfold zeroPad
  rw [int32_of (by omega) (by omega), hk]
  by_cases hle : (expand 1 digits).length ≤ max 1 p.toNat
  · exact replicate_expand digits hle
  · rw [expand_length] at hle
    rw [Nat.sub_eq_zero_of_le (by rw [expand_length]; omega), expand_le (by omega), expand_le
      (by omega)]
    rfl

/-- The text that `__et_printf` makes, with the value in place of `longvalue`. -/
theorem radixText_eq (hinfo : info ∈ fmtinfo) (ht : info.type = .radix) (hw : 0 ≤ sp.width)
    (hw' : sp.width ≤ 1014) (hp : -1 ≤ sp.precision) (hp' : sp.precision ≤ 984)
    (hf : ∀ i, a = .int i → info.signed = true ∨ i.toNat < 2 ^ 31) :
    radixText sp info (longvalue a) =
      let x := a.value info.signed
      let text := signFor sp info x ++
        expand (max 1 (usedPrecision sp info x).toNat) (numeral info.base (info.fmttype = 88) x.natAbs)
      if sp.alternateform = true ∧ ¬ (x = 0 ∧ info.base = 8) then pushPre info.pre text else text := by
  obtain ⟨hneg, habs⟩ := longvalue_value hf
  have hzero : longvalue a = 0 ↔ a.value info.signed = 0 := by
    rw [← Int.natAbs_eq_zero, ← habs]
    split
    · rw [← BitVec.toNat_inj, BitVec.toNat_neg]
      have := (longvalue a).isLt
      show (longvalue a).toNat = 0 ↔ _
      omega
    · exact BitVec.toNat_inj.symm
  generalize a.value info.signed = x at hneg habs hzero ⊢
  have hsign : (if info.signed then signOf sp (info.signed && (longvalue a).slt 0) else []) =
      signFor sp info x := by
    unfold signFor
    rw [hneg]
    cases info.signed with
    | true => simp [signOf]
    | false => rfl
  have hlen := signFor_length sp info x
  have hlt : x.natAbs < 2 ^ 64 := habs ▸ BitVec.isLt _
  have hdigits := digits_expand hinfo ht _ hlt
  have hshort := radixDigits_length info.charset info.base 64 x.natAbs []
  rw [hdigits, List.length_nil] at hshort
  unfold radixText
  dsimp only
  rw [hsign, habs, hdigits, int32_of (by omega) (by omega)]
  rw [zeroPad_expand _ hshort (by split <;> omega) (by split <;> omega)]
  unfold usedPrecision
  have halt : (sp.alternateform && !(decide (longvalue a = 0) && decide (info.base = 8))) = true ↔
      sp.alternateform = true ∧ ¬ (x = 0 ∧ info.base = 8) := by
    rw [decide_eq_decide.2 hzero, Bool.and_eq_true, Bool.not_eq_true', ← Bool.not_eq_true,
      Bool.and_eq_true,
      decide_eq_true_eq, decide_eq_true_eq]
  simp only [halt]

/-- The digits of an octal number have room for a zero in front, with the flag `#`. -/
def withZero (sp : Spec) (info : EtInfo) (n : Nat) (digits : Bytes) : Nat :=
  if sp.alternateform = true ∧ info.base = 8 then max n (digits.length + 1) else n

/-- The prefix of a hexadecimal number. -/
def hexPrefix (sp : Spec) (info : EtInfo) : Bytes :=
  if sp.alternateform = true ∧ info.base = 16 then [48, info.fmttype] else []

/-- The text of `__et_printf`: sign, prefix and digits. -/
theorem radixText_shape (hinfo : info ∈ fmtinfo) (ht : info.type = .radix) (hw : 0 ≤ sp.width)
    (hw' : sp.width ≤ 1014) (hp : -1 ≤ sp.precision) (hp' : sp.precision ≤ 984)
    (hf : ∀ i, a = .int i → info.signed = true ∨ i.toNat < 2 ^ 31) :
    radixText sp info (longvalue a) =
      let x := a.value info.signed
      let digits := numeral info.base (info.fmttype = 88) x.natAbs
      signFor sp info x ++ (hexPrefix sp info ++
        expand (withZero sp info (max 1 (usedPrecision sp info x).toNat) digits) digits) := by
  rw [radixText_eq hinfo ht hw hw' hp hp' hf]
  obtain ⟨-, hrow⟩ := radix_rows hinfo ht
  generalize a.value info.signed = x
  have hnil : x = 0 → (numeral info.base (info.fmttype = 88) x.natAbs).length = 0 := by
    intro h0
    rw [h0]
    unfold numeral
    rw [Int.natAbs_zero, Nat.digits_zero]
    rfl
  have hunsigned : info.signed = false → signFor sp info x = [] := by
    intro hs
    unfold signFor
    rw [hs]
    rfl
  dsimp only
  generalize (usedPrecision sp info x).toNat = n
  unfold hexPrefix withZero
  by_cases halt : sp.alternateform = true
  · simp only [halt, true_and]
    rcases hrow with ⟨hbase, hpre⟩ | ⟨hbase, hs, hpre⟩ | ⟨hbase, hs, hpre, hhex⟩
    · have hpush : ∀ text : Bytes, pushPre [] text = text := fun _ => if_neg (fun h => h.1 rfl)
      simp [hbase, hpre, hpush]
    · have hpeek := peek_numeral (by omega : 1 < info.base) (by omega) (info.fmttype = 88) x.natAbs
      have hoct := push_octal hpeek hnil n
      simp only [hunsigned hs, hbase, hpre, and_true, if_true, List.nil_append] at hoct ⊢
      exact hoct
    · have hpush : pushPre [info.fmttype, 48]
        (expand (max 1 n) (numeral info.base (info.fmttype = 88) x.natAbs)) =
          [48, info.fmttype] ++ expand (max 1 n) (numeral info.base (info.fmttype = 88) x.natAbs) := by
        obtain ⟨d, hd, hpeek⟩ := peek_digit (by omega : 1 < info.base) (Nat.le_max_left 1 n)
          (info.fmttype = 88) x.natAbs
        refine if_pos ⟨List.cons_ne_nil _ _, ?_⟩
        rw [hpeek]
        exact hhex d (hbase ▸ hd)
      rw [hbase] at hpush
      simp only [hunsigned hs, hbase, hpre, if_true, List.nil_append, hpush]
      simp
  · simp [halt]

/-- The digits that the standard asks for. -/
def askedDigits (sp : Spec) : Nat := if sp.precision < 0 then 1 else sp.precision.toNat

/-- The zeros that the standard puts in front of `n` digits. -/
def askedZeros (sp : Spec) (pre n : Nat) : Nat :=
  if sp.zeropad = true ∧ ¬ sp.leftjustify = true ∧ sp.precision < 0 then (sp.width - pre - n).toNat else 0

/-- The text of the standard: sign, prefix, zeros and digits. -/
theorem standardText_shape (hinfo : info ∈ fmtinfo) (ht : info.type = .radix) (x : Int) :
    standardText true sp info x =
      let digits := numeral info.base (info.fmttype = 88) x.natAbs
      let text := expand (withZero sp info (askedDigits sp) digits) digits
      signFor sp info x ++ (hexPrefix sp info ++
        (List.replicate (askedZeros sp ((signFor sp info x).length + (hexPrefix sp info).length)
          text.length) 48 ++ text)) := by
  have hb := base_gt hinfo ht
  obtain ⟨-, hrow⟩ := radix_rows hinfo ht
  have hle : info.base ≤ 16 := by omega
  have hpeek := peek_numeral hb hle (info.fmttype = 88) x.natAbs
  have hzero := push_zero hpeek (askedDigits sp)
  have htext : (if sp.alternateform = true ∧ info.base = 8 ∧
        peek (expand (askedDigits sp) (numeral info.base (info.fmttype = 88) x.natAbs)) ≠ 48 then
        48 :: expand (askedDigits sp) (numeral info.base (info.fmttype = 88) x.natAbs)
      else expand (askedDigits sp) (numeral info.base (info.fmttype = 88) x.natAbs)) =
      expand (withZero sp info (askedDigits sp) (numeral info.base (info.fmttype = 88) x.natAbs))
        (numeral info.base (info.fmttype = 88) x.natAbs) := by
    unfold withZero
    by_cases h : sp.alternateform = true ∧ info.base = 8
    · rw [if_pos h, ← hzero]
      simp only [h, true_and]
    · rw [if_neg h, if_neg (fun h' => h ⟨h'.1, h'.2.1⟩)]
  unfold askedDigits at htext
  unfold standardText askedDigits askedZeros hexPrefix
  dsimp only
  rw [htext]
  simp only [or_true, and_true, List.length_append, Nat.cast_add, List.append_assoc]

/-- The digits that `__et_printf` makes are as many as the standard asks for, where there are at least
`k` of them, exactly when a precision of 0 makes no difference, and the flag `0` none that is not
asked for. -/
theorem digits_agree_iff (sp : Spec) (hex : Prop) [Decidable hex] (sign : Nat) {k : Nat}
    (hp : -1 ≤ sp.precision) :
    let least := sp.width - sign
    let used := if sp.zeropad = true ∧ sp.precision < least then least else sp.precision
    let asked := askedDigits sp
    max (max 1 used.toNat) k =
        askedZeros sp (sign + if hex then 2 else 0) (max asked k) + max asked k ↔
      (sp.precision = 0 → 0 < k) ∧
        (sp.zeropad = true → sp.leftjustify = true ∨ 0 ≤ sp.precision ∨ hex →
          least ≤ max sp.precision (max 1 k : Nat)) := by
  unfold askedDigits askedZeros
  dsimp only
  by_cases hz : sp.zeropad = true
  · by_cases hl : sp.leftjustify = true
    · simp only [hz, hl, true_and, not_true, false_and, if_false, true_or, true_implies]
      split <;> split <;> omega
    · by_cases hneg : sp.precision < 0
      · have hpos : ¬ 0 ≤ sp.precision := by omega
        by_cases hh : hex
        · simp only [hz, hl, hneg, hpos, hh, true_and, and_true, Bool.false_eq_true,
            not_false_eq_true, if_true,
            or_true, true_implies]
          split <;> omega
        · simp only [hz, hl, hneg, hpos, hh, true_and, and_true, Bool.false_eq_true,
            not_false_eq_true, if_true,
            if_false, or_false, false_implies, implies_true, Nat.add_zero]
          split <;> omega
      · have hpos : 0 ≤ sp.precision := by omega
        simp only [hz, hneg, hpos, true_and, and_false, if_false, or_true, true_or, true_implies]
        split <;> omega
  · simp only [hz, false_and, if_false, false_implies, and_true, Bool.false_eq_true]
    split <;> omega

/-- Whatever the argument, the text is that of the standard exactly when precision and flags say so. -/
theorem radixText_eq_iff (hinfo : info ∈ fmtinfo) (ht : info.type = .radix) (hw : 0 ≤ sp.width)
    (hw' : sp.width ≤ 1014) (hp : -1 ≤ sp.precision) (hp' : sp.precision ≤ 984)
    (hf : ∀ i, a = .int i → info.signed = true ∨ i.toNat < 2 ^ 31) :
    radixText sp info (longvalue a) = standardText true sp info (a.value info.signed) ↔
      (a.value info.signed = 0 → sp.precision = 0 → sp.alternateform = true ∧ info.base = 8) ∧
      (sp.zeropad = true →
        sp.leftjustify = true ∨ 0 ≤ sp.precision ∨ sp.alternateform = true ∧ info.base = 16 →
        sp.width - (signFor sp info (a.value info.signed)).length ≤
          max sp.precision (leastDigits sp info (a.value info.signed))) := by
  rw [radixText_shape hinfo ht hw hw' hp hp' hf, standardText_shape hinfo ht]
  generalize a.value info.signed = x
  have hpos : 0 < (numeral info.base (info.fmttype = 88) x.natAbs).length ↔ x ≠ 0 := by
    rw [← Int.natAbs_ne_zero]
    unfold numeral
    rw [List.length_reverse, List.length_map, List.length_pos_iff, Nat.digits_ne_nil_iff_ne_zero]
  unfold leastDigits
  dsimp only
  generalize numeral info.base (info.fmttype = 88) x.natAbs = digits at hpos ⊢
  have hmax : ∀ n, max (withZero sp info n digits) digits.length =
      max n (withZero sp info digits.length digits) := by
    intro n
    unfold withZero
    split
    · omega
    · rfl
  have hprefix : (hexPrefix sp info).length = if sp.alternateform = true ∧ info.base = 16 then 2
      else 0 := by
    unfold hexPrefix
    split
    · rfl
    · rfl
  have hzero : (sp.precision = 0 → 0 < withZero sp info digits.length digits) ↔
      (x = 0 → sp.precision = 0 → sp.alternateform = true ∧ info.base = 8) := by
    unfold withZero
    split
    · rename_i hoct
      exact iff_of_true (fun _ => by omega) fun _ _ => hoct
    · rename_i hoct
      rw [hpos]
      exact ⟨fun h hx h0 => absurd hx (h h0), fun h h0 hx => hoct (h hx h0)⟩
  have hleast : (if sp.alternateform = true ∧ info.base = 8 then digits.length + 1
    else max 1 digits.length) =
      max 1 (withZero sp info digits.length digits) := by
    unfold withZero
    split
    · omega
    · rfl
  rw [List.append_cancel_left_eq, List.append_cancel_left_eq, expand_eq_iff, expand_length, hmax, hmax,
    hprefix, hleast, ← hzero]
  exact digits_agree_iff sp (sp.alternateform = true ∧ info.base = 16) (signFor sp info x).length hp

/-- **A regular text is that of the standard,** with `0x` also in front of 0. -/
theorem radixText_standard (hinfo : info ∈ fmtinfo) (ht : info.type = .radix) (hw : 0 ≤ sp.width)
    (hw' : sp.width ≤ 1014) (hp : -1 ≤ sp.precision) (hp' : sp.precision ≤ 984)
    (hr : Regular sp info a) :
    radixText sp info (longvalue a) = standardText true sp info (a.value info.signed) :=
  (radixText_eq_iff hinfo ht hw hw' hp hp' hr.fetched).2 ⟨hr.zero, hr.zeropad⟩

/-! ## The number in a text -/

/-- What a byte makes of the number before it; the number begins again after what is no digit. -/
def readDigit (base acc : Nat) (c : UInt8) : Nat :=
  if 48 ≤ c ∧ c ≤ 57 then acc * base + (c.toNat - 48)
  else if 65 ≤ c ∧ c ≤ 70 then acc * base + (c.toNat - 55)
  else if 97 ≤ c ∧ c ≤ 102 then acc * base + (c.toNat - 87)
  else 0

/-- The number at the end of a text. -/
def readBack (base : Nat) (text : Bytes) : Nat := text.foldl (readDigit base) 0

theorem readDigit_digitOf (base acc : Nat) (upper : Bool) {d : Nat} (hd : d < 16) :
    readDigit base acc (digitOf upper d) = acc * base + d := by
  have hsome : ∀ d < 16, (48 ≤ digitOf upper d ∧ digitOf upper d ≤ 57 ∧
    (digitOf upper d).toNat - 48 = d) ∨
      ¬ (48 ≤ digitOf upper d ∧ digitOf upper d ≤ 57) ∧
        (65 ≤ digitOf upper d ∧ digitOf upper d ≤ 70 ∧ (digitOf upper d).toNat - 55 = d) ∨
      ¬ (48 ≤ digitOf upper d ∧ digitOf upper d ≤ 57) ∧
        ¬ (65 ≤ digitOf upper d ∧ digitOf upper d ≤ 70) ∧
        (97 ≤ digitOf upper d ∧ digitOf upper d ≤ 102 ∧ (digitOf upper d).toNat - 87 = d) := by
    cases upper with
    | true => decide
    | false => decide
  unfold readDigit
  rcases hsome d hd with ⟨h, h', hv⟩ | ⟨hn, h, h', hv⟩ | ⟨hn, hn', h, h', hv⟩
  · rw [if_pos ⟨h, h'⟩, hv]
  · rw [if_neg hn, if_pos ⟨h, h'⟩, hv]
  · rw [if_neg hn, if_neg hn', if_pos ⟨h, h'⟩, hv]

theorem foldl_numeral {base : Nat} (hb : 1 < base) (hle : base ≤ 16) (upper : Bool) (v : Nat) :
    (numeral base upper v).foldl (readDigit base) 0 = v := by
  have hfold : ∀ ds : List Nat, (∀ d ∈ ds, d < base) →
      ((ds.map (digitOf upper)).reverse).foldl (readDigit base) 0 = Nat.ofDigits base ds := by
    intro ds
    induction ds with
    | nil => intro _; rfl
    | cons d ds ih =>
      intro hds
      rw [List.map_cons, List.reverse_cons, List.foldl_append, ih fun d' hd' =>
        hds d' (List.mem_cons_of_mem _ hd'),
        List.foldl_cons, List.foldl_nil,
        readDigit_digitOf base _ upper ((hds d List.mem_cons_self).trans_le hle), Nat.ofDigits_cons]
      rw [Nat.mul_comm, Nat.add_comm]
  unfold numeral
  rw [hfold _ fun d hd => Nat.digits_lt_base hb hd, Nat.ofDigits_digits]

theorem readDigit_zeros (base n : Nat) : (List.replicate n 48).foldl (readDigit base) 0 = 0 := by
  induction n with
  | zero => rfl
  | succ n ih =>
    have h0 : readDigit base 0 48 = 0 := by simp [readDigit]
    rw [List.replicate_succ, List.foldl_cons, h0, ih]

/-- The number in a text of sign, prefix and digits is that of the digits. -/
theorem readBack_text (hinfo : info ∈ fmtinfo) (ht : info.type = .radix) (x : Int) (n v : Nat) :
    readBack info.base (signFor sp info x ++ (hexPrefix sp info ++
      expand n (numeral info.base (info.fmttype = 88) v))) = v := by
  have hb := base_gt hinfo ht
  obtain ⟨-, hrow⟩ := radix_rows hinfo ht
  have hle : info.base ≤ 16 := by omega
  have hsign : (signFor sp info x).foldl (readDigit info.base) 0 = 0 := by
    unfold signFor
    split
    · rfl
    split
    · rfl
    split
    · rfl
    split
    · rfl
    · rfl
  have hletter : ∀ info ∈ fmtinfo, info.base = 16 → readDigit info.base 0 info.fmttype = 0 := by
    decide +kernel
  have hpre : (hexPrefix sp info).foldl (readDigit info.base) 0 = 0 := by
    have h0 : readDigit info.base 0 48 = 0 := by simp [readDigit]
    unfold hexPrefix
    split
    · rename_i h
      rw [List.foldl_cons, List.foldl_cons, List.foldl_nil, h0, hletter info hinfo h.2]
    · rfl
  unfold readBack expand
  rw [List.foldl_append, List.foldl_append, List.foldl_append, hsign, hpre, readDigit_zeros,
    foldl_numeral hb hle]

/-- **The text of `__et_printf` is that of the standard exactly when it is regular.** -/
theorem radixText_standard_iff (hinfo : info ∈ fmtinfo) (ht : info.type = .radix) (hw : 0 ≤ sp.width)
    (hw' : sp.width ≤ 1014) (hp : -1 ≤ sp.precision) (hp' : sp.precision ≤ 984) :
    radixText sp info (longvalue a) = standardText true sp info (a.value info.signed) ↔
      Regular sp info a := by
  constructor
  · intro h
    have hf : ∀ i, a = .int i → info.signed = true ∨ i.toNat < 2 ^ 31 := by
      rintro i rfl
      cases hs : info.signed with
      | true => exact .inl rfl
      | false =>
        right
        have hval : (Arg.int i).value false = (i.toNat : Int) := rfl
        have hlong : (Arg.long (i.signExtend 64)).value false = ((i.signExtend 64).toNat : Int) := rfl
        have hcode := radixText_shape (a := .long (i.signExtend 64)) hinfo ht hw hw' hp hp' nofun
        have hsame : longvalue (.long (i.signExtend 64)) = longvalue (.int i) := rfl
        have hask : standardText true sp info i.toNat = _ := standardText_shape hinfo ht i.toNat
        rw [hsame, h, hs, hval, hask, hlong] at hcode
        have hback := congrArg (readBack info.base) hcode
        dsimp only at hback
        rw [replicate_append, readBack_text hinfo ht, readBack_text hinfo ht] at hback
        rw [Int.natAbs_natCast, Int.natAbs_natCast, BitVec.toNat_signExtend,
          BitVec.toNat_setWidth] at hback
        have hlt := i.isLt
        cases hm : i.msb with
        | false =>
          rw [BitVec.msb_eq_decide, decide_eq_false_iff_not] at hm
          omega
        | true =>
          rw [hm, if_pos rfl] at hback
          omega
    obtain ⟨hzero, hpad⟩ := (radixText_eq_iff hinfo ht hw hw' hp hp' hf).1 h
    exact ⟨hf, hzero, hpad⟩
  · exact radixText_standard hinfo ht hw hw' hp hp'

/-! ## The conversion -/

variable {L : Type} {m : RealMachine L} {enomem : Bool} {st : St}

/-- `count` and `errorflag` are of another kind than the rest of the state. -/
def St.counted (st : St) (count : Int) (errorflag : Bool) : St :=
  { st with count := count, errorflag := errorflag }

theorem counted_out (st : St) (n : Int) (e : Bool) : (st.counted n e).out = st.out := rfl

theorem counted_back (st : St) (n : Int) (e : Bool) :
    (st.counted n e).counted st.count st.errorflag = st :=
  rfl

theorem counted_ok (hbuf : st.buf.length = 1024) {n : Int} (hn : n = int32 st.out.length) :
    (st.counted n false).Ok :=
  ⟨hbuf, hn, rfl⟩

theorem pad_counted (st : St) (n : Int) (e : Bool) (width : Int) :
    ∃ n', (st.counted n e).pad width = (st.pad width).counted n' e := by
  unfold St.pad St.counted
  dsimp only
  split
  · exact ⟨_, rfl⟩
  · exact ⟨_, rfl⟩

theorem text_counted (st : St) (n : Int) (e : Bool) :
    ∃ n', (if 0 < (st.counted n e).length then
        (st.counted n e).emit ((st.counted n e).read (st.counted n e).length.toNat)
        else st.counted n e) =
      (if 0 < st.length then st.emit (st.read st.length.toNat) else st).counted n' e := by
  have hread : ∀ k, (st.counted n e).read k = st.read k := fun _ => rfl
  have hlen : (st.counted n e).length = st.length := rfl
  rw [hlen, hread]
  split
  · exact ⟨_, rfl⟩
  · exact ⟨_, rfl⟩

/-- What is handed over does not depend on what was counted. -/
theorem tail_counted (st : St) (n : Int) (e left : Bool) (width : Int) :
    ((st.counted n e).tail left width).out = (st.tail left width).out := by
  unfold St.tail
  dsimp only
  cases left with
  | true =>
    simp only [if_true]
    obtain ⟨n', h⟩ := text_counted st n e
    rw [h]
    obtain ⟨n'', h'⟩ := pad_counted (if 0 < st.length then st.emit (st.read st.length.toNat)
      else st) n' e width
    rw [h']
    rfl
  | false =>
    simp only [Bool.false_eq_true, if_false]
    obtain ⟨n', h⟩ := pad_counted st n e width
    rw [h]
    obtain ⟨n'', h'⟩ := text_counted (st.pad width) n' e
    rw [h']
    rfl

theorem convert_counted {st' : St} (ht : info.type = .radix) (n : Int) (e : Bool)
    (h : convert m enomem sp info (some a) st = .ok st') :
    convert m enomem sp info (some a) (st.counted n e) = .ok (st'.counted n e) := by
  unfold convert at h ⊢
  rw [ht] at h ⊢
  dsimp only at h ⊢
  split at h
  · cases h
  · rename_i hlen
    rw [if_neg hlen]
    unfold St.put at h ⊢
    split at h
    · rename_i hfit
      rw [if_pos hfit]
      cases h
      rfl
    · cases h

/-- The letters of the integer conversions. -/
theorem letter_radix {c : UInt8} (hc : c ∈ ascii "diuxXo") (hinfo : infoOf c = some info) :
    info.type = .radix := by
  have hall : (ascii "diuxXo").all (fun c => (infoOf c).all (·.type = .radix)) = true := by decide
  have h := List.all_eq_true.1 hall c hc
  rw [hinfo] at h
  exact of_decide_eq_true h

/-- **Every integer conversion stays in the buffer, and a regular one hands over the text of the
standard,** with `0x` also in front of 0. -/
theorem convert_standard {c : UInt8} (hbuf : st.buf.length = 1024) (hc : c ∈ ascii "diuxXo")
    (hinfo : infoOf c = some info) (hw : 0 ≤ sp.width) (hw' : sp.width ≤ 1014)
    (hp : -1 ≤ sp.precision) (hp' : sp.precision ≤ 984) :
    ∃ st', convert m enomem sp info (some a) st = .ok st' ∧ st'.buf.length = 1024 ∧
      (Regular sp info a → (st'.tail sp.leftjustify sp.width).out =
        st.out ++ (standard true sp info a).map some) := by
  have ht := letter_radix hc hinfo
  have hmem := infoOf_mem hinfo
  have hok := counted_ok hbuf rfl
  obtain ⟨st₁, hconv, hmade⟩ := radix_made (m := m) enomem hok hmem hw hw' hp hp' ht a
  have hback := convert_counted ht st.count st.errorflag hconv
  rw [counted_back] at hback
  refine ⟨_, hback, hmade.ok.buf, ?_⟩
  intro hr
  obtain ⟨-, -, hout⟩ := tail_spec hmade sp.leftjustify hw hw'
  have htext : convText m sp info (some a) = standardText true sp info (a.value info.signed) := by
    unfold convText
    rw [ht]
    exact radixText_standard hmem ht hw hw' hp hp' hr
  rw [tail_counted, hout, counted_out, htext]
  unfold standard Spec.field
  cases sp.leftjustify <;> rfl

end

/-- `%06d` of -42. -/
theorem convert_standard_zeropad : ∃ st', convert exactReal false { zeropad := true, width := 6 }
    ⟨100, 10, true, .radix, ascii "0123456789", []⟩ (some (.int (-42))) {} = .ok st' ∧
      st'.buf.length = 1024 ∧ (st'.tail false 6).out = (ascii "-00042").map some := by
  have hstart : ({} : St).buf.length = 1024 := List.length_replicate
  have hrow : infoOf 100 = some ⟨100, 10, true, .radix, ascii "0123456789", []⟩ := rfl
  obtain ⟨st', hconv, hbuf, hout⟩ := convert_standard (m := exactReal) (a := .int (-42)) hstart
    (by decide)
    hrow (by decide : (0 : Int) ≤ ({ zeropad := true, width := 6 } : Spec).width) (by decide)
      (by decide)
    (by decide)
  refine ⟨st', hconv, hbuf, (hout ⟨fun _ _ => .inl rfl, by decide, by decide⟩).trans ?_⟩
  decide +kernel

/-- `%#x` of 0 is `0x0`, where the standard has no prefix. -/
theorem convert_standard_hexZero : ¬ ∀ (sp : Spec) (info : EtInfo) (a : Arg) (c : UInt8) (st' : St),
    c ∈ ascii "diuxXo" → infoOf c = some info → 0 ≤ sp.width → sp.width ≤ 1014 → -1 ≤ sp.precision →
    sp.precision ≤ 984 → a.suits sp info = true → convert exactReal false sp info (some a) {} =
      .ok st' →
      (st'.tail sp.leftjustify sp.width).out = (standard false sp info a).map some := by
  intro h
  have hrow : infoOf 120 = some ⟨120, 16, false, .radix, ascii "0123456789abcdef", ascii "x0"⟩ := rfl
  obtain ⟨st', hconv, hmade⟩ := radix_made (m := exactReal) false start_ok (infoOf_mem hrow)
    (by decide : (0 : Int) ≤ ({ alternateform := true } : Spec).width) (by decide) (by decide)
      (by decide)
    rfl (.int 0)
  have hsays := h _ _ (.int 0) 120 st' (by decide) hrow (by decide) (by decide) (by decide)
    (by decide) rfl
    hconv
  obtain ⟨-, -, hout⟩ := tail_spec hmade false (Int.le_refl 0) (by decide)
  have hboth := hout.symm.trans hsays
  revert hboth
  decide +kernel

end Dbsql.L1.Printf
