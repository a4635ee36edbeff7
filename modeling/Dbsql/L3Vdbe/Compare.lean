import Dbsql.L3Vdbe.NumericOrder
import Dbsql.L3Vdbe.Decimal
/-!
# The order of the comparison opcodes (vdbe.c:1536-1589)

`OP_Eq` … `OP_Ge` compare two integers by their difference, an integer with a text that
`__dbsql_atoi` reads by the difference too, and everything else as texts by `__str_numeric_cmp`.
The difference is an `int`: it overflows when the two are 2^31 or more apart. And a text that reads
as a NaN (`0e9999`) is equal to every number.

Results:
* `rank_readsAs`: an integer has the rank of its value, by each of the routes.
* `numCmp_lt`, `numCmp_gt`: without overflow the opcodes go by the ranks.
* `compare_totalPreorder_iff`: on which sets of values they are a total preorder.
-/
namespace Dbsql.L3
open Dbsql.Core Dbsql.L1

/-! ## Integers as `long double` -/

/-- The value of decimal digits, after `v`. -/
def decFrom (v : Nat) (ds : Bytes) : Nat := ds.foldl (fun v c => v * 10 + (c.toNat - 48)) v

/-- The machine's `long double` computes exactly with integers below 2^53. -/
structure ExactInts {L : Type} (fp : LongDouble L) : Prop where
  add : ∀ m n : Nat, m + n < 2 ^ 53 → fp.add (fp.lit m) (fp.lit n) = fp.lit (m + n : Nat)
  mul : ∀ m n : Nat, m * n < 2 ^ 53 → fp.mul (fp.lit m) (fp.lit n) = fp.lit (m * n : Nat)
  toDouble : ∀ m : Nat, m < 2 ^ 53 → fp.toDouble (fp.lit m) = .fin m
  neg : ∀ m : Nat, 0 < m → m < 2 ^ 53 → fp.toDouble (fp.neg (fp.lit m)) = .fin (-m)
  negZero : fp.toDouble (fp.neg (fp.lit 0)) = .fin 0 ∨ fp.toDouble (fp.neg (fp.lit 0)) = .negZero

theorem exactArith_exactInts : ExactInts exactArith where
  add m n _ := by
    rw [Nat.cast_add]
    rfl
  mul m n _ := by
    rw [Nat.cast_mul]
    rfl
  toDouble _ _ := rfl
  neg _ _ _ := rfl
  negZero := .inl rfl

theorem isdigit_bounds {c : UInt8} (h : isdigit c = true) : 48 ≤ c.toNat ∧ c.toNat ≤ 57 := by
  unfold isdigit at h
  simp only [Bool.and_eq_true, decide_eq_true_eq] at h
  exact ⟨UInt8.le_iff_toNat_le.1 h.1, UInt8.le_iff_toNat_le.1 h.2⟩

theorem le_decFrom (v : Nat) (ds : Bytes) : v ≤ decFrom v ds := by
  induction ds generalizing v with
  | nil => exact Nat.le_refl v
  | cons c ds ih =>
    have := ih (v * 10 + (c.toNat - 48))
    rw [decFrom, List.foldl_cons]
    rw [decFrom] at this
    omega

/-- Reading digits is exact while the value is below 2^53. -/
theorem foldl_exact {L : Type} {fp : LongDouble L} (hfp : ExactInts fp) {ds : Bytes}
    (hds : ∀ c ∈ ds, isdigit c = true) (v : Nat) (h : decFrom v ds < 2 ^ 53) :
    ds.foldl (fun v c => fp.add (fp.mul v (fp.lit 10)) (fp.lit ((c.toNat : ℚ) - 48))) (fp.lit v) =
      fp.lit (decFrom v ds) := by
  induction ds generalizing v with
  | nil => rfl
  | cons c ds ih =>
    have hc := isdigit_bounds (hds c List.mem_cons_self)
    have hle := le_decFrom (v * 10 + (c.toNat - 48)) ds
    rw [decFrom, List.foldl_cons] at h ⊢
    rw [decFrom] at hle
    have hmul := hfp.mul v 10 (by omega)
    have hadd := hfp.add (v * 10) (c.toNat - 48) (by omega)
    have hcast : (c.toNat : ℚ) - 48 = ((c.toNat - 48 : Nat) : ℚ) := by
      rw [Nat.cast_sub hc.1]
      rfl
    have hten : fp.lit 10 = fp.lit ((10 : Nat) : ℚ) := congrArg fp.lit (by norm_num)
    rw [List.foldl_cons, hcast, hten, hmul, hadd]
    exact ih (fun d hd => hds d (List.mem_cons_of_mem _ hd)) _ h

theorem readInt_decFrom {ds : Bytes} (hds : ∀ c ∈ ds, isdigit c = true) (v : Nat) :
    ds.foldl (fun (v : CInt) c => v * 10 + BitVec.ofNat 32 c.toNat - 48) (BitVec.ofNat 32 v) =
      BitVec.ofNat 32 (decFrom v ds) := by
  induction ds generalizing v with
  | nil => rfl
  | cons c ds ih =>
    obtain ⟨d, hd⟩ : ∃ d, c.toNat = d + 48 :=
      ⟨c.toNat - 48, by have := (isdigit_bounds (hds c List.mem_cons_self)).1; omega⟩
    have hstep : BitVec.ofNat 32 v * 10 + BitVec.ofNat 32 c.toNat - 48 =
        BitVec.ofNat 32 (v * 10 + (c.toNat - 48)) := by
      rw [hd, Nat.add_sub_cancel, BitVec.ofNat_add, BitVec.ofNat_add, BitVec.ofNat_mul]
      grind
    rw [List.foldl_cons, hstep, ih (fun d hd => hds d (List.mem_cons_of_mem _ hd)), decFrom, decFrom,
      List.foldl_cons]

theorem decFrom_lt {ds : Bytes} (hds : ∀ c ∈ ds, isdigit c = true) (v : Nat) :
    decFrom v ds < (v + 1) * 10 ^ ds.length := by
  induction ds generalizing v with
  | nil =>
    rw [decFrom, List.foldl_nil, List.length_nil]
    omega
  | cons c ds ih =>
    have hc := isdigit_bounds (hds c List.mem_cons_self)
    have hrest := ih (fun d hd => hds d (List.mem_cons_of_mem _ hd)) (v * 10 + (c.toNat - 48))
    have hmul := Nat.mul_le_mul_right (10 ^ ds.length)
      (show v * 10 + (c.toNat - 48) + 1 ≤ (v + 1) * 10 by omega)
    rw [decFrom] at hrest
    rw [decFrom, List.foldl_cons, List.length_cons, pow_succ, Nat.mul_comm (10 ^ ds.length),
      ← Nat.mul_assoc]
    exact hrest.trans_le hmul

theorem compare_digit {a b : UInt8} (ha : isdigit a = true) (hb : isdigit b = true) :
    compare (a.toNat - 48) (b.toNat - 48) = compare a b := by
  have ha' := isdigit_bounds ha
  have hb' := isdigit_bounds hb
  rw [UInt8.compare_eq_toNat_compare_toNat]
  apply Lex.compare_congr
  · omega
  · omega

/-- `i < 10 || (i == 10 && memcmp(num, "2147483647", 10) <= 0)`: the value is at most 2^31 - 1. -/
theorem decFrom_fits32 {ds : Bytes} (hds : ∀ c ∈ ds, isdigit c = true) (h : fits32 ds = true) :
    decFrom 0 ds ≤ 2147483647 := by
  unfold fits32 at h
  simp only [Bool.or_eq_true, Bool.and_eq_true, decide_eq_true_eq] at h
  rcases h with hlen | ⟨hlen, hcmp⟩
  · have hlt := decFrom_lt hds 0
    have hpow := Nat.pow_le_pow_right (show 0 < 10 by decide) (Nat.le_of_lt_succ hlen)
    omega
  · let f : UInt8 → Nat := fun c => c.toNat - 48
    have hval : decFrom 0 ds = Lex.digitsVal 10 (ds.map f) := by
      rw [decFrom, Lex.digitsVal, List.foldl_map]
    have hmax : ∀ c ∈ ascii "2147483647", isdigit c = true := by decide +kernel
    have hlt : ∀ {z : Bytes}, (∀ c ∈ z, isdigit c = true) → ∀ d ∈ z.map f, d < 10 := by
      intro z hz d hd
      obtain ⟨c, hc, rfl⟩ := List.mem_map.1 hd
      have := isdigit_bounds (hz c hc)
      show c.toNat - 48 < 10
      omega
    have hmap := Lex.compareLex_map f ds (ascii "2147483647")
      (fun a ha b hb => compare_digit (hds a ha) (hmax b hb))
    rw [Lex.compareLex_digits _ _ (by rw [List.length_map, hlen]; rfl) (hlt hds) (hlt hmax)] at hmap
    rw [← hmap, ne_eq, ← hval, compare_gt_iff_gt] at hcmp
    have hten : Lex.digitsVal 10 ((ascii "2147483647").map f) = 2147483647 := by decide
    omega

/-! ## Texts that are integers -/

/-- The double is this integer; a zero may be negative. -/
def ReadsAs (r : Double) (i : Int) : Prop :=
  r ≠ .nan ∧ Double.height r = (((i : ℚ) : WithTop ℚ) : WithBot (WithTop ℚ))

theorem ReadsAs.fin {q : ℚ} {i : Int} (h : q = i) : ReadsAs (.fin q) i :=
  ⟨Double.noConfusion, congrArg (fun q : ℚ => ((q : WithTop ℚ) : WithBot (WithTop ℚ))) h⟩

theorem ReadsAs.negZero : ReadsAs .negZero 0 := ⟨Double.noConfusion, rfl⟩

/-- Of a text with digits only, `__dbsql_atof` reads what they say. -/
theorem dbsqlAtof_digits {L : Type} {fp : LongDouble L} (hfp : ExactInts fp) {z : Bytes}
    (hend : peek (skipDigits (skipSign z)) = 0)
    (hlt : decFrom 0 ((skipSign z).takeWhile isdigit) < 2 ^ 53) :
    ReadsAs (dbsqlAtof fp z) (if peek z = 45 then -(decFrom 0 ((skipSign z).takeWhile isdigit) : Int)
      else decFrom 0 ((skipSign z).takeWhile isdigit)) := by
  have hread : readDigits fp (fp.lit 0) (skipSign z) =
      fp.lit (decFrom 0 ((skipSign z).takeWhile isdigit)) := by
    have h := foldl_exact hfp (fun c hc => List.mem_takeWhile_imp hc) 0 hlt
    rw [Nat.cast_zero] at h
    exact h
  rw [dbsqlAtof]
  dsimp only
  have hdot : ¬ (0 : UInt8) = 46 := by decide
  have hexp : ¬ ((0 : UInt8) = 101 ∨ (0 : UInt8) = 69) := by decide
  simp only [hread, hend, if_neg hdot, if_neg hexp]
  generalize decFrom 0 ((skipSign z).takeWhile isdigit) = n at hlt ⊢
  by_cases hneg : peek z = 45
  · rw [if_pos hneg, if_pos hneg]
    rcases Nat.eq_zero_or_pos n with rfl | hpos
    · rcases hfp.negZero with h | h
      · rw [Nat.cast_zero, h]
        exact .fin (by norm_num)
      · rw [Nat.cast_zero, h]
        exact .negZero
    · rw [hfp.neg n hpos hlt]
      exact .fin (by rw [Int.cast_neg, Int.cast_natCast])
  · rw [if_neg hneg, if_neg hneg, hfp.toDouble n hlt]
    exact .fin (by rw [Int.cast_natCast])

/-- A text with its terminator. -/
def Terminated (z : Bytes) : Prop := ∃ s, 0 ∉ s ∧ z = s ++ [0]

theorem skipSign_append {s : Bytes} (rest : Bytes) (h : s ≠ []) :
    skipSign (s ++ rest) = skipSign s ++ rest := by
  obtain ⟨c, s, rfl⟩ := List.exists_cons_of_ne_nil h
  have hpeek : peek (c :: s ++ rest) = peek (c :: s) := rfl
  unfold skipSign
  rw [hpeek]
  by_cases hc : peek (c :: s) = 45 ∨ peek (c :: s) = 43
  · rw [if_pos hc, if_pos hc]
    rfl
  · rw [if_neg hc, if_neg hc]

theorem mem_skipSign {s : Bytes} {c : UInt8} (h : c ∈ skipSign s) : c ∈ s := by
  unfold skipSign at h
  split at h
  · exact List.mem_of_mem_tail h
  · exact h

theorem cstr_terminated {s : Bytes} (h0 : 0 ∉ s) : cstr (s ++ [0]) = s := by
  rw [cstr, List.takeWhile_append_of_pos]
  · simp
  · intro c hc
    exact decide_eq_true fun h => h0 (h ▸ hc)

/-- Digits up to the end are a number. -/
theorem strIsNumeric_digits {s : Bytes} (h0 : 0 ∉ s)
    (hend : peek (skipDigits (skipSign (s ++ [0]))) = 0)
    (hlen : 0 < ((skipSign (s ++ [0])).takeWhile isdigit).length) : strIsNumeric s = true := by
  have hne : s ≠ [] := by
    rintro rfl
    cases hlen
  rw [skipSign_append _ hne] at hend hlen
  have h0' : 0 ∉ skipSign s := fun h => h0 (mem_skipSign h)
  have hfirst : isdigit (peek (skipSign s)) = true := by
    cases hs : skipSign s with
    | nil =>
      rw [hs] at hlen
      cases hlen
    | cons c t =>
      rw [hs, List.cons_append, List.takeWhile_cons] at hlen
      split at hlen
      · assumption
      · cases hlen
  have hrest : skipDigits (skipSign s) = [] := by
    rw [skipDigits, List.dropWhile_append] at hend
    split at hend
    · rename_i hempty
      exact List.isEmpty_iff.1 hempty
    · rename_i hempty
      obtain ⟨c, t, hc⟩ := List.exists_cons_of_ne_nil fun h => hempty (List.isEmpty_iff.2 h)
      rw [hc] at hend
      have hmem : c ∈ skipSign s := (List.dropWhile_sublist isdigit).subset (hc ▸ List.mem_cons_self)
      exact absurd (hend ▸ hmem) h0'
  rw [strIsNumeric, if_pos hfirst, hrest]
  rfl

/-- The integer that a text begins with, its sign and digits. -/
def leadingInt (z : Bytes) : Int :=
  if peek z = 45 then -(decFrom 0 ((skipSign z).takeWhile isdigit) : Int)
  else decFrom 0 ((skipSign z).takeWhile isdigit)

/-- Where the digits fit into an `int`, `__dbsql_atoi` stores that integer. -/
theorem toInt_dbsqlAtoi {z : Bytes} (h : strIntIn32b z = true) : (dbsqlAtoi z).1.toInt = leadingInt z := by
  have hdigits : ∀ c ∈ (skipSign z).takeWhile isdigit, isdigit c = true := fun c hc => List.mem_takeWhile_imp hc
  have hmax := decFrom_fits32 hdigits h
  have hread : readInt ((skipSign z).takeWhile isdigit) =
      BitVec.ofNat 32 (decFrom 0 ((skipSign z).takeWhile isdigit)) := readInt_decFrom hdigits 0
  unfold dbsqlAtoi leadingInt
  dsimp only
  rw [hread]
  generalize decFrom 0 ((skipSign z).takeWhile isdigit) = n at hmax
  have hnat : (BitVec.ofNat 32 n).toNat = n := by
    rw [BitVec.toNat_ofNat]
    omega
  have hint : (BitVec.ofNat 32 n).toInt = n := by
    rw [BitVec.toInt_eq_toNat_of_lt (by omega), hnat]
  split
  · rw [BitVec.toInt_neg_of_ne_intMin, hint]
    intro hmin
    rw [hmin] at hnat
    have : (BitVec.intMin 32).toNat = 2147483648 := by decide
    omega
  · exact hint

/-- What `__dbsql_atoi` reads is a number for `__str_is_numeric`, of that value. -/
theorem rank_atoi {L : Type} (ar : Arith L) (hfp : ExactInts ar.ld) {z : Bytes} (hz : Terminated z)
    (h : (dbsqlAtoi z).2 = true) :
    ∃ r, rank ar z = .num r ∧ ReadsAs r (dbsqlAtoi z).1.toInt := by
  obtain ⟨s, h0, rfl⟩ := hz
  have hfits := h
  unfold dbsqlAtoi at hfits
  simp only [Bool.and_eq_true, decide_eq_true_eq] at hfits
  obtain ⟨⟨hend, hlen⟩, hfit⟩ := hfits
  have hmax := decFrom_fits32 (fun c hc => List.mem_takeWhile_imp hc) hfit
  have hnum : strIsNumeric (cstr (s ++ [0])) = true := by
    rw [cstr_terminated h0]
    exact strIsNumeric_digits h0 hend hlen
  refine ⟨dbsqlAtof ar.ld (s ++ [0]), by rw [rank, if_pos hnum], ?_⟩
  rw [toInt_dbsqlAtoi hfit, leadingInt]
  exact dbsqlAtof_digits hfp hend (by omega)

theorem decFrom_map {cs : List Char} (h : ∀ c ∈ cs, c.isDigit = true) (v : Nat) :
    decFrom v (cs.map fun c => UInt8.ofNat c.toNat) = Nat.ofDigitChars 10 cs v := by
  induction cs generalizing v with
  | nil => rfl
  | cons c cs ih =>
    obtain ⟨hn, h₁, -⟩ := toNat_ofChar (h c List.mem_cons_self)
    rw [List.map_cons, decFrom, List.foldl_cons, hn, Nat.mul_comm, Nat.ofDigitChars_cons]
    exact ih (fun d hd => h d (List.mem_cons_of_mem _ hd)) _

theorem decFrom_digits (n : Nat) : decFrom 0 (digits n) = n := by
  have h := @decFrom_map (Nat.toDigits 10 n)
    (fun c hc => Nat.isDigit_of_mem_toDigits (by decide) (by decide) hc) 0
  rw [Nat.ofDigitChars_ten_toDigits] at h
  exact h

theorem peek_fmtD (i : CInt) (rest : Bytes) : peek (fmtD i ++ rest) = 45 ↔ i.toInt < 0 := by
  rw [fmtD_eq]
  split
  · refine iff_of_false (fun h => ?_) (by omega)
    have hd := peek_digits i.toInt.toNat rest
    rw [h] at hd
    cases hd
  · exact iff_of_true rfl (by omega)

/-- So is what `%d` prints. -/
theorem rank_fmtD {L : Type} (ar : Arith L) (hfp : ExactInts ar.ld) (i : CInt) :
    ∃ r, rank ar (fmtD i ++ [0]) = .num r ∧ ReadsAs r i.toInt := by
  have h0 : 0 ∉ fmtD i := by
    intro h
    have := List.mem_takeWhile_imp ((cstr_fmtD i).symm ▸ h : (0 : UInt8) ∈ cstr (fmtD i))
    simp at this
  have hskip := skipSign_fmtD i [0]
  have htake := takeWhile_digits i.toInt.natAbs [0] (by decide)
  have hdrop : skipDigits (digits i.toInt.natAbs ++ [0]) = [0] := dropWhile_digits _ _ (by decide)
  have hval := decFrom_digits i.toInt.natAbs
  have hatof := @dbsqlAtof_digits _ _ hfp (fmtD i ++ [0]) (by rw [hskip, hdrop]; rfl)
    (by rw [hskip, htake, hval]; have := i.toInt_lt; have := i.le_toInt; omega)
  rw [hskip, htake, hval] at hatof
  have hnum : strIsNumeric (cstr (fmtD i ++ [0])) = true := by
    rw [cstr_terminated h0]
    exact strIsNumeric_fmtD i
  refine ⟨_, by rw [rank, if_pos hnum], ?_⟩
  have hsign : (if peek (fmtD i ++ [0]) = 45 then -(i.toInt.natAbs : Int) else i.toInt.natAbs) =
      i.toInt := by
    by_cases h : i.toInt < 0
    · rw [if_pos ((peek_fmtD i [0]).2 h)]
      omega
    · rw [if_neg fun h45 => h ((peek_fmtD i [0]).1 h45)]
      omega
  rw [← hsign]
  exact hatof

/-! ## Stack values -/

/-- An integer, which may keep the text of its literal, or a text without NULs. -/
inductive StackValue : Val → Prop
  | int (i : CInt) : StackValue (.int i none)
  | literal {z : Bytes} : Terminated z → (dbsqlAtoi z).2 = true → StackValue (.int (dbsqlAtoi z).1 (some z))
  | text {z : Bytes} : Terminated z → StackValue (.str z)

/-- The integer that the opcodes take a value for when they compare it with an integer. -/
def intOf : Val → Option CInt
  | .int i _ => some i
  | .str z => if (dbsqlAtoi z).2 then some (dbsqlAtoi z).1 else none
  | _ => none

section
variable {L : Type} {ar : Arith L} {x y : Val}

/-- Its rank is that of the integer. -/
theorem rank_readsAs (hfp : ExactInts ar.ld) (hx : StackValue x) {i : CInt} (h : intOf x = some i) :
    ∃ r, rank ar x.text = .num r ∧ ReadsAs r i.toInt := by
  cases hx with
  | int j =>
    cases h
    exact rank_fmtD ar hfp i
  | literal hz hok =>
    cases h
    exact rank_atoi ar hfp hz hok
  | text hz =>
    rw [intOf] at h
    split at h
    · cases h
      exact rank_atoi ar hfp hz ‹_›
    · cases h

theorem StackValue.shape (hx : StackValue x) : (∃ i z, x = .int i z) ∨ ∃ z, x = .str z := by
  cases hx with
  | int i => exact .inl ⟨i, none, rfl⟩
  | @literal z _ _ => exact .inl ⟨_, some z, rfl⟩
  | @text z _ => exact .inr ⟨z, rfl⟩

/-- A comparison is a difference of integers or one of texts. -/
theorem numCmp_cases (hx : StackValue x) (hy : StackValue y) :
    (∃ i j, intOf x = some i ∧ intOf y = some j ∧ numCmp ar x y = i - j) ∨
      numCmp ar x y = strNumericCmp ar x.text y.text := by
  rcases hx.shape with ⟨i, z, rfl⟩ | ⟨z, rfl⟩
  · rcases hy.shape with ⟨j, z', rfl⟩ | ⟨z', rfl⟩
    · exact .inl ⟨i, j, rfl, rfl, rfl⟩
    · by_cases h : (dbsqlAtoi z').2 = true
      · exact .inl ⟨i, (dbsqlAtoi z').1, rfl, if_pos h, if_pos h⟩
      · exact .inr (if_neg h)
  · rcases hy.shape with ⟨j, z', rfl⟩ | ⟨z', rfl⟩
    · by_cases h : (dbsqlAtoi z).2 = true
      · exact .inl ⟨(dbsqlAtoi z).1, j, if_pos h, rfl, if_pos h⟩
      · exact .inr (if_neg h)
    · exact .inr rfl

/-- Their difference is an `int`. -/
def Near (i j : CInt) : Prop := (i.toInt - j.toInt).natAbs < 2 ^ 31

theorem toInt_sub_near {i j : CInt} (h : Near i j) : (i - j).toInt = i.toInt - j.toInt := by
  unfold Near at h
  rw [BitVec.toInt_sub, Int.bmod_eq_of_le (by omega) (by omega)]

theorem ReadsAs.lt_iff {r r' : Double} {i j : Int} (h : ReadsAs r i) (h' : ReadsAs r' j) :
    Double.lt r r' = true ↔ i < j := by
  rw [Double.lt_iff h.1 h'.1, h.2, h'.2, WithBot.coe_lt_coe, WithTop.coe_lt_coe, Int.cast_lt]

/-- **Without overflow the opcodes go by the ranks.** -/
theorem numCmp_lt (ar : Arith L) (hfp : ExactInts ar.ld) (hx : StackValue x) (hy : StackValue y)
    (hnear : ∀ i j, intOf x = some i → intOf y = some j → Near i j) :
    (numCmp ar x y).toInt < 0 ↔ (rank ar x.text).lt (rank ar y.text) = true := by
  rcases @numCmp_cases _ ar _ _ hx hy with ⟨i, j, hi, hj, h⟩ | h
  · obtain ⟨r, hr, hri⟩ := rank_readsAs hfp hx hi
    obtain ⟨r', hr', hrj⟩ := rank_readsAs hfp hy hj
    rw [h, toInt_sub_near (hnear i j hi hj), hr, hr', Rank.lt, hri.lt_iff hrj]
    omega
  · rw [h, strNumericCmp_lt]

theorem numCmp_gt (ar : Arith L) (hfp : ExactInts ar.ld) (hx : StackValue x) (hy : StackValue y)
    (hnear : ∀ i j, intOf x = some i → intOf y = some j → Near i j) :
    0 < (numCmp ar x y).toInt ↔ (rank ar y.text).lt (rank ar x.text) = true := by
  rcases @numCmp_cases _ ar _ _ hx hy with ⟨i, j, hi, hj, h⟩ | h
  · obtain ⟨r, hr, hri⟩ := rank_readsAs hfp hx hi
    obtain ⟨r', hr', hrj⟩ := rank_readsAs hfp hy hj
    rw [h, toInt_sub_near (hnear i j hi hj), hr, hr', Rank.lt, hrj.lt_iff hri]
    omega
  · rw [h, strNumericCmp_gt]

end

/-! ## Total preorders -/

section
variable {L : Type} (ar : Arith L)

/-- The opcode says yes. -/
def Holds (op : Cmp) (x y : Val) : Prop := compare3 ar false op x y = some true

/-- Exactly one of three. -/
def ExactlyOne (p q r : Prop) : Prop := p ∧ ¬ q ∧ ¬ r ∨ ¬ p ∧ q ∧ ¬ r ∨ ¬ p ∧ ¬ q ∧ r

/-- On these values the six opcodes are a total preorder, that of the values on integers. -/
structure TotalPreorder (S : Set Val) : Prop where
  one : ∀ x ∈ S, ∀ y ∈ S, ExactlyOne (Holds ar .lt x y) (Holds ar .eq x y) (Holds ar .gt x y)
  le : ∀ x ∈ S, ∀ y ∈ S, Holds ar .le x y ↔ Holds ar .lt x y ∨ Holds ar .eq x y
  ge : ∀ x ∈ S, ∀ y ∈ S, Holds ar .ge x y ↔ Holds ar .gt x y ∨ Holds ar .eq x y
  ne : ∀ x ∈ S, ∀ y ∈ S, Holds ar .ne x y ↔ ¬ Holds ar .eq x y
  gt_swap : ∀ x ∈ S, ∀ y ∈ S, Holds ar .gt x y ↔ Holds ar .lt y x
  eq_swap : ∀ x ∈ S, ∀ y ∈ S, Holds ar .eq x y ↔ Holds ar .eq y x
  trans : ∀ x ∈ S, ∀ y ∈ S, ∀ z ∈ S, Holds ar .le x y → Holds ar .le y z → Holds ar .le x z
  lt_int : ∀ i z j z', .int i z ∈ S → .int j z' ∈ S →
    (Holds ar .lt (.int i z) (.int j z') ↔ i.toInt < j.toInt)
  eq_int : ∀ i z j z', .int i z ∈ S → .int j z' ∈ S →
    (Holds ar .eq (.int i z) (.int j z') ↔ i.toInt = j.toInt)

/-- A set of stack values with the integers that its texts are read as. -/
structure ValueSet (S : Set Val) : Prop where
  value : ∀ x ∈ S, StackValue x
  reading : ∀ z, .str z ∈ S → (dbsqlAtoi z).2 = true → .int (dbsqlAtoi z).1 none ∈ S

/-- No two integers, or texts read as such, are 2^31 or more apart. -/
def AllNear (S : Set Val) : Prop :=
  ∀ x ∈ S, ∀ y ∈ S, ∀ i j, intOf x = some i → intOf y = some j → Near i j

/-- If a text reads as a NaN, no two numbers differ. -/
def NoNan (S : Set Val) : Prop :=
  (∃ x ∈ S, rank ar x.text = .num .nan) →
    ∀ x ∈ S, ∀ y ∈ S, ∀ r r', rank ar x.text = .num r → rank ar y.text = .num r' → Double.lt r r' = false

end

section
variable {L : Type} {ar : Arith L} {x y : Val} {S : Set Val}

theorem StackValue.isNull (hx : StackValue x) : x.isNull = false := by
  cases hx <;> rfl

theorem holds_iff (hx : StackValue x) (hy : StackValue y) (op : Cmp) :
    Holds ar op x y ↔ op.test (numCmp ar x y) = true := by
  unfold Holds compare3
  rw [hx.isNull, hy.isNull, Bool.or_false, if_neg Bool.false_ne_true, Option.some_inj]
  rfl

theorem holds_lt (hx : StackValue x) (hy : StackValue y) :
    Holds ar .lt x y ↔ (numCmp ar x y).toInt < 0 := (holds_iff hx hy .lt).trans decide_eq_true_iff

theorem holds_gt (hx : StackValue x) (hy : StackValue y) :
    Holds ar .gt x y ↔ 0 < (numCmp ar x y).toInt := (holds_iff hx hy .gt).trans decide_eq_true_iff

theorem holds_le (hx : StackValue x) (hy : StackValue y) :
    Holds ar .le x y ↔ (numCmp ar x y).toInt ≤ 0 := (holds_iff hx hy .le).trans decide_eq_true_iff

theorem holds_ge (hx : StackValue x) (hy : StackValue y) :
    Holds ar .ge x y ↔ 0 ≤ (numCmp ar x y).toInt := (holds_iff hx hy .ge).trans decide_eq_true_iff

theorem holds_eq (hx : StackValue x) (hy : StackValue y) :
    Holds ar .eq x y ↔ (numCmp ar x y).toInt = 0 := by
  refine ((holds_iff hx hy .eq).trans decide_eq_true_iff).trans ⟨fun h => by rw [h]; rfl, fun h => ?_⟩
  exact BitVec.eq_of_toInt_eq h

theorem holds_ne (hx : StackValue x) (hy : StackValue y) :
    Holds ar .ne x y ↔ ¬ Holds ar .eq x y := by
  rw [holds_iff hx hy, holds_iff hx hy, Cmp.test, Cmp.test, decide_eq_true_eq, decide_eq_true_eq]

/-- Two integers far apart are not compared by their values. -/
theorem near_of_totalPreorder (hS : ValueSet S) (h : TotalPreorder ar S) : AllNear S := by
  -- each is in the set as an integer
  have hmem : ∀ x ∈ S, ∀ i, intOf x = some i → ∃ z, .int i z ∈ S := by
    intro x hx i hi
    rcases (hS.value x hx).shape with ⟨j, z, rfl⟩ | ⟨z, rfl⟩
    · cases hi
      exact ⟨z, hx⟩
    · rw [intOf] at hi
      split at hi
      · cases hi
        exact ⟨none, hS.reading z hx ‹_›⟩
      · cases hi
  intro x hx y hy i j hi hj
  obtain ⟨z, hiS⟩ := hmem x hx i hi
  obtain ⟨z', hjS⟩ := hmem y hy j hj
  have hij := (h.lt_int i z j z' hiS hjS).symm.trans (holds_lt (hS.value _ hiS) (hS.value _ hjS))
  have hji := (h.lt_int j z' i z hjS hiS).symm.trans (holds_lt (hS.value _ hjS) (hS.value _ hiS))
  rw [numCmp, BitVec.toInt_sub] at hij hji
  have h1 := i.toInt_lt
  have h2 := i.le_toInt
  have h3 := j.toInt_lt
  have h4 := j.le_toInt
  unfold Near
  rw [Int.bmod_def] at hij hji
  split at hij
  · split at hji
    · omega
    · omega
  · split at hji
    · omega
    · omega

/-- A NaN is equal to every number. -/
theorem noNan_of_totalPreorder (hfp : ExactInts ar.ld) (hS : ValueSet S) (h : TotalPreorder ar S) :
    NoNan ar S := by
  have hnear := near_of_totalPreorder hS h
  rintro ⟨v, hv, hnan⟩ x hx y hy r r' hr hr'
  -- a text that reads as a NaN is no integer
  have hni : intOf v = none := by
    cases hi : intOf v with
    | none => rfl
    | some i =>
      obtain ⟨r, hr, hread⟩ := rank_readsAs hfp (hS.value v hv) hi
      rw [hnan] at hr
      cases hr
      exact absurd rfl hread.1
  have hyv : Holds ar .le y v := by
    rw [holds_le (hS.value y hy) (hS.value v hv)]
    have hgt := numCmp_gt ar hfp (hS.value y hy) (hS.value v hv) fun i j _ hj => by
      rw [hni] at hj
      cases hj
    rw [hnan, hr', Rank.lt] at hgt
    exact not_lt.1 fun hpos => Bool.false_ne_true (hgt.1 hpos)
  have hvx : Holds ar .le v x := by
    rw [holds_le (hS.value v hv) (hS.value x hx)]
    have hgt := numCmp_gt ar hfp (hS.value v hv) (hS.value x hx) fun i j hi _ => by
      rw [hni] at hi
      cases hi
    rw [hnan, hr, Rank.lt] at hgt
    refine not_lt.1 fun hpos => ?_
    have hlt := hgt.1 hpos
    cases r <;> cases hlt
  have hle := (holds_le (hS.value y hy) (hS.value x hx)).1 (h.trans y hy v hv x hx hyv hvx)
  have hgt := numCmp_gt ar hfp (hS.value y hy) (hS.value x hx) (hnear y hy x hx)
  rw [hr, hr', Rank.lt] at hgt
  rw [Bool.eq_false_iff]
  intro hlt
  have := hgt.2 hlt
  omega

/-- Ranks are negatively transitive but for a NaN. -/
theorem rank_trans (hnan : NoNan ar S) {x y z : Val} (hx : x ∈ S) (hy : y ∈ S) (hz : z ∈ S)
    (hyx : (rank ar y.text).lt (rank ar x.text) = false)
    (hzy : (rank ar z.text).lt (rank ar y.text) = false) :
    (rank ar z.text).lt (rank ar x.text) = false := by
  rw [Bool.eq_false_iff]
  intro hlt
  by_cases hy' : rank ar y.text = .num .nan
  · have hcheck := hnan ⟨y, hy, hy'⟩ z hz x hx
    cases hzr : rank ar z.text with
    | text b =>
      cases hxr : rank ar x.text with
      | text a =>
        rw [hy', hxr] at hyx
        cases hyx
      | num r =>
        rw [hzr, hxr] at hlt
        cases hlt
    | num r' =>
      cases hxr : rank ar x.text with
      | text a =>
        rw [hy', hxr] at hyx
        cases hyx
      | num r =>
        rw [hzr, hxr, Rank.lt, hcheck r' r hzr hxr] at hlt
        cases hlt
  · rcases Rank.lt_split hlt hy' with h | h
    · rw [hzy] at h
      cases h
    · rw [hyx] at h
      cases h

/-- **The comparison opcodes are a total preorder** on a set of values exactly when no two of its
integers are 2^31 or more apart and no NaN stands beside different numbers. -/
theorem compare_totalPreorder_iff (hfp : ExactInts ar.ld) (hS : ValueSet S) :
    TotalPreorder ar S ↔ AllNear S ∧ NoNan ar S := by
  constructor
  · intro h
    exact ⟨near_of_totalPreorder hS h, noNan_of_totalPreorder hfp hS h⟩
  · rintro ⟨hnear, hnan⟩
    have hlt := fun x hx y hy => numCmp_lt ar hfp (hS.value x hx) (hS.value y hy) (hnear x hx y hy)
    have hgt := fun x hx y hy => numCmp_gt ar hfp (hS.value x hx) (hS.value y hy) (hnear x hx y hy)
    have hswap : ∀ x ∈ S, ∀ y ∈ S, (0 < (numCmp ar x y).toInt ↔ (numCmp ar y x).toInt < 0) :=
      fun x hx y hy => (hgt x hx y hy).trans (hlt y hy x hx).symm
    constructor
    · intro x hx y hy
      rw [holds_lt (hS.value x hx) (hS.value y hy), holds_eq (hS.value x hx) (hS.value y hy),
        holds_gt (hS.value x hx) (hS.value y hy)]
      unfold ExactlyOne
      omega
    · intro x hx y hy
      rw [holds_lt (hS.value x hx) (hS.value y hy), holds_eq (hS.value x hx) (hS.value y hy),
        holds_le (hS.value x hx) (hS.value y hy)]
      omega
    · intro x hx y hy
      rw [holds_gt (hS.value x hx) (hS.value y hy), holds_eq (hS.value x hx) (hS.value y hy),
        holds_ge (hS.value x hx) (hS.value y hy)]
      omega
    · intro x hx y hy
      exact holds_ne (hS.value x hx) (hS.value y hy)
    · intro x hx y hy
      rw [holds_gt (hS.value x hx) (hS.value y hy), holds_lt (hS.value y hy) (hS.value x hx)]
      exact hswap x hx y hy
    · intro x hx y hy
      have h1 := hswap x hx y hy
      have h2 := hswap y hy x hx
      rw [holds_eq (hS.value x hx) (hS.value y hy), holds_eq (hS.value y hy) (hS.value x hx)]
      omega
    · intro x hx y hy z hz hxy hyz
      have hle : ∀ x ∈ S, ∀ y ∈ S, Holds ar .le x y ↔ (rank ar y.text).lt (rank ar x.text) =
          false := by
        intro x hx y hy
        rw [holds_le (hS.value x hx) (hS.value y hy), Bool.eq_false_iff, ne_eq, ← hgt x hx y hy,
          not_lt]
      rw [hle x hx y hy] at hxy
      rw [hle y hy z hz] at hyz
      rw [hle x hx z hz]
      exact rank_trans hnan hx hy hz hxy hyz
    · intro i z j z' hi hj
      rw [holds_lt (hS.value _ hi) (hS.value _ hj), numCmp,
        toInt_sub_near (hnear _ hi _ hj i j rfl rfl)]
      omega
    · intro i z j z' hi hj
      rw [holds_eq (hS.value _ hi) (hS.value _ hj), numCmp,
        toInt_sub_near (hnear _ hi _ hj i j rfl rfl)]
      omega

/-- Two integers and a text. -/
theorem valueSet_three : ValueSet {x | x = .int 1 none ∨ x = .int 2 none ∨ x = .str [50, 0]} where
  value := by
    rintro x (rfl | rfl | rfl)
    · exact .int 1
    · exact .int 2
    · exact .text ⟨[50], by decide, rfl⟩
  reading := by
    rintro z (h | h | h) -
    · cases h
    · cases h
    · cases h
      exact .inr (.inl rfl)

theorem compare_totalPreorder_iff_three :
    TotalPreorder exactMachine {x | x = .int 1 none ∨ x = .int 2 none ∨ x = .str [50, 0]} ↔
      AllNear {x | x = .int 1 none ∨ x = .int 2 none ∨ x = .str [50, 0]} ∧
        NoNan exactMachine {x | x = .int 1 none ∨ x = .int 2 none ∨ x = .str [50, 0]} :=
  compare_totalPreorder_iff exactArith_exactInts valueSet_three

/-- 2147483647 is below -1. -/
theorem compare_overflows : ¬ ∀ {L : Type} (ar : Arith L), ExactInts ar.ld →
    TotalPreorder ar {x | StackValue x} := by
  intro h
  have hholds : Holds exactMachine .lt (.int 2147483647 none) (.int (-1) none) := by
    rw [holds_lt (.int _) (.int _), numCmp]
    decide
  have hlt := ((h exactMachine exactArith_exactInts).lt_int 2147483647 none (-1) none (.int _)
    (.int _)).1 hholds
  revert hlt
  decide

end

end Dbsql.L3
