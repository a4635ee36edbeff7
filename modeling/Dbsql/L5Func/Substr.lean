import Dbsql.L1Encoding.Printf
import Dbsql.L5Func.Chars
/-!
# The SQL function substr() (sql_fns.c:138-202)

The function turns the two numbers into a first byte and a number of bytes with additions on ints, which
wrap around; where a character may have several bytes it then counts the bytes that go on with one.

Results:
* `substrFunc_iff`: the result is the slice of the characters, and nothing outside of the string is read,
  unless the end of the slice is not an int.
-/
namespace Dbsql.L5.Func.Substr
open Dbsql.L1 Dbsql.L1.Printf Chars

/-! ## The code -/

/-- The number of characters (sql_fns.c:161-168). -/
def charCount (enc : Encoding) (z : Bytes) : Nat := z.countP fun b => !enc.cont b

/-- The additions on the two numbers (sql_fns.c:169-180). -/
def clip (len p1 p2 : Int) : Int × Int :=
  let (p1, p2) :=
    if p1 < 0 then
      let p1 := int32 (p1 + len)
      if p1 < 0 then (0, int32 (p2 + p1)) else (p1, p2)
    else if 0 < p1 then (int32 (p1 - 1), p2)
    else (p1, p2)
  if len < int32 (p1 + p2) then (p1, int32 (len - p1)) else (p1, p2)

/-- `for (; i < base + p && z[i]; i++)` with `p++` at each byte that goes on with a character
(sql_fns.c:182-185, 190-193). The string is what is left of it from `i` on. -/
def countLoop (enc : Encoding) (base : Int) : Bytes → Int → Int → Bytes × Int × Int
  | [], i, p => ([], i, p)
  | b :: z, i, p =>
    if i < int32 (base + p) ∧ b ≠ 0 then
      countLoop enc base z (i + 1) (if enc.cont b then int32 (p + 1) else p)
    else (b :: z, i, p)

/-- The loop to the end of a character (sql_fns.c:186-189, 194-197). -/
def skipCont (enc : Encoding) : Bytes → Int → Int → Bytes × Int × Int
  | [], i, p => ([], i, p)
  | b :: z, i, p => if enc.cont b then skipCont enc z (i + 1) (int32 (p + 1)) else (b :: z, i, p)

def seek (enc : Encoding) (base : Int) (z : Bytes) (i p : Int) : Bytes × Int × Int :=
  let (z, i, p) := countLoop enc base z i p
  skipCont enc z i p

/-- Numbers of characters as numbers of bytes (sql_fns.c:181-198). -/
def toBytes (enc : Encoding) (z : Bytes) (p1 p2 : Int) : Int × Int :=
  match enc with
  | .iso8859 => (p1, p2)
  | .utf8 =>
    let (rest, i, p1) := seek enc 0 z 0 p1
    let (_, _, p2) := seek enc p1 rest i p2
    (p1, p2)

/-- `dbsql_set_result_string(context, &z[p], n)` (vdbe_method.c:512-547) for `0 ≤ n`: the bytes of the
result, or `none` if it reads outside of the string and its terminator, or asks for a negative number of
bytes. -/
def setResultString (z : Bytes) (p n : Int) : Option Bytes :=
  if n = 0 then some []
  else if int32 (n + 1) < 0 then none
  else if p < 0 ∨ z.length + 1 < p + n then none
  else some (((z ++ [0]).drop p.toNat).take n.toNat)

/-- `__substr_func` (sql_fns.c:142-202) for a string and two ints. -/
def substrFunc (enc : Encoding) (z : Bytes) (p1 p2 : CInt) : Option Bytes :=
  let (p1, p2) := clip (charCount enc z) p1.toInt p2.toInt
  let (p1, p2) := toBytes enc z p1 p2
  let p2 := if p2 < 0 then 0 else p2
  setResultString z p1 p2

/-! ## The slice -/

/-- The place of the first character, from 0; it may lie before the string. -/
def first (len p1 : Int) : Int := if p1 < 0 then len + p1 else if 0 < p1 then p1 - 1 else 0

/-- The characters from `p1` on, `p2` of them, as far as there are any. -/
def slice {α : Type} (cs : List α) (p1 p2 : Int) : List α :=
  (cs.take (first cs.length p1 + p2).toNat).drop (first cs.length p1).toNat

/-- The end of the slice is not an int. -/
def Wraps (len p1 p2 : Int) : Prop :=
  0 ≤ first len p1 ∧ 2 ^ 31 ≤ first len p1 + p2 ∨
    first len p1 < 0 ∧ first len p1 + p2 < -2 ^ 31 ∧ len ≠ 0

theorem int32_spec (x : Int) : ∃ k, int32 x = x - 2 ^ 32 * k ∧ -2 ^ 31 ≤ int32 x ∧ int32 x < 2 ^ 31 := by
  refine ⟨(x + 2 ^ 31) / 2 ^ 32, ?_⟩
  simp only [int32, Int.bmod_def]
  split <;> omega

/-- The test of the end behind the normalised first place. -/
theorem clip_of_first {len p1 p2 : Int} (hlen : 0 ≤ len ∧ len < 2 ^ 31) (h1 : -2 ^ 31 ≤ p1 ∧ p1 < 2 ^ 31) :
    clip len p1 p2 =
      let a := max (first len p1) 0
      let e := if first len p1 < 0 then int32 (p2 + first len p1) else p2
      if len < int32 (a + e) then (a, int32 (len - a)) else (a, e) := by
  unfold clip first
  by_cases hneg : p1 < 0
  · have h : int32 (p1 + len) = len + p1 := by rw [int32_of (by omega) (by omega), add_comm]
    simp only [hneg, if_true, h]
    by_cases hs : len + p1 < 0
    · simp [hs, max_eq_right hs.le]
    · simp [hs, max_eq_left (not_lt.1 hs)]
  · by_cases hpos : 0 < p1
    · have h : int32 (p1 - 1) = p1 - 1 := int32_of (by omega) (by omega)
      have hs : ¬p1 - 1 < 0 := by omega
      simp [hneg, hpos, h, hs, max_eq_left (not_lt.1 hs)]
    · have h : p1 = 0 := by omega
      simp [h]

theorem first_range {len p1 : Int} (hlen : 0 ≤ len ∧ len < 2 ^ 31) (h1 : -2 ^ 31 ≤ p1 ∧ p1 < 2 ^ 31) :
    -2 ^ 31 + len ≤ first len p1 ∧ first len p1 < 2 ^ 31 ∨ 0 ≤ first len p1 ∧ first len p1 < 2 ^ 31 := by
  unfold first
  split
  · omega
  · split <;> omega

/-- What the additions leave, unless they wrap around. -/
theorem clip_eq {len p1 p2 : Int} (hlen : 0 ≤ len ∧ len < 2 ^ 31) (h1 : -2 ^ 31 ≤ p1 ∧ p1 < 2 ^ 31)
    (h2 : -2 ^ 31 ≤ p2 ∧ p2 < 2 ^ 31) (hw : ¬Wraps len p1 p2) :
    ∃ q, clip len p1 p2 = (max (first len p1) 0, q) ∧ q ≤ len - max (first len p1) 0 ∧ -2 ^ 31 ≤ q ∧
      q.toNat = (min (first len p1 + p2) len - max (first len p1) 0).toNat := by
  have hr := first_range hlen h1
  rw [clip_of_first hlen h1]
  unfold Wraps at hw
  generalize first len p1 = s at *
  by_cases hs : s < 0
  · obtain ⟨k, hk, hlo, hhi⟩ := int32_spec (p2 + s)
    simp only [hs, if_true, max_eq_right hs.le, zero_add, sub_zero]
    rw [int32_of hlo hhi, int32_of (x := len) (by omega) hlen.2]
    split
    · refine ⟨len, rfl, le_rfl, by omega, ?_⟩
      omega
    · refine ⟨_, rfl, by omega, hlo, ?_⟩
      omega
  · have hmax : max s 0 = s := max_eq_left (not_lt.1 hs)
    have hsum : int32 (s + p2) = s + p2 := int32_of (by omega) (by omega)
    simp only [hs, if_false, hmax, hsum]
    split
    · refine ⟨int32 (len - s), rfl, ?_⟩
      rw [int32_of (by omega) (by omega)]
      omega
    · exact ⟨p2, rfl, by omega, h2.1, by omega⟩

/-- What they leave if the end is too large for an int. -/
theorem clip_high {len p1 p2 : Int} (hlen : 0 ≤ len ∧ len < 2 ^ 31) (h1 : -2 ^ 31 ≤ p1 ∧ p1 < 2 ^ 31)
    (h2 : -2 ^ 31 ≤ p2 ∧ p2 < 2 ^ 31) (hs : 0 ≤ first len p1) (hw : 2 ^ 31 ≤ first len p1 + p2) :
    clip len p1 p2 = (first len p1, p2) := by
  have hr := first_range hlen h1
  rw [clip_of_first hlen h1]
  generalize first len p1 = s at *
  obtain ⟨k, hk, hlo, hhi⟩ := int32_spec (s + p2)
  simp only [not_lt.2 hs, if_false, max_eq_left hs]
  rw [if_neg (by omega)]

/-- What they leave if it is too small. -/
theorem clip_low {len p1 p2 : Int} (hlen : 0 ≤ len ∧ len < 2 ^ 31) (h1 : -2 ^ 31 ≤ p1 ∧ p1 < 2 ^ 31)
    (h2 : -2 ^ 31 ≤ p2 ∧ p2 < 2 ^ 31) (hs : first len p1 < 0) (hw : first len p1 + p2 < -2 ^ 31) :
    clip len p1 p2 = (0, len) := by
  have hr := first_range hlen h1
  rw [clip_of_first hlen h1]
  generalize first len p1 = s at *
  obtain ⟨k, hk, hlo, hhi⟩ := int32_spec (p2 + s)
  simp only [hs, if_true, max_eq_right hs.le, zero_add, sub_zero]
  rw [int32_of hlo hhi, int32_of (x := len) (by omega) hlen.2]
  split
  · rfl
  · rw [Prod.mk.injEq]
    omega

/-! ## Counting bytes -/

section
variable {enc : Encoding}

/-- Where the limit is reached a count stops. -/
theorem countLoop_of_le {base p i : Int} (h : int32 (base + p) ≤ i) (z : Bytes) :
    countLoop enc base z i p = (z, i, p) := by
  cases z with
  | nil => rfl
  | cons b z =>
    rw [countLoop, if_neg]
    omega

/-- What a count has passed. -/
theorem countLoop_spec (base : Int) {z : Bytes} (h0 : 0 ∉ z) (i p : Int) (hp : -2 ^ 31 ≤ p ∧ p < 2 ^ 31) :
    ∃ pre rest, z = pre ++ rest ∧
      countLoop enc base z i p = (rest, i + pre.length, int32 (p + pre.countP enc.cont)) ∧
      (rest = [] ∨ int32 (base + int32 (p + pre.countP enc.cont)) ≤ i + pre.length) := by
  induction z generalizing i p with
  | nil =>
    refine ⟨[], [], rfl, ?_, .inl rfl⟩
    simp [countLoop, int32_of hp.1 hp.2]
  | cons b z ih =>
    simp only [List.mem_cons, not_or] at h0
    have hb := Ne.symm h0.1
    by_cases hlt : i < int32 (base + p)
    · rw [countLoop, if_pos ⟨hlt, hb⟩]
      have hp' : -2 ^ 31 ≤ (if enc.cont b then int32 (p + 1) else p) ∧
          (if enc.cont b then int32 (p + 1) else p) < 2 ^ 31 := by
        split
        · obtain ⟨k, -, h⟩ := int32_spec (p + 1)
          exact h
        · exact hp
      obtain ⟨pre, rest, rfl, heq, hstop⟩ := ih h0.2 (i + 1) _ hp'
      have hcount : int32 ((if enc.cont b then int32 (p + 1) else p) + pre.countP enc.cont) =
          int32 (p + (b :: pre).countP enc.cont) := by
        rw [List.countP_cons]
        split
        · rw [int32_add]
          congr 1
          push_cast
          omega
        · simp
      have hlen : i + 1 + pre.length = i + (b :: pre).length := by
        simp
        omega
      rw [hcount, hlen] at heq hstop
      exact ⟨b :: pre, rest, rfl, heq, hstop⟩
    · refine ⟨[], b :: z, rfl, ?_, .inr ?_⟩
      · rw [countLoop, if_neg (fun h => hlt h.1)]
        simp [int32_of hp.1 hp.2]
      · simp [int32_of hp.1 hp.2]
        omega

/-- What the loop to the end of a character has passed. -/
theorem skipCont_spec (z : Bytes) (i p : Int) (hp : -2 ^ 31 ≤ p ∧ p < 2 ^ 31) :
    ∃ pre rest, z = pre ++ rest ∧
      skipCont enc z i p = (rest, i + pre.length, int32 (p + pre.countP enc.cont)) ∧
      ∀ b ∈ rest.head?, enc.cont b = false := by
  induction z generalizing i p with
  | nil =>
    refine ⟨[], [], rfl, ?_, by simp⟩
    simp [skipCont, int32_of hp.1 hp.2]
  | cons b z ih =>
    by_cases hb : enc.cont b = true
    · obtain ⟨k, -, hp'⟩ := int32_spec (p + 1)
      obtain ⟨pre, rest, rfl, heq, hhead⟩ := ih (i + 1) (int32 (p + 1)) hp'
      refine ⟨b :: pre, rest, rfl, ?_, hhead⟩
      rw [skipCont, if_pos hb, heq, int32_add, List.countP_cons, if_pos hb]
      simp
      constructor
      · omega
      · congr 1
        omega
    · refine ⟨[], b :: z, rfl, ?_, by simpa using hb⟩
      rw [skipCont, if_neg hb]
      simp [int32_of hp.1 hp.2]

/-- Where the limit is reached at the beginning of a character nothing is counted. -/
theorem seek_idle {base p i : Int} (h : int32 (base + p) ≤ i) {z : Bytes}
    (hz : ∀ b ∈ z.head?, enc.cont b = false) : seek enc base z i p = (z, i, p) := by
  rw [seek, countLoop_of_le h]
  cases z with
  | nil => rfl
  | cons b z =>
    have hb : enc.cont b = false := hz b rfl
    simp [skipCont, hb]

/-- What both loops have passed. -/
theorem seek_spec (base : Int) {z : Bytes} (h0 : 0 ∉ z) (i p : Int) (hp : -2 ^ 31 ≤ p ∧ p < 2 ^ 31) :
    ∃ pre more rest, z = pre ++ more ++ rest ∧
      seek enc base z i p = (rest, i + (pre ++ more).length, int32 (p + (pre ++ more).countP enc.cont)) ∧
      (∀ b ∈ rest.head?, enc.cont b = false) ∧
      (more ++ rest = [] ∨ int32 (base + int32 (p + pre.countP enc.cont)) ≤ i + pre.length) := by
  obtain ⟨pre, rest', rfl, hcount, hstop⟩ := @countLoop_spec enc base _ h0 i p hp
  obtain ⟨k, -, hp'⟩ := int32_spec (p + pre.countP enc.cont)
  obtain ⟨more, rest, rfl, hskip, hhead⟩ := @skipCont_spec enc rest' (i + pre.length) _ hp'
  refine ⟨pre, more, rest, by rw [List.append_assoc], ?_, hhead, hstop⟩
  rw [seek, hcount]
  dsimp only
  rw [hskip, int32_add, List.length_append, List.countP_append]
  push_cast
  simp only [add_assoc]

/-- A count that begins behind the last character goes to the end, or until its number wraps around. -/
theorem seek_far {z : Bytes} (h0 : 0 ∉ z) {a : Int} (ha : 0 ≤ a ∧ a < 2 ^ 31) (hfar : (charCount enc z : Int) < a) :
    ∃ pre rest, z = pre ++ rest ∧
      seek enc 0 z 0 a = (rest, (pre.length : Int), int32 (a + pre.countP enc.cont)) ∧
      (∀ b ∈ rest.head?, enc.cont b = false) ∧
      (rest = [] ∨ 2 ^ 31 ≤ a + pre.countP enc.cont) := by
  obtain ⟨pre, more, rest, rfl, hseek, hhead, hstop⟩ := @seek_spec enc 0 _ h0 0 a (by omega)
  refine ⟨pre ++ more, rest, rfl, by simpa using hseek, hhead, ?_⟩
  cases hstop with
  | inl h => exact .inl (List.append_eq_nil_iff.1 h).2
  | inr h =>
    refine .inr ?_
    have hlen : pre.length = pre.countP enc.cont + pre.countP fun b => !enc.cont b := by
      rw [List.length_eq_countP_add_countP enc.cont]
      simp
    have hle : (pre.countP fun b => !enc.cont b) ≤ charCount enc (pre ++ more ++ rest) := by
      rw [charCount, List.append_assoc, List.countP_append]
      omega
    rw [zero_add, zero_add] at h
    obtain ⟨k, -, hk⟩ := int32_spec (a + pre.countP enc.cont)
    rw [int32_of hk.1 hk.2] at h
    rw [List.countP_append]
    by_contra hlt
    rw [int32_of (by omega) (by push_cast at hlt; omega)] at h
    omega

end

/-! ## Texts -/

section
variable {enc : Encoding} {α : Type} (code : CharCode enc α)

/-- The bytes that go on with a character. -/
def conts (cs : List α) : Nat := (code.text cs).countP enc.cont

theorem countP_trail (c : α) : (code.trail c).countP enc.cont = (code.trail c).length := by
  rw [List.countP_eq_length]
  exact code.trail_cont c

theorem conts_cons (c : α) (cs : List α) : conts code (c :: cs) = (code.trail c).length + conts code cs := by
  rw [conts, CharCode.text_cons, List.countP_cons, List.countP_append, countP_trail, conts]
  simp [code.lead_cont]

theorem length_text (cs : List α) : (code.text cs).length = cs.length + conts code cs := by
  induction cs with
  | nil => simp [conts]
  | cons c cs ih =>
    rw [conts_cons, CharCode.text_cons]
    simp [ih]
    omega

theorem charCount_text (cs : List α) : charCount enc (code.text cs) = cs.length := by
  have hlen := length_text code cs
  have h := List.length_eq_countP_add_countP enc.cont (l := code.text cs)
  simp only [Bool.not_eq_true] at h
  have hcount : charCount enc (code.text cs) = (code.text cs).countP fun b => decide (enc.cont b = false) := by
    rw [charCount]
    congr 1
    funext b
    cases enc.cont b <;> rfl
  rw [conts] at hlen
  omega

theorem head_text (cs : List α) : ∀ b ∈ (code.text cs).head?, enc.cont b = false := by
  cases cs with
  | nil => simp
  | cons c cs => simp [code.lead_cont]

theorem skipCont_append {t : Bytes} (ht : ∀ b ∈ t, enc.cont b = true) (z : Bytes) (i p : Int)
    (hp : -2 ^ 31 ≤ p ∧ p + t.length < 2 ^ 31) :
    skipCont enc (t ++ z) i p = skipCont enc z (i + t.length) (p + t.length) := by
  induction t generalizing i p with
  | nil => simp
  | cons b t ih =>
    obtain ⟨hb, ht⟩ := List.forall_mem_cons.1 ht
    simp only [List.length_cons] at hp ⊢
    rw [List.cons_append, skipCont, if_pos hb, int32_of (by omega) (by omega), ih ht _ _ (by omega)]
    push_cast
    congr 1 <;> omega

/-- The rest of a character is passed, whether the count goes on behind it or not. -/
theorem seek_trail {base : Int} {t : Bytes} (ht : ∀ b ∈ t, enc.cont b = true) (z : Bytes) (i p : Int)
    (hp : -2 ^ 31 ≤ p ∧ p + t.length < 2 ^ 31)
    (hlim : -2 ^ 31 ≤ base + p ∧ base + p + t.length < 2 ^ 31) :
    seek enc base (t ++ z) i p = seek enc base z (i + t.length) (p + t.length) := by
  induction t generalizing i p with
  | nil => simp
  | cons b t ih =>
    obtain ⟨hb, ht'⟩ := List.forall_mem_cons.1 ht
    have hb0 : b ≠ 0 := by
      rintro rfl
      rw [cont_zero] at hb
      cases hb
    simp only [List.length_cons] at hp hlim ⊢
    have hbase : int32 (base + p) = base + p := int32_of hlim.1 (by omega)
    by_cases hlt : i < base + p
    · have hstep : seek enc base (b :: t ++ z) i p = seek enc base (t ++ z) (i + 1) (p + 1) := by
        rw [seek, List.cons_append, countLoop, if_pos ⟨by rw [hbase]; exact hlt, hb0⟩, if_pos hb,
          int32_of (by omega) (by omega)]
        rfl
      rw [hstep, ih ht' _ _ (by omega) (by omega)]
      push_cast
      congr 1 <;> omega
    · have hnext : int32 (base + (p + ((t.length + 1 : Nat) : Int))) = base + (p + ((t.length + 1 : Nat) : Int)) :=
        int32_of (by push_cast; omega) (by push_cast; omega)
      rw [seek, seek, countLoop_of_le (by omega), countLoop_of_le (by rw [hnext]; push_cast; omega)]
      dsimp only
      rw [skipCont_append ht z i p (by simpa using hp), List.length_cons]

/-- **A count goes as many characters further as are left, and adds the bytes that go on with them.** -/
theorem seek_text (base : Int) (cs : List α) (i p : Int) (hp : -2 ^ 31 ≤ p ∧ p + conts code cs < 2 ^ 31)
    (hlim : -2 ^ 31 ≤ base + p ∧ base + p + conts code cs < 2 ^ 31) :
    let k := (base + p - i).toNat
    seek enc base (code.text cs) i p =
      (code.text (cs.drop k), i + (code.text (cs.take k)).length, p + conts code (cs.take k)) := by
  induction cs generalizing i p with
  | nil => simp [seek, countLoop, skipCont, conts]
  | cons c cs ih =>
    have hbase : int32 (base + p) = base + p := int32_of hlim.1 (by omega)
    rw [conts_cons] at hp hlim
    by_cases hlt : i < base + p
    · obtain ⟨k, hk⟩ : ∃ k : Nat, base + p - i = k + 1 := ⟨(base + p - i - 1).toNat, by omega⟩
      have hstep : seek enc base (code.text (c :: cs)) i p = seek enc base (code.trail c ++ code.text cs) (i + 1) p := by
        rw [seek, CharCode.text_cons, countLoop, if_pos ⟨by rw [hbase]; exact hlt, code.lead_ne c⟩,
          code.lead_cont, if_neg (by decide)]
        rfl
      have ih := ih (i + 1 + (code.trail c).length) (p + (code.trail c).length) (by omega) (by omega)
      have hk' : base + (p + (code.trail c).length) - (i + 1 + (code.trail c).length) = k := by omega
      have htoNat : (base + p - i).toNat = k + 1 := by omega
      simp only [hk', Int.toNat_natCast] at ih
      rw [hstep, seek_trail (code.trail_cont c) _ _ _ (by push_cast at *; omega) (by push_cast at *; omega), ih]
      simp only [htoNat, List.drop_succ_cons, List.take_succ_cons, CharCode.text_cons, conts_cons, Prod.mk.injEq,
        true_and, List.length_cons, List.length_append]
      push_cast
      omega
    · have hk : (base + p - i).toNat = 0 := by omega
      rw [seek_idle (by omega) (head_text code (c :: cs))]
      simp [hk, conts]

theorem countLoop_iso (base : Int) (z : Bytes) (i p : Int) : (countLoop .iso8859 base z i p).2.2 = p := by
  induction z generalizing i with
  | nil => rfl
  | cons b z ih =>
    rw [countLoop]
    split
    · exact ih (i + 1)
    · rfl

theorem seek_iso (base : Int) (z : Bytes) (i p : Int) : (seek .iso8859 base z i p).2.2 = p := by
  have hskip : ∀ (z : Bytes) (i p : Int), skipCont .iso8859 z i p = (z, i, p) := by
    intro z i p
    cases z <;> rfl
  rw [seek]
  dsimp only
  rw [hskip]
  exact countLoop_iso base z i p

/-- Where a byte is a character the counts change nothing. -/
theorem toBytes_eq (enc : Encoding) (z : Bytes) (p1 p2 : Int) : toBytes enc z p1 p2 =
    let r := seek enc 0 z 0 p1
    (r.2.2, (seek enc r.2.2 r.1 r.2.1 p2).2.2) := by
  cases enc with
  | utf8 => rfl
  | iso8859 =>
    dsimp only
    rw [seek_iso, seek_iso]
    rfl

/-! ## The result -/

theorem setResultString_middle {x y w : Bytes} (hlen : (x ++ y ++ w).length + 1 < 2 ^ 31) :
    setResultString (x ++ y ++ w) x.length y.length = some y := by
  unfold setResultString
  cases y with
  | nil => simp
  | cons b y =>
    simp only [List.length_append, List.length_cons] at hlen ⊢
    rw [if_neg (by omega), int32_of (by omega) (by omega), if_neg (by omega), if_neg (by omega)]
    simp

/-- A copy that begins before the string or ends behind it is no text. -/
theorem setResultString_outside {z : Bytes} {p n : Int} (hn : 0 < n) (hout : p < 0 ∨ z.length + 1 ≤ p + n)
    {w : Bytes} (hw : 0 ∉ w) : setResultString z p n ≠ some w := by
  unfold setResultString
  rw [if_neg (by omega)]
  split
  · exact nofun
  split
  · exact nofun
  · rename_i hin
    intro h
    obtain ⟨m, rfl⟩ : ∃ m : Nat, p = m := ⟨p.toNat, by omega⟩
    obtain ⟨l, rfl⟩ : ∃ l : Nat, n = l := ⟨n.toNat, by omega⟩
    -- the terminator is copied
    have hml : m + l = z.length + 1 := by omega
    refine hw (Option.some.inj h ▸ ?_)
    have hall : ((z ++ [0]).drop m).take l = (z ++ [0]).drop m := by
      apply List.take_of_length_le
      simp
      omega
    rw [Int.toNat_natCast, Int.toNat_natCast, hall, List.drop_append_of_le_length (by omega)]
    simp

theorem first_le_of_toNat {cs : List α} {a : Int} (ha : 0 ≤ a) (hle : a ≤ cs.length) :
    ((cs.take a.toNat).length : Int) = a := by
  rw [List.length_take]
  omega

/-- The numbers of characters of a slice become its numbers of bytes. -/
theorem toBytes_text {cs : List α} (hlen : (code.text cs).length + 1 < 2 ^ 31) {a q : Int} (ha : 0 ≤ a ∧ a < 2 ^ 31)
    (hq : -2 ^ 31 ≤ q ∧ q ≤ cs.length - a) :
    let r := toBytes enc (code.text cs) a q
    setResultString (code.text cs) r.1 (if r.2 < 0 then 0 else r.2) =
      some (code.text ((cs.drop a.toNat).take q.toNat)) := by
  have h0 := code.zero_notMem_text cs
  have htext := length_text code cs
  rw [toBytes_eq]
  dsimp only
  by_cases hle : a ≤ cs.length
  · have hsplit : conts code cs = conts code (cs.take a.toNat) + conts code (cs.drop a.toNat) := by
      rw [conts, conts, conts, ← List.countP_append, ← CharCode.text_append, List.take_append_drop]
    have hb : ((code.text (cs.take a.toNat)).length : Int) = a + conts code (cs.take a.toNat) := by
      rw [length_text]
      push_cast
      rw [first_le_of_toNat ha.1 hle]
    have hone := seek_text code 0 cs 0 a (by omega) (by omega)
    simp only [zero_add, sub_zero, ← hb] at hone
    have htwo := seek_text code (code.text (cs.take a.toNat)).length (cs.drop a.toNat)
      (code.text (cs.take a.toNat)).length q (by omega) (by omega)
    simp only [add_sub_cancel_left] at htwo
    rw [hone]
    dsimp only
    rw [htwo]
    dsimp only
    by_cases hneg : q < 0
    · have hq0 : q.toNat = 0 := by omega
      have hno : conts code ([] : List α) = 0 := rfl
      rw [hq0, List.take_zero, hno, if_pos (by omega)]
      rfl
    · have hk : (q.toNat : Int) = q := by omega
      have hlen' : q + conts code ((cs.drop a.toNat).take q.toNat) =
          (code.text ((cs.drop a.toNat).take q.toNat)).length := by
        rw [length_text, List.length_take, List.length_drop]
        push_cast
        omega
      rw [hlen', if_neg (by omega)]
      have hparts : code.text cs = code.text (cs.take a.toNat) ++ code.text ((cs.drop a.toNat).take q.toNat) ++
          code.text ((cs.drop a.toNat).drop q.toNat) := by
        rw [← CharCode.text_append, ← CharCode.text_append, List.append_assoc, List.take_append_drop,
          List.take_append_drop]
      conv_lhs => rw [hparts]
      rw [hparts] at hlen
      exact setResultString_middle hlen
  · -- nothing is left, whatever the counts do
    have hq0 : q.toNat = 0 := by omega
    obtain ⟨pre, rest, hz, hone, -, hstop⟩ := @seek_far enc _ h0 _ ha (by rw [charCount_text]; omega)
    have hrest : 0 ∉ rest := fun h => h0 (hz ▸ List.mem_append_right _ h)
    obtain ⟨pre', more, rest', hz', htwo, -, -⟩ :=
      @seek_spec enc (int32 (a + pre.countP enc.cont)) _ hrest pre.length q (by omega)
    rw [hone]
    dsimp only
    rw [htwo]
    dsimp only
    have hcount : conts code cs = pre.countP enc.cont + (pre' ++ more).countP enc.cont + rest'.countP enc.cont := by
      rw [conts, hz, hz', List.countP_append, List.countP_append, add_assoc]
    have hneg : q + (pre' ++ more).countP enc.cont < 0 := by
      cases hstop with
      | inl h =>
        rw [h] at hz'
        have hnil := (List.append_eq_nil_iff.1 hz'.symm).1
        rw [hnil, List.countP_nil]
        push_cast
        omega
      | inr h => omega
    have hval : int32 (q + (pre' ++ more).countP enc.cont) = q + (pre' ++ more).countP enc.cont :=
      int32_of (by omega) (by omega)
    rw [hval, if_pos hneg, hq0]
    rfl

/-- An end that is too large for an int makes the copy end behind the string. -/
theorem toBytes_high {cs : List α} (hlen : (code.text cs).length + 1 < 2 ^ 31) {a q : Int} (ha : 0 ≤ a ∧ a < 2 ^ 31)
    (hq : q < 2 ^ 31) (hw : 2 ^ 31 ≤ a + q) :
    let r := toBytes enc (code.text cs) a q
    r.2 = q ∧ (r.1 < 0 ∨ (code.text cs).length + 1 ≤ r.1 + q) := by
  have h0 := code.zero_notMem_text cs
  have htext := length_text code cs
  rw [toBytes_eq]
  dsimp only
  by_cases hle : a ≤ cs.length
  · have hb : ((code.text (cs.take a.toNat)).length : Int) = a + conts code (cs.take a.toNat) := by
      rw [length_text]
      push_cast
      rw [first_le_of_toNat ha.1 hle]
    have hble : (code.text (cs.take a.toNat)).length ≤ (code.text cs).length := by
      conv_rhs => rw [← List.take_append_drop a.toNat cs, CharCode.text_append, List.length_append]
      omega
    have hone := seek_text code 0 cs 0 a (by omega) (by omega)
    simp only [zero_add, sub_zero, ← hb] at hone
    obtain ⟨k, hk, hlo, hhi⟩ := int32_spec ((code.text (cs.take a.toNat)).length + q)
    rw [hone]
    dsimp only
    rw [seek_idle (by omega) (head_text code _)]
    exact ⟨rfl, .inr (by omega)⟩
  · obtain ⟨pre, rest, hz, hone, hhead, hstop⟩ := @seek_far enc _ h0 _ ha (by rw [charCount_text]; omega)
    have hpre : pre.countP enc.cont ≤ pre.length := List.countP_le_length
    have hzlen : (code.text cs).length = pre.length + rest.length := by rw [hz, List.length_append]
    obtain ⟨k, hk, hlo, hhi⟩ := int32_spec (a + pre.countP enc.cont)
    rw [hone]
    dsimp only
    cases hstop with
    | inl h =>
      subst h
      have hcount : conts code cs = pre.countP enc.cont := by
        rw [conts, hz, List.append_nil]
      have hidle : seek enc (int32 (a + pre.countP enc.cont)) [] pre.length q = ([], (pre.length : Int), q) := rfl
      rw [hidle]
      refine ⟨rfl, ?_⟩
      omega
    | inr h =>
      obtain ⟨k', hk', hlo', hhi'⟩ := int32_spec (int32 (a + pre.countP enc.cont) + q)
      rw [seek_idle (by omega) hhead]
      exact ⟨rfl, .inl (by omega)⟩

/-- **The result is the slice of the characters if and only if its end is an int**; nothing outside of
the string is read then. -/
theorem substrFunc_iff (cs : List α) (p1 p2 : CInt) (hlen : (code.text cs).length + 1 < 2 ^ 31) :
    substrFunc enc (code.text cs) p1 p2 = some (code.text (slice cs p1.toInt p2.toInt)) ↔
      ¬Wraps cs.length p1.toInt p2.toInt := by
  have hcs : (0 : Int) ≤ cs.length ∧ (cs.length : Int) < 2 ^ 31 := by
    have := length_text code cs
    omega
  have h1 : -2 ^ 31 ≤ p1.toInt ∧ p1.toInt < 2 ^ 31 := ⟨BitVec.le_toInt p1, BitVec.toInt_lt⟩
  have h2 : -2 ^ 31 ≤ p2.toInt ∧ p2.toInt < 2 ^ 31 := ⟨BitVec.le_toInt p2, BitVec.toInt_lt⟩
  have hr := first_range hcs h1
  rw [substrFunc, charCount_text]
  generalize p1.toInt = p1 at *
  generalize p2.toInt = p2 at *
  by_cases hw : Wraps cs.length p1 p2
  · rw [iff_false_right (not_not.2 hw)]
    obtain ⟨hs, hend⟩ | ⟨hs, hend, hne⟩ := hw
    · rw [clip_high hcs h1 h2 hs hend]
      obtain ⟨hq, hout⟩ := toBytes_high code hlen (a := first cs.length p1) (q := p2) (by omega) h2.2 hend
      dsimp only at hq hout ⊢
      rw [hq, if_neg (by omega)]
      exact setResultString_outside (by omega) hout (code.zero_notMem_text _)
    · -- the whole string is taken where nothing should be
      rw [clip_low hcs h1 h2 hs hend]
      have hall := toBytes_text code hlen (a := 0) (q := cs.length) (by omega) (by omega)
      dsimp only at hall ⊢
      rw [hall]
      have hslice : slice cs p1 p2 = [] := by
        have : (first cs.length p1 + p2).toNat = 0 := by omega
        simp [slice, this]
      rw [hslice]
      intro h
      have hnil := (code.text_eq_nil).1 (Option.some.inj h)
      simp at hnil
      subst hnil
      exact hne rfl
  · rw [iff_true_right hw]
    obtain ⟨q, hclip, hq, hq', htoNat⟩ := clip_eq hcs h1 h2 hw
    rw [hclip]
    have hall := toBytes_text code hlen (a := max (first cs.length p1) 0) (q := q) (by omega) (by omega)
    dsimp only at hall ⊢
    rw [hall, slice, htoNat]
    have hmax : (max (first cs.length p1) 0).toNat = (first cs.length p1).toNat := by omega
    rw [hmax, List.drop_take]
    congr 2
    -- what a slice takes behind the end of the string is nothing
    rw [List.take_eq_take_iff, List.length_drop]
    omega

end

def abc : List Letter := [⟨'a', by decide⟩, ⟨'b', by decide⟩, ⟨'c', by decide⟩]

theorem substrFunc_iff_abc :
    substrFunc .utf8 (utf8.text abc) 2 1 = some (utf8.text (slice abc (2 : CInt).toInt (1 : CInt).toInt)) ↔
      ¬Wraps abc.length (2 : CInt).toInt (1 : CInt).toInt :=
  substrFunc_iff utf8 abc 2 1 (by decide)

/-- From the third character on, the end is not an int, and the copy goes on behind the string. -/
theorem substrFunc_fails : ¬∀ (cs : List Letter) (p1 p2 : CInt), (utf8.text cs).length + 1 < 2 ^ 31 →
    substrFunc .utf8 (utf8.text cs) p1 p2 = some (utf8.text (slice cs p1.toInt p2.toInt)) := by
  intro h
  have hnone : substrFunc .utf8 (utf8.text abc) 3 2147483646 = none := by decide
  have h' := h abc 3 2147483646 (by decide)
  rw [hnone] at h'
  cases h'

/-- A start from the end of the string. -/
example : substrFunc .utf8 (utf8.text abc) (-2) 1 = some [98] := by decide

end Dbsql.L5.Func.Substr
