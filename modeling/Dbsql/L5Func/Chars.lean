import Dbsql.L2Storage.Hash
/-!
# Characters (str.c:331-382)

The library is built for UTF-8 (`DBSQL_UTF8_ENCODING`) or for ISO 8859, where a byte is a character. The
code goes from character to character with `__next_char`, which skips the bytes that go on with one.

`CharCode` says what a matcher or a counter relies on: a character is a leading byte and bytes that go on
with it, and the leading byte tells how many. `utf8` and `iso8859` are the two builds.

Results:
* `nextChar_text`: `__next_char` goes to the next character of a text.
* `fold_utf8EncodeChar`: the case table changes the letters of ASCII and nothing else.
-/
namespace Dbsql.L5.Func.Chars
open Dbsql.L1
open Dbsql.L2.HashTable (strUpperToLower strUpperToLower_eq_zero)

/-- Whether `DBSQL_UTF8_ENCODING` is defined. -/
inductive Encoding
  | utf8
  | iso8859
  deriving DecidableEq

/-- `(0xc0 & b) == 0x80`, where the build looks at it. -/
def Encoding.cont : Encoding → UInt8 → Bool
  | .utf8, b => 0xc0 &&& b == 0x80
  | .iso8859, _ => false

/-- `__next_char` (str.c:372, 379). -/
def nextChar (enc : Encoding) (z : Bytes) : Bytes := (z.drop 1).dropWhile enc.cont

/-- How an encoding writes the characters of `α`, none of which is zero; `same` is equality but for the
case of ASCII. -/
structure CharCode (enc : Encoding) (α : Type) where
  lead : α → UInt8
  trail : α → Bytes
  lead_ne (c : α) : lead c ≠ 0
  lead_cont (c : α) : enc.cont (lead c) = false
  trail_cont (c : α) : ∀ b ∈ trail c, enc.cont b = true
  trail_ascii (c : α) : (lead c).toNat < 128 → trail c = []
  trail_length {c d : α} : strUpperToLower (lead c) = strUpperToLower (lead d) →
    (trail c).length = (trail d).length
  same : α → α → Bool
  same_iff {c d : α} : same c d = true ↔ strUpperToLower (lead c) = strUpperToLower (lead d) ∧
    (trail c).map strUpperToLower = (trail d).map strUpperToLower

/-! ## Bytes that go on -/

theorem cont_utf8 (b : UInt8) : Encoding.utf8.cont b = (decide (128 ≤ b.toNat) && decide (b.toNat < 192)) := by
  have h : ∀ n : Fin 256, (0xc0 &&& UInt8.ofFin n == 0x80) = (decide (128 ≤ n.val) && decide (n.val < 192)) := by
    decide +kernel
  exact h b.toFin

theorem toNat_of_cont {enc : Encoding} {b : UInt8} (h : enc.cont b = true) : 128 ≤ b.toNat := by
  cases enc with
  | iso8859 => cases h
  | utf8 =>
    rw [cont_utf8] at h
    simp at h
    exact h.1

theorem cont_zero (enc : Encoding) : enc.cont 0 = false := by
  cases enc <;> rfl

theorem toNat_strUpperToLower (b : UInt8) : (strUpperToLower b).toNat =
    if 65 ≤ b.toNat ∧ b.toNat ≤ 90 then b.toNat + 32 else b.toNat := by
  unfold strUpperToLower
  simp only [Bool.and_eq_true, decide_eq_true_eq, UInt8.le_iff_toNat_le, UInt8.reduceToNat]
  split
  · rw [UInt8.toNat_add]
    simp only [UInt8.reduceToNat]
    omega
  · rfl

theorem cont_strUpperToLower (enc : Encoding) (b : UInt8) : enc.cont (strUpperToLower b) = enc.cont b := by
  cases enc with
  | iso8859 => rfl
  | utf8 =>
    rw [cont_utf8, cont_utf8, toNat_strUpperToLower, Bool.eq_iff_iff]
    simp
    split <;> omega

/-! ## Texts -/

namespace CharCode
variable {enc : Encoding} {α : Type} (code : CharCode enc α)

/-- The bytes of a character. -/
def bytes (c : α) : Bytes := code.lead c :: code.trail c

/-- The bytes of a text. -/
def text (cs : List α) : Bytes := cs.flatMap code.bytes

@[simp] theorem text_nil : code.text [] = [] := rfl

@[simp] theorem text_cons (c : α) (cs : List α) :
    code.text (c :: cs) = code.lead c :: (code.trail c ++ code.text cs) := rfl

theorem text_append (cs ds : List α) : code.text (cs ++ ds) = code.text cs ++ code.text ds := by
  simp [text]

theorem text_eq_nil {cs : List α} : code.text cs = [] ↔ cs = [] := by
  cases cs <;> simp

/-- A text does not begin inside of a character. -/
theorem dropWhile_cont_text (cs : List α) : (code.text cs).dropWhile enc.cont = code.text cs := by
  cases cs with
  | nil => rfl
  | cons c cs => simp [code.lead_cont]

theorem dropWhile_cont_trail (c : α) (z : Bytes) :
    (code.trail c ++ z).dropWhile enc.cont = z.dropWhile enc.cont := by
  rw [List.dropWhile_append_of_pos (code.trail_cont c)]

/-- **`__next_char` goes to the next character.** -/
theorem nextChar_text (c : α) (cs : List α) : nextChar enc (code.text (c :: cs)) = code.text cs := by
  rw [nextChar, text_cons, List.drop_one, List.tail_cons, dropWhile_cont_trail, dropWhile_cont_text]

theorem trail_ne {c : α} {b : UInt8} (hb : b ∈ code.trail c) : b ≠ 0 := by
  rintro rfl
  have := code.trail_cont c 0 hb
  simp [cont_zero] at this

theorem zero_notMem_text (cs : List α) : 0 ∉ code.text cs := by
  induction cs with
  | nil => simp
  | cons c cs ih =>
    simp only [text_cons, List.mem_cons, List.mem_append, not_or]
    exact ⟨(code.lead_ne c).symm, fun h => code.trail_ne h rfl, ih⟩

end CharCode

/-! ## The two builds -/

/-- A character that may stand in a C string. -/
abbrev Letter := {c : Char // c ≠ '\x00'}

/-- A byte that may stand in a C string. -/
abbrev Byte := {b : UInt8 // b ≠ 0}

/-- A byte is a character. -/
def iso8859 : CharCode .iso8859 Byte where
  lead b := b.1
  trail _ := []
  lead_ne b := b.2
  lead_cont _ := rfl
  trail_cont _ := nofun
  trail_ascii _ _ := rfl
  trail_length _ := rfl
  same b b' := strUpperToLower b.1 == strUpperToLower b'.1
  same_iff := by simp

theorem char_lt (c : Char) : c.toNat < 0x110000 := by
  have h := c.valid
  simp only [UInt32.isValidChar, Nat.isValidChar] at h
  show c.val.toNat < _
  omega

/-- The bytes of a character, by the size of its number. -/
theorem utf8EncodeChar_cases (c : Char) :
    (c.toNat ≤ 0x7f ∧ String.utf8EncodeChar c = [UInt8.ofNat c.toNat]) ∨
    (0x7f < c.toNat ∧ c.toNat ≤ 0x7ff ∧ String.utf8EncodeChar c =
      [UInt8.ofNat (c.toNat / 64 % 32 + 0xc0), UInt8.ofNat (c.toNat % 64 + 0x80)]) ∨
    (0x7ff < c.toNat ∧ c.toNat ≤ 0xffff ∧ String.utf8EncodeChar c =
      [UInt8.ofNat (c.toNat / 4096 % 16 + 0xe0), UInt8.ofNat (c.toNat / 64 % 64 + 0x80),
        UInt8.ofNat (c.toNat % 64 + 0x80)]) ∨
    (0xffff < c.toNat ∧ c.toNat < 0x110000 ∧ String.utf8EncodeChar c =
      [UInt8.ofNat (c.toNat / 262144 % 8 + 0xf0), UInt8.ofNat (c.toNat / 4096 % 64 + 0x80),
        UInt8.ofNat (c.toNat / 64 % 64 + 0x80), UInt8.ofNat (c.toNat % 64 + 0x80)]) := by
  have hc := char_lt c
  have hval : c.val.toNat = c.toNat := rfl
  unfold String.utf8EncodeChar
  simp only [hval]
  split
  · exact .inl ⟨by assumption, rfl⟩
  split
  · exact .inr (.inl ⟨by omega, by assumption, rfl⟩)
  split
  · exact .inr (.inr (.inl ⟨by omega, by assumption, rfl⟩))
  · exact .inr (.inr (.inr ⟨by omega, hc, rfl⟩))

theorem toNat_ofNat_lt {n : Nat} (h : n < 256) : (UInt8.ofNat n).toNat = n := by
  simp
  omega

theorem cont_ofNat (n : Nat) : Encoding.utf8.cont (UInt8.ofNat (n % 64 + 0x80)) = true := by
  rw [cont_utf8, toNat_ofNat_lt (by omega)]
  simp
  omega

theorem strUpperToLower_high {b : UInt8} (h : 128 ≤ b.toNat) : strUpperToLower b = b := by
  apply UInt8.toNat_inj.1
  rw [toNat_strUpperToLower, if_neg (by omega)]

theorem toNat_lead (c : Char) : ∃ b t, String.utf8EncodeChar c = b :: t ∧
    (∀ b' ∈ t, Encoding.utf8.cont b' = true) ∧
    (b.toNat = c.toNat ∧ b.toNat < 0x80 ∧ t.length = 0 ∨
      0x80 ≤ c.toNat ∧ (0xc0 ≤ b.toNat ∧ b.toNat < 0xe0 ∧ t.length = 1 ∨
        0xe0 ≤ b.toNat ∧ b.toNat < 0xf0 ∧ t.length = 2 ∨
        0xf0 ≤ b.toNat ∧ b.toNat < 0xf8 ∧ t.length = 3)) := by
  obtain ⟨h, heq⟩ | ⟨h, h', heq⟩ | ⟨h, h', heq⟩ | ⟨h, h', heq⟩ := utf8EncodeChar_cases c <;>
    refine ⟨_, _, heq, by simp only [List.forall_mem_cons, cont_ofNat,
      true_and, List.not_mem_nil, false_imp_iff, implies_true], ?_⟩ <;>
    rw [toNat_ofNat_lt (by omega)] <;> simp <;> omega

/-- The bytes of a character are read back as that character. -/
theorem utf8EncodeChar_inj {c d : Char} (h : String.utf8EncodeChar c = String.utf8EncodeChar d) : c = d := by
  have hread : ∀ c : Char, (String.utf8EncodeChar c).toByteArray.utf8DecodeChar? 0 = some c := fun c => by
    have hc := ByteArray.utf8DecodeChar?_utf8EncodeChar_append (b := ByteArray.empty) (c := c)
    rwa [ByteArray.append_empty] at hc
  have hd := hread d
  rw [← h, hread c] at hd
  exact Option.some.inj hd

theorem toNat_toLower (c : Char) :
    c.toLower.toNat = if 65 ≤ c.toNat ∧ c.toNat ≤ 90 then c.toNat + 32 else c.toNat := by
  have hval : c.val.toNat = c.toNat := rfl
  unfold Char.toLower
  simp only [ge_iff_le, UInt32.le_iff_toNat_le]
  split
  · rename_i h
    have h' : 65 ≤ c.toNat ∧ c.toNat ≤ 90 := h
    rw [if_pos h']
    show (c.val + 32).toNat = _
    rw [UInt32.toNat_add]
    simp
    omega
  · rename_i h
    have h' : ¬(65 ≤ c.toNat ∧ c.toNat ≤ 90) := h
    rw [if_neg h']

/-- **The case table changes the letters of ASCII and nothing else.** -/
theorem fold_utf8EncodeChar (c : Char) :
    (String.utf8EncodeChar c).map strUpperToLower = String.utf8EncodeChar c.toLower := by
  by_cases hc : c.toNat ≤ 0x7f
  · have hlow := toNat_toLower c
    obtain ⟨-, heq⟩ | ⟨h, -⟩ | ⟨h, -⟩ | ⟨h, -⟩ := utf8EncodeChar_cases c <;> try omega
    obtain ⟨-, heq'⟩ | ⟨h, -⟩ | ⟨h, -⟩ | ⟨h, -⟩ := utf8EncodeChar_cases c.toLower <;>
      try (split at hlow <;> omega)
    rw [heq, heq', List.map_singleton, List.singleton_inj]
    apply UInt8.toNat_inj.1
    rw [toNat_strUpperToLower, toNat_ofNat_lt (by omega), hlow, toNat_ofNat_lt]
    split <;> omega
  · have hlow : c.toLower = c := by
      apply Char.toNat_inj.1
      rw [toNat_toLower, if_neg (by omega)]
    rw [hlow]
    conv_rhs => rw [← List.map_id (String.utf8EncodeChar c)]
    apply List.map_congr_left
    intro b hb
    apply strUpperToLower_high
    obtain ⟨b₀, t, heq, hcont, hlead⟩ := toNat_lead c
    rw [heq] at hb
    cases hb with
    | head => omega
    | tail _ hb =>
      have := hcont b hb
      rw [cont_utf8] at this
      simp at this
      omega

/-- A character is written as Lean's strings write it. -/
def utf8 : CharCode .utf8 Letter where
  lead c := (String.utf8EncodeChar c.1).headD 0
  trail c := (String.utf8EncodeChar c.1).tail
  lead_ne c := by
    obtain ⟨b, t, heq, -, hlead⟩ := toNat_lead c.1
    have hc : c.1.toNat ≠ 0 := fun h => c.2 (Char.toNat_inj.1 h)
    rw [heq, List.headD_cons]
    rintro rfl
    simp at hlead
    omega
  lead_cont c := by
    obtain ⟨b, t, heq, -, hlead⟩ := toNat_lead c.1
    rw [heq, List.headD_cons, cont_utf8]
    simp
    omega
  trail_cont c := by
    obtain ⟨b, t, heq, hcont, -⟩ := toNat_lead c.1
    rw [heq]
    exact hcont
  trail_ascii c h := by
    obtain ⟨b, t, heq, -, hlead⟩ := toNat_lead c.1
    rw [heq, List.headD_cons] at h
    rw [heq, List.tail_cons, ← List.length_eq_zero_iff]
    omega
  trail_length {c d} h := by
    obtain ⟨b, t, heq, -, hlead⟩ := toNat_lead c.1
    obtain ⟨b', t', heq', -, hlead'⟩ := toNat_lead d.1
    rw [heq, heq'] at h ⊢
    have h' := congrArg UInt8.toNat h
    simp only [List.headD_cons, toNat_strUpperToLower] at h'
    simp only [List.tail_cons]
    split at h' <;> split at h' <;> omega
  same c d := c.1.toLower == d.1.toLower
  same_iff {c d} := by
    rw [beq_iff_eq]
    have hfold : c.1.toLower = d.1.toLower ↔
        (String.utf8EncodeChar c.1).map strUpperToLower = (String.utf8EncodeChar d.1).map strUpperToLower := by
      rw [fold_utf8EncodeChar, fold_utf8EncodeChar]
      exact ⟨fun h => by rw [h], utf8EncodeChar_inj⟩
    obtain ⟨b, t, heq, -⟩ := toNat_lead c.1
    obtain ⟨b', t', heq', -⟩ := toNat_lead d.1
    rw [hfold, heq, heq']
    simp

theorem lead_utf8_iff (c : Letter) {b : UInt8} (hb : b.toNat < 128) : utf8.lead c = b ↔ c.1.toNat = b.toNat := by
  obtain ⟨b', t, heq, -, hlead⟩ := toNat_lead c.1
  show (String.utf8EncodeChar c.1).headD 0 = b ↔ _
  rw [heq, List.headD_cons, ← UInt8.toNat_inj]
  omega

/-- The bytes are those of a Lean string. -/
theorem utf8_text (cs : List Letter) : utf8.text cs = cs.flatMap fun c => String.utf8EncodeChar c.1 := by
  have hbytes : utf8.bytes = fun c : Letter => String.utf8EncodeChar c.1 := by
    funext c
    obtain ⟨b, t, heq, -⟩ := toNat_lead c.1
    show (String.utf8EncodeChar c.1).headD 0 :: (String.utf8EncodeChar c.1).tail = _
    rw [heq]
    rfl
  rw [CharCode.text, hbytes]

end Dbsql.L5.Func.Chars
