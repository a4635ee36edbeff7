import Dbsql.Core.Wildcard
import Dbsql.L1Encoding.IndexKey
/-!
# The GLOB operator (str.c:385-516)

The library as it is configured: a byte is a character, `__next_char` is `++` and `__char_val` is the
byte. The function keeps the byte of the pattern in a `char`, which has a sign on most machines, and
compares it with the unsigned byte of the string; `signed` says whether it has.

A pattern is read into wildcard items in two ways: with its bytes as they are (`byteReading`), which is
what the comment over the function says, and with its bytes as `char`s (`charReading`).

Results:
* `strGlobCmp_text`: the answer is that of the pattern with its bytes as `char`s.
* `strGlobCmp_iff`: the patterns for which it is the right one.
* `strGlobCmp_plain`: those of ASCII are such, but for ranges backwards.
-/
namespace Dbsql.L5.Func.Glob
open Dbsql.L1 Dbsql.Core.Wildcard

/-! ## The code -/

/-- A byte as a `char`. -/
def asChar (signed : Bool) (b : UInt8) : Int :=
  if signed && 128 ≤ b.toNat then (b.toNat : Int) - 256 else b.toNat

/-- The loop over a run of `*` and `?` (str.c:429-436), from behind the first `*`: what follows in the
pattern and in the string, or `none` if the string ends under a `?`. -/
def globRun : Bytes → Bytes → Option (Bytes × Bytes)
  | [], string => some ([], string)
  | c :: pattern, string =>
    if c = 42 then globRun pattern string
    else if c = 63 then if peek string = 0 then none else globRun pattern (string.drop 1)
    else some (c :: pattern, string)

/-- The loop in front of a set (str.c:440-445); `more` is the call for what follows in the pattern. -/
def setSearch (more : Bytes → Bool) : Bytes → Bool
  | [] => false
  | b :: string => if b = 0 then false else if more (b :: string) then true else setSearch more string

/-- The loops in front of another byte (str.c:447-458). -/
def byteSearch (more : Bytes → Bool) (c : UInt8) : Bytes → Bool
  | [] => false
  | b :: string =>
    if b = 0 then false
    else if b ≠ c then byteSearch more c string
    else if more (b :: string) then true
    else byteSearch more c string

/-- The loop over a set (str.c:484-499) for the character `c`: whether it was seen, and what follows the
`]`, or `none` if there is none. -/
def setLoop (signed : Bool) (c : Int) (pattern : Bytes) (priorC : Int) (seen : Bool) : Option (Bool × Bytes) :=
  match pattern with
  | [] => none
  | b :: pattern =>
    let c2 := asChar signed b
    if c2 = 0 then none
    else if c2 = 93 then some (seen, pattern)
    else if c2 = 45 ∧ peek pattern ≠ 93 ∧ peek pattern ≠ 0 ∧ 0 < priorC then
      let c2 := asChar signed (peek pattern)
      setLoop signed c (pattern.drop 1) 0 (seen || decide (priorC ≤ c ∧ c ≤ c2))
    else if c = c2 then setLoop signed c pattern c2 true
    else setLoop signed c pattern c2 seen
termination_by pattern.length
decreasing_by
  · rw [List.length_drop, List.length_cons]
    omega
  · exact Nat.lt_succ_self _
  · exact Nat.lt_succ_self _

/-- Whether a byte stands first, and what follows it then. -/
def takeIf (c : UInt8) (pattern : Bytes) : Bool × Bytes :=
  if peek pattern = c then (true, pattern.drop 1) else (false, pattern)

/-- A set (str.c:467-505), from behind its `[`: what follows it, if it has the next character. -/
def globSet (signed : Bool) (pattern string : Bytes) : Option Bytes :=
  let c := asChar signed (peek string)
  if c = 0 then none
  else
    let (invert, pattern) := takeIf 94 pattern
    let (first, pattern) := takeIf 93 pattern
    match setLoop signed c pattern 0 (first && c == 93) with
    | none => none
    | some (seen, pattern) => if (seen ^^ invert) = false then none else some pattern

theorem globRun_suffix {p s p' s' : Bytes} (h : globRun p s = some (p', s')) : p' <:+ p ∧ s' <:+ s := by
  induction p generalizing s with
  | nil =>
    cases h
    exact ⟨List.suffix_rfl, List.suffix_rfl⟩
  | cons c p ih =>
    rw [globRun] at h
    split at h
    · obtain ⟨hp, hs⟩ := ih h
      exact ⟨hp.trans (List.suffix_cons _ _), hs⟩
    split at h
    · split at h
      · cases h
      · obtain ⟨hp, hs⟩ := ih h
        exact ⟨hp.trans (List.suffix_cons _ _), hs.trans (List.drop_suffix _ _)⟩
    · cases h
      exact ⟨List.suffix_rfl, List.suffix_rfl⟩

theorem setLoop_suffix {signed : Bool} {c : Int} {p p' : Bytes} {priorC : Int} {seen seen' : Bool}
    (h : setLoop signed c p priorC seen = some (seen', p')) : p' <:+ p := by
  induction hn : p.length using Nat.strong_induction_on generalizing p priorC seen with
  | _ n ih =>
    rw [setLoop.eq_def] at h
    cases p with
    | nil => cases h
    | cons b p =>
      simp only [List.length_cons] at h hn
      split at h
      · cases h
      split at h
      · cases h
        exact List.suffix_cons _ _
      split at h
      · exact ((ih _ (by simp; omega) h rfl).trans (List.drop_suffix _ _)).trans (List.suffix_cons _ _)
      split at h
      · exact (ih _ (by omega) h rfl).trans (List.suffix_cons _ _)
      · exact (ih _ (by omega) h rfl).trans (List.suffix_cons _ _)

theorem takeIf_suffix (c : UInt8) (p : Bytes) : (takeIf c p).2 <:+ p := by
  unfold takeIf
  split
  · exact List.drop_suffix _ _
  · exact List.suffix_rfl

theorem globSet_suffix {signed : Bool} {p s p' : Bytes} (h : globSet signed p s = some p') : p' <:+ p := by
  unfold globSet at h
  simp only at h
  split at h
  · cases h
  split at h
  · cases h
  · rename_i hloop
    split at h
    · cases h
    · cases h
      exact (setLoop_suffix hloop).trans ((takeIf_suffix _ _).trans (takeIf_suffix _ _))

/-- `__str_glob_cmp` (str.c:416-516). -/
def strGlobCmp (signed : Bool) (pattern string : Bytes) : Bool :=
  match pattern with
  | [] => peek string == 0
  | b :: pattern =>
    if b = 0 then peek string == 0
    else if b = 42 then
      match _h : globRun pattern string with
      | none => false
      | some ([], _) => true
      | some (c :: pattern, string) =>
        if c = 0 then true
        else if c = 91 then setSearch (strGlobCmp signed (c :: pattern)) string
        else byteSearch (strGlobCmp signed (c :: pattern)) c string
    else if b = 63 then
      if peek string = 0 then false else strGlobCmp signed pattern (string.drop 1)
    else if b = 91 then
      match _h : globSet signed pattern string with
      | none => false
      | some pattern => strGlobCmp signed pattern (string.drop 1)
    else if asChar signed b ≠ (peek string).toNat then false
    else strGlobCmp signed pattern (string.drop 1)
termination_by pattern.length
decreasing_by
  · exact Nat.lt_succ_of_le (globRun_suffix _h).1.length_le
  · exact Nat.lt_succ_of_le (globRun_suffix _h).1.length_le
  · exact Nat.lt_succ_self _
  · exact Nat.lt_succ_of_le (globSet_suffix _h).length_le
  · exact Nat.lt_succ_self _

/-! ## Readings -/

/-- How the bytes of a pattern are taken: what a byte stands for, whether it may begin a range, and what
is in a range. -/
structure Reading where
  literal : UInt8 → UInt8 → Bool
  starts : UInt8 → Bool
  inRange : UInt8 → UInt8 → UInt8 → Bool

/-- Bytes as they are. -/
def byteReading : Reading where
  literal b c := b == c
  starts _ := true
  inRange x y c := x ≤ c && c ≤ y

/-- Bytes as `char`s: a negative one equals no byte of the string and begins no range, and the first byte
of a range is always in it. -/
def charReading (signed : Bool) : Reading where
  literal b c := asChar signed b == c.toNat
  starts x := 0 < asChar signed x
  inRange x y c := x == c || (asChar signed x ≤ asChar signed c && asChar signed c ≤ asChar signed y)

/-- The end of a range, from its `-` on; a `-` in front of the `]` is itself. -/
def rangeEnd : Bytes → Option (UInt8 × Bytes)
  | 45 :: y :: p => if y = 93 then none else some (y, p)
  | _ => none

theorem rangeEnd_some {p p' : Bytes} {y : UInt8} (h : rangeEnd p = some (y, p')) : p = 45 :: y :: p' ∧ y ≠ 93 := by
  unfold rangeEnd at h
  split at h
  · split at h
    · cases h
    · cases h
      exact ⟨rfl, by assumption⟩
  · cases h

/-- The characters of a set and what follows its `]`. -/
def setOf (r : Reading) (pattern : Bytes) : Option ((UInt8 → Bool) × Bytes) :=
  match pattern with
  | [] => none
  | b :: p =>
    if b = 93 then some (fun _ => false, p)
    else
      match _h : if r.starts b then rangeEnd p else none with
      | some (y, p') => (setOf r p').map fun e => (fun c => r.inRange b y c || e.1 c, e.2)
      | none => (setOf r p).map fun e => (fun c => b == c || e.1 c, e.2)
termination_by pattern.length
decreasing_by
  · split at _h
    · rw [(rangeEnd_some _h).1]
      simp
      omega
    · cases _h
  · exact Nat.lt_succ_self _

theorem setOf_close (r : Reading) (p : Bytes) : setOf r (93 :: p) = some (fun _ => false, p) := by
  rw [setOf, if_pos rfl]

theorem setOf_cons (r : Reading) {b : UInt8} (hb : b ≠ 93) (p : Bytes) : setOf r (b :: p) =
    match if r.starts b then rangeEnd p else none with
    | some (y, p') =>
      (setOf r p').map fun e : (UInt8 → Bool) × Bytes => (fun c => r.inRange b y c || e.1 c, e.2)
    | none => (setOf r p).map fun e : (UInt8 → Bool) × Bytes => (fun c => b == c || e.1 c, e.2) := by
  rw [setOf, if_neg hb]
  split <;> rename_i h <;> rw [h]

/-- A set with its `^` and its leading `]`. -/
def bracket (r : Reading) (pattern : Bytes) : Option ((UInt8 → Bool) × Bytes) :=
  let (invert, pattern) := takeIf 94 pattern
  let (first, pattern) := takeIf 93 pattern
  (setOf r pattern).map fun e => (fun c => (first && c == 93 || e.1 c) != invert, e.2)

/-- What follows the `]`. -/
def closing (p : Bytes) : Option Bytes :=
  match p.dropWhile (· != 93) with
  | [] => none
  | _ :: rest => some rest

theorem setOf_snd (r : Reading) (p : Bytes) : (setOf r p).map Prod.snd = closing p := by
  induction hn : p.length using Nat.strong_induction_on generalizing p with
  | _ n ih =>
    rw [setOf.eq_def]
    cases p with
    | nil => rfl
    | cons b p =>
      simp only [List.length_cons] at hn ⊢
      by_cases hb : b = 93
      · simp [hb, closing]
      · rw [if_neg hb]
        have hclosing : closing (b :: p) = closing p := by
          simp [closing, hb]
        rw [hclosing]
        split
        · rename_i y p' h
          split at h
          · obtain ⟨rfl, hy⟩ := rangeEnd_some h
            rw [Option.map_map]
            simp only [List.length_cons] at hn
            have : closing (45 :: y :: p') = closing p' := by
              simp [closing, hy]
            rw [this, ← ih _ (by omega) p' rfl]
            rfl
          · cases h
        · rw [Option.map_map, ← ih _ (by omega) p rfl]
          rfl

theorem closing_suffix {p rest : Bytes} (h : closing p = some rest) : rest <:+ p := by
  unfold closing at h
  split at h
  · cases h
  · rename_i b rest' heq
    cases h
    have hsuf := List.dropWhile_suffix (· != 93) (l := p)
    rw [heq] at hsuf
    exact (List.suffix_cons _ _).trans hsuf

/-- What follows a set. -/
def bracketRest (p : Bytes) : Option Bytes := closing (takeIf 93 (takeIf 94 p).2).2

theorem bracket_snd (r : Reading) (p : Bytes) : (bracket r p).map Prod.snd = bracketRest p := by
  rw [bracketRest, ← setOf_snd r, bracket, Option.map_map]
  rfl

theorem bracket_suffix {r : Reading} {p rest : Bytes} {e : UInt8 → Bool} (h : bracket r p = some (e, rest)) :
    rest <:+ p := by
  have hrest : bracketRest p = some rest := by rw [← bracket_snd r, h]; rfl
  exact (closing_suffix hrest).trans ((takeIf_suffix _ _).trans (takeIf_suffix _ _))

/-- The items of a pattern; a set that is not closed has no characters. -/
def globItems (r : Reading) (pattern : Bytes) : List (Item UInt8) :=
  match pattern with
  | [] => []
  | b :: p =>
    if b = 42 then .star :: globItems r p
    else if b = 63 then .any :: globItems r p
    else if b = 91 then
      match _h : bracket r p with
      | none => [.one fun _ => false]
      | some (e, p) => .one e :: globItems r p
    else .one (r.literal b) :: globItems r p
termination_by pattern.length
decreasing_by
  · exact Nat.lt_succ_self _
  · exact Nat.lt_succ_self _
  · exact Nat.lt_succ_of_le (bracket_suffix _h).length_le
  · exact Nat.lt_succ_self _

/-- The items of two readings are of one shape. -/
theorem globItems_alike (r r' : Reading) (p : Bytes) : Alike (globItems r p) (globItems r' p) := by
  induction hn : p.length using Nat.strong_induction_on generalizing p with
  | _ n ih =>
    rw [globItems.eq_def r, globItems.eq_def r']
    cases p with
    | nil => exact .nil
    | cons b p =>
      simp only [List.length_cons] at hn ⊢
      split
      · exact .star (ih _ (by omega) p rfl)
      split
      · exact .one _ _ (ih _ (by omega) p rfl)
      split
      · have hsnd := (bracket_snd r p).trans (bracket_snd r' p).symm
        split <;> rename_i h <;> rw [h] at hsnd
        · split <;> rename_i h' <;> rw [h'] at hsnd
          · exact .one _ _ .nil
          · cases hsnd
        · split <;> rename_i h' <;> rw [h'] at hsnd
          · cases hsnd
          · cases hsnd
            exact .one _ _ (ih _ (Nat.lt_of_lt_of_eq (Nat.lt_succ_of_le (bracket_suffix h).length_le) hn) _ rfl)
      · exact .one _ _ (ih _ (by omega) p rfl)

/-! ## The code reads `char`s -/

theorem asChar_inj {signed : Bool} {b c : UInt8} : asChar signed b = asChar signed c ↔ b = c := by
  have hb := b.toNat_lt
  have hc := c.toNat_lt
  rw [← UInt8.toNat_inj]
  cases signed with
  | false => simp [asChar]
  | true =>
    simp only [asChar, Bool.true_and, decide_eq_true_eq]
    split <;> split <;> omega

theorem asChar_low {signed : Bool} {b : UInt8} (h : b.toNat < 128) : asChar signed b = b.toNat := by
  unfold asChar
  rw [if_neg]
  simp
  omega

theorem asChar_eq_low {signed : Bool} {b c : UInt8} (hc : c.toNat < 128) : asChar signed b = c.toNat ↔ b = c := by
  rw [← @asChar_low signed _ hc, asChar_inj]

theorem asChar_zero {signed : Bool} {b : UInt8} : asChar signed b = 0 ↔ b = 0 :=
  asChar_eq_low (c := 0) (by decide)

theorem asChar_close {signed : Bool} {b : UInt8} : asChar signed b = 93 ↔ b = 93 :=
  asChar_eq_low (c := 93) (by decide)

theorem asChar_dash {signed : Bool} {b : UInt8} : asChar signed b = 45 ↔ b = 45 :=
  asChar_eq_low (c := 45) (by decide)

section
variable {signed : Bool}

/-- A `-` ends a range. -/
theorem setLoop_range {p p' : Bytes} {y : UInt8} (hr : rangeEnd p = some (y, p')) (h0 : 0 ∉ p) {c priorC : Int}
    (hprior : 0 < priorC) (seen : Bool) : setLoop signed c p priorC seen =
      setLoop signed c p' 0 (seen || decide (priorC ≤ c ∧ c ≤ asChar signed y)) := by
  obtain ⟨rfl, hy⟩ := rangeEnd_some hr
  simp only [List.mem_cons, not_or] at h0
  have h45 : asChar signed 45 = 45 := asChar_dash.2 rfl
  have hpeek : peek (y :: p') = y := rfl
  rw [setLoop.eq_def]
  simp only [h45, hpeek, List.drop_one, List.tail_cons]
  rw [if_neg (by decide), if_neg (by decide), if_pos ⟨trivial, hy, Ne.symm h0.2.1, hprior⟩]

/-- Where no range can end the last character does not matter. -/
theorem setLoop_prior {p : Bytes} {c priorC : Int} (h : 0 < priorC → rangeEnd p = none) (h0 : 0 ∉ p)
    (seen : Bool) : setLoop signed c p priorC seen = setLoop signed c p 0 seen := by
  rw [setLoop.eq_def, setLoop.eq_def signed c p 0]
  cases p with
  | nil => rfl
  | cons b p =>
    have hno : ¬(asChar signed b = 45 ∧ peek p ≠ 93 ∧ peek p ≠ 0 ∧ 0 < priorC) := by
      rintro ⟨hb, hclose, hend, hprior⟩
      rw [asChar_dash] at hb
      have hr := h hprior
      cases p with
      | nil => exact hend rfl
      | cons y p =>
        have hy : y ≠ 93 := hclose
        simp [hb, rangeEnd, hy] at hr
    simp only [hno, if_false, lt_irrefl, and_false]

/-- **The loop over a set reads its bytes as `char`s.** -/
theorem setLoop_eq {p : Bytes} (h0 : 0 ∉ p) (c : UInt8) (seen : Bool) :
    setLoop signed (asChar signed c) p 0 seen =
      (setOf (charReading signed) p).map fun e => (seen || e.1 c, e.2) := by
  induction hn : p.length using Nat.strong_induction_on generalizing p seen with
  | _ n ih =>
    rw [setLoop.eq_def, setOf.eq_def]
    cases p with
    | nil => rfl
    | cons b p =>
      simp only [List.mem_cons, not_or, List.length_cons] at h0 hn
      simp only [asChar_zero, asChar_close, lt_irrefl, and_false, if_false, asChar_inj, Ne.symm h0.1]
      by_cases hb : b = 93
      · simp [hb]
      rw [if_neg hb, if_neg hb]
      -- the character is itself, and the last one for what follows
      have hself : (if c = b then setLoop signed (asChar signed c) p (asChar signed b) true
          else setLoop signed (asChar signed c) p (asChar signed b) seen) =
          setLoop signed (asChar signed c) p (asChar signed b) (seen || b == c) := by
        by_cases hc : c = b
        · simp [hc]
        · rw [if_neg hc, beq_false_of_ne (Ne.symm hc), Bool.or_false]
      rw [hself]
      split
      · rename_i y p' h
        split at h
        · rename_i hstarts
          have hprior : 0 < asChar signed b := by simpa [charReading] using hstarts
          obtain ⟨rfl, -⟩ := rangeEnd_some h
          have h0' := h0.2
          simp only [List.mem_cons, not_or, List.length_cons] at h0' hn
          rw [setLoop_range h h0.2 hprior, ih _ (by omega) h0'.2.2 _ rfl, Option.map_map]
          congr 1
          funext e
          simp [charReading, Bool.or_assoc]
        · cases h
      · rename_i h
        have hnone : 0 < asChar signed b → rangeEnd p = none := by
          intro hprior
          rwa [if_pos (by simpa [charReading] using hprior)] at h
        rw [setLoop_prior hnone h0.2, ih _ (by omega) h0.2 _ rfl, Option.map_map]
        congr 1
        funext e
        simp [Bool.or_assoc]

theorem zero_notMem_takeIf {p : Bytes} (h0 : 0 ∉ p) (c : UInt8) : 0 ∉ (takeIf c p).2 :=
  fun h => h0 ((takeIf_suffix c p).subset h)

/-- A set of the code is one of `char`s. -/
theorem globSet_eq {p : Bytes} (h0 : 0 ∉ p) {c : UInt8} (hc : c ≠ 0) (s : Bytes) :
    globSet signed p (c :: s) =
      (bracket (charReading signed) p).bind fun e => if e.1 c = true then some e.2 else none := by
  have hpeek : peek (c :: s) = c := rfl
  have h93 : (asChar signed c == 93) = (c == 93) := by
    rw [Bool.eq_iff_iff]
    simp [asChar_close]
  unfold globSet bracket
  simp only [hpeek, asChar_zero, hc, if_false, h93]
  rw [setLoop_eq (zero_notMem_takeIf (zero_notMem_takeIf h0 _) _)]
  cases setOf (charReading signed) (takeIf 93 (takeIf 94 p).2).2 with
  | none => rfl
  | some e =>
    simp only [Option.map_some, Option.bind_some]
    cases (takeIf 94 p).1 <;> cases ((takeIf 93 (takeIf 94 p).2).1 && c == 93 || e.1 c) <;> rfl

theorem drop_cons_iff {b : UInt8} {s : Bytes} {P : Bytes → Prop} :
    (∃ n c t, (b :: s).drop n = c :: t ∧ P (c :: t)) ↔ P (b :: s) ∨ ∃ n c t, s.drop n = c :: t ∧ P (c :: t) := by
  constructor
  · intro h
    obtain ⟨n, c, t, hdrop, h⟩ := h
    cases n with
    | zero =>
      cases hdrop
      exact .inl h
    | succ n => exact .inr ⟨n, c, t, hdrop, h⟩
  · intro h
    cases h with
    | inl h => exact ⟨0, b, s, rfl, h⟩
    | inr h =>
      obtain ⟨n, h⟩ := h
      exact ⟨n + 1, h⟩

/-- The search in front of a set tries every character. -/
theorem setSearch_iff {more : Bytes → Bool} {s : Bytes} (h0 : 0 ∉ s) :
    setSearch more s = true ↔ ∃ n c t, s.drop n = c :: t ∧ more (c :: t) = true := by
  induction s with
  | nil => simp [setSearch]
  | cons b s ih =>
    simp only [List.mem_cons, not_or] at h0
    rw [drop_cons_iff (P := fun t => more t = true), ← ih h0.2, setSearch, if_neg (Ne.symm h0.1)]
    cases more (b :: s) <;> simp

/-- The search in front of a byte tries the places where it stands. -/
theorem byteSearch_iff {more : Bytes → Bool} {c : UInt8} {s : Bytes} (h0 : 0 ∉ s)
    (hmore : ∀ b t, more (b :: t) = true → b = c) :
    byteSearch more c s = true ↔ ∃ n b t, s.drop n = b :: t ∧ more (b :: t) = true := by
  induction s with
  | nil => simp [byteSearch]
  | cons b s ih =>
    simp only [List.mem_cons, not_or] at h0
    rw [drop_cons_iff (P := fun t => more t = true), ← ih h0.2, byteSearch, if_neg (Ne.symm h0.1)]
    by_cases hb : b = c
    · rw [if_neg (not_not.2 hb)]
      cases more (b :: s) <;> simp
    · rw [if_pos hb]
      constructor
      · exact .inr
      · intro h
        cases h with
        | inl h => exact absurd (hmore b s h) hb
        | inr h => exact h

/-- What a run leaves: nothing if the string cannot match, and else as much as a star stands before. -/
def AfterRun (r : Reading) (p s : Bytes) : Option (Bytes × Bytes) → Prop
  | none => ¬Matches (.star :: globItems r p) s
  | some (p', s') => peek p' ≠ 42 ∧ peek p' ≠ 63 ∧
      (Matches (.star :: globItems r p) s ↔ Matches (.star :: globItems r p') s')

theorem AfterRun.cons {r : Reading} {b : UInt8} {p s t : Bytes} {o : Option (Bytes × Bytes)}
    (h : AfterRun r p t o)
    (heq : Matches (.star :: globItems r (b :: p)) s ↔ Matches (.star :: globItems r p) t) :
    AfterRun r (b :: p) s o := by
  cases o with
  | none => exact fun hm => h (heq.1 hm)
  | some o => exact ⟨h.1, h.2.1, heq.trans h.2.2⟩

theorem globItems_star (r : Reading) (p : Bytes) : globItems r (42 :: p) = .star :: globItems r p := by
  rw [globItems]
  simp

theorem globItems_any (r : Reading) (p : Bytes) : globItems r (63 :: p) = .any :: globItems r p := by
  rw [globItems]
  simp

theorem peek_zero {s : Bytes} (h0 : 0 ∉ s) : peek s = 0 ↔ s = [] := by
  cases s with
  | nil => simp [peek]
  | cons b s =>
    simp only [List.mem_cons, not_or] at h0
    simp [peek, Ne.symm h0.1]

/-- A run is a star and as many characters as it has `?`. -/
theorem globRun_eq (r : Reading) (p : Bytes) {s : Bytes} (h0 : 0 ∉ s) : AfterRun r p s (globRun p s) := by
  induction p generalizing s with
  | nil => exact ⟨by decide, by decide, Iff.rfl⟩
  | cons b p ih =>
    rw [globRun]
    by_cases hstar : b = 42
    · subst hstar
      rw [if_pos rfl]
      apply (ih h0).cons
      rw [globItems_star, matches_star_star]
    rw [if_neg hstar]
    by_cases hany : b = 63
    · subst hany
      rw [if_pos rfl]
      cases s with
      | nil =>
        rw [if_pos (by decide)]
        show ¬_
        rw [globItems_any, matches_star_nil]
        exact matches_one_nil
      | cons c s =>
        rw [if_neg ((peek_zero h0).not.2 (List.cons_ne_nil _ _)), List.drop_one, List.tail_cons]
        apply (ih fun h => h0 (List.mem_cons_of_mem _ h)).cons
        rw [globItems_any, matches_star_any, Item.any, matches_one_cons]
        simp
    · rw [if_neg hany]
      exact ⟨hstar, hany, Iff.rfl⟩

/-- A `*` and the run it begins. -/
theorem strGlobCmp_star (p s : Bytes) : strGlobCmp signed (42 :: p) s = match globRun p s with
    | none => false
    | some ([], _) => true
    | some (c :: p', s') =>
      if c = 0 then true
      else if c = 91 then setSearch (strGlobCmp signed (c :: p')) s'
      else byteSearch (strGlobCmp signed (c :: p')) c s' := by
  rw [strGlobCmp]
  rw [if_neg (by decide), if_pos rfl]
  split <;> rename_i h <;> rw [h]

theorem strGlobCmp_set (p s : Bytes) : strGlobCmp signed (91 :: p) s = match globSet signed p s with
    | none => false
    | some p' => strGlobCmp signed p' (s.drop 1) := by
  rw [strGlobCmp]
  rw [if_neg (by decide), if_neg (by decide), if_neg (by decide), if_pos rfl]
  split <;> rename_i h <;> rw [h]

theorem globItems_set (r : Reading) (p : Bytes) : globItems r (91 :: p) = match bracket r p with
    | none => [.one fun _ => false]
    | some (e, p') => .one e :: globItems r p' := by
  rw [globItems]
  rw [if_neg (by decide), if_neg (by decide), if_pos rfl]
  split <;> rename_i h <;> rw [h]

theorem globItems_byte (r : Reading) {b : UInt8} (p : Bytes) (hb : b ≠ 42 ∧ b ≠ 63 ∧ b ≠ 91) :
    globItems r (b :: p) = .one (r.literal b) :: globItems r p := by
  rw [globItems, if_neg hb.1, if_neg hb.2.1, if_neg hb.2.2]

theorem strGlobCmp_byte {b : UInt8} (p s : Bytes) (h0 : b ≠ 0) (hb : b ≠ 42 ∧ b ≠ 63 ∧ b ≠ 91) :
    strGlobCmp signed (b :: p) s = true ↔
      ∃ c t, s = c :: t ∧ asChar signed b = c.toNat ∧ strGlobCmp signed p t = true := by
  rw [strGlobCmp, if_neg h0, if_neg hb.1, if_neg hb.2.1, if_neg hb.2.2]
  cases s with
  | nil =>
    have hne : asChar signed b ≠ (peek []).toNat := fun h => h0 (asChar_zero.1 h)
    rw [if_pos hne]
    simp
  | cons c t =>
    have hpeek : peek (c :: t) = c := rfl
    rw [hpeek, List.drop_one, List.tail_cons]
    by_cases hc : asChar signed b = c.toNat
    · simp [hc]
    · simp [hc]

/-- A byte that a `char` equals is the byte itself. -/
theorem eq_of_asChar {b c : UInt8} (h : asChar signed b = c.toNat) : b = c := by
  apply UInt8.toNat_inj.1
  have := b.toNat_lt
  unfold asChar at h
  split at h <;> omega

/-- What is searched for behind a star takes a character. -/
theorem exists_cons_of_matches {r : Reading} {c : UInt8} {q u : Bytes} (hstar : c ≠ 42) (hany : c ≠ 63)
    (hu : Matches (globItems r (c :: q)) u) : ∃ d v, u = d :: v := by
  cases u with
  | nil =>
    exfalso
    by_cases hset : c = 91
    · subst hset
      rw [globItems_set] at hu
      split at hu <;> exact matches_one_nil hu
    · rw [globItems_byte _ _ ⟨hstar, hany, hset⟩] at hu
      exact matches_one_nil hu
  | cons d v => exact ⟨d, v, rfl⟩

/-- The search behind a run is that of a star. -/
theorem search_iff {c : UInt8} {q t : Bytes} (hstar : c ≠ 42) (hany : c ≠ 63) (hq : 0 ∉ c :: q) (ht : 0 ∉ t)
    (ih : ∀ u, 0 ∉ u →
      (strGlobCmp signed (c :: q) u = true ↔ Matches (globItems (charReading signed) (c :: q)) u)) :
    (if c = 91 then setSearch (strGlobCmp signed (c :: q)) t
      else byteSearch (strGlobCmp signed (c :: q)) c t) = true ↔
      Matches (.star :: globItems (charReading signed) (c :: q)) t := by
  have hplaces : (∃ k, Matches (globItems (charReading signed) (c :: q)) (t.drop k)) ↔
      ∃ k d v, t.drop k = d :: v ∧ strGlobCmp signed (c :: q) (d :: v) = true := by
    refine exists_congr fun k => ?_
    have hk : 0 ∉ t.drop k := fun h => ht (List.mem_of_mem_drop h)
    constructor
    · intro h
      obtain ⟨d, v, hdrop⟩ := exists_cons_of_matches hstar hany h
      have h' := (ih _ hk).2 h
      rw [hdrop] at h'
      exact ⟨d, v, hdrop, h'⟩
    · intro h
      obtain ⟨d, v, hdrop, h⟩ := h
      rw [← ih _ hk, hdrop]
      exact h
  rw [matches_star, hplaces]
  by_cases hset : c = 91
  · rw [if_pos hset, setSearch_iff ht]
  · rw [if_neg hset, byteSearch_iff ht]
    intro d v h
    have hc0 : c ≠ 0 := fun h => hq (h ▸ List.mem_cons_self)
    obtain ⟨d', v', heq, hd, -⟩ := (strGlobCmp_byte q (d :: v) hc0 ⟨hstar, hany, hset⟩).1 h
    cases heq
    exact (eq_of_asChar hd).symm

/-- **The answer is that of the pattern with its bytes as `char`s.** -/
theorem strGlobCmp_text {p s : Bytes} (hp : 0 ∉ p) (hs : 0 ∉ s) :
    strGlobCmp signed p s = true ↔ Matches (globItems (charReading signed) p) s := by
  induction hn : p.length using Nat.strong_induction_on generalizing p s with
  | _ n ih =>
    cases p with
    | nil =>
      rw [strGlobCmp, globItems]
      simp [peek_zero hs]
    | cons b p =>
      have hp' : 0 ∉ p := fun h => hp (List.mem_cons_of_mem _ h)
      have hb0 : b ≠ 0 := fun h => hp (h ▸ List.mem_cons_self)
      rw [List.length_cons] at hn
      by_cases hstar : b = 42
      · subst hstar
        rw [strGlobCmp_star, globItems_star]
        have hrun := globRun_eq (charReading signed) p hs
        cases hr : globRun p s with
        | none =>
          rw [hr] at hrun
          exact iff_of_false Bool.false_ne_true hrun
        | some o =>
          obtain ⟨q, t⟩ := o
          obtain ⟨hqp, hts⟩ := globRun_suffix hr
          rw [hr] at hrun
          obtain ⟨hnostar, hnoany, hm⟩ := hrun
          have hq0 : 0 ∉ q := fun h => hp' (hqp.subset h)
          have ht0 : 0 ∉ t := fun h => hs (hts.subset h)
          have hlen := hqp.length_le
          rw [hm]
          cases q with
          | nil => simp [globItems, matches_star_end]
          | cons c q =>
            have hc0 : c ≠ 0 := fun h => hq0 (h ▸ List.mem_cons_self)
            dsimp only
            rw [if_neg hc0]
            exact search_iff hnostar hnoany hq0 ht0 fun u hu => ih _ (by omega) hq0 hu rfl
      by_cases hany : b = 63
      · subst hany
        rw [globItems_any, strGlobCmp]
        rw [if_neg (by decide), if_neg (by decide), if_pos rfl]
        cases s with
        | nil => simp [Item.any, peek]
        | cons c s =>
          have hs' : 0 ∉ s := fun h => hs (List.mem_cons_of_mem _ h)
          rw [if_neg ((peek_zero hs).not.2 (List.cons_ne_nil _ _)), List.drop_one, List.tail_cons,
            ih _ (by omega) hp' hs' rfl, Item.any, matches_one_cons]
          simp
      by_cases hset : b = 91
      · subst hset
        rw [strGlobCmp_set, globItems_set]
        cases s with
        | nil =>
          have hnone : globSet signed p [] = none := by simp [globSet, peek, asChar_zero]
          rw [hnone]
          refine iff_of_false Bool.false_ne_true ?_
          split <;> exact matches_one_nil
        | cons c s =>
          have hc0 : c ≠ 0 := fun h => hs (h ▸ List.mem_cons_self)
          have hs' : 0 ∉ s := fun h => hs (List.mem_cons_of_mem _ h)
          rw [globSet_eq hp' hc0]
          cases hbr : bracket (charReading signed) p with
          | none => simp
          | some e =>
            have hsuf := bracket_suffix hbr
            have hlen := hsuf.length_le
            rw [Option.bind_some]
            dsimp only
            rw [matches_one_cons]
            by_cases hin : e.1 c = true
            · rw [if_pos hin]
              simp only [hin, true_and, List.drop_one, List.tail_cons]
              exact ih _ (by omega) (fun h => hp' (hsuf.subset h)) hs' rfl
            · rw [if_neg hin]
              simp [hin]
      · rw [strGlobCmp_byte _ _ hb0 ⟨hstar, hany, hset⟩, globItems_byte _ _ ⟨hstar, hany, hset⟩]
        cases s with
        | nil => simp
        | cons c s =>
          have hs' : 0 ∉ s := fun h => hs (List.mem_cons_of_mem _ h)
          rw [matches_one_cons, ← ih _ (by omega) hp' hs' rfl]
          simp [charReading]

end

/-! ## The right patterns -/

/-- The two readings of a pattern have the same characters, item by item, or leave no string both. -/
def ReadsSame (signed : Bool) (p : Bytes) : Prop :=
  let A := fun c : UInt8 => c ≠ 0
  SameSets A (globItems (charReading signed) p) (globItems byteReading p) ∨
    Void A (globItems (charReading signed) p) ∧ Void A (globItems byteReading p)

/-- **The answer of a pattern is right for every string if and only if its bytes say the same as
`char`s.** -/
theorem strGlobCmp_iff (signed : Bool) (p : Bytes) (hp : 0 ∉ p) :
    (∀ s, 0 ∉ s → (strGlobCmp signed p s = true ↔ Matches (globItems byteReading p) s)) ↔
      ReadsSame signed p := by
  have hzero : ∀ s : Bytes, 0 ∉ s ↔ ∀ c ∈ s, c ≠ 0 := fun s =>
    ⟨fun h c hc h0 => h (h0 ▸ hc), fun h h0 => h 0 h0 rfl⟩
  rw [ReadsSame, ← matches_iff_of_alike (globItems_alike (charReading signed) byteReading p)]
  refine forall_congr' fun s => ?_
  rw [← hzero]
  refine forall_congr' fun hs => ?_
  rw [strGlobCmp_text hp hs]

theorem strGlobCmp_iff_star :
    (∀ s, 0 ∉ s → (strGlobCmp true (ascii "*[a-c]") s = true ↔ Matches (globItems byteReading (ascii "*[a-c]")) s)) ↔
      ReadsSame true (ascii "*[a-c]") :=
  strGlobCmp_iff _ _ (by decide)

/-- A pattern of ASCII with no range backwards. -/
structure Plain (p : Bytes) : Prop where
  ascii : ∀ b ∈ p, 0 < b.toNat ∧ b.toNat < 128
  ascending : ∀ pre x y post, p = pre ++ x :: 45 :: y :: post → x ≤ y

theorem Plain.suffix {p q : Bytes} (h : Plain p) (hq : q <:+ p) : Plain q where
  ascii b hb := h.ascii b (hq.subset hb)
  ascending pre x y post heq := by
    obtain ⟨front, rfl⟩ := hq
    exact h.ascending (front ++ pre) x y post (by rw [heq, List.append_assoc])

/-- A range of ASCII is the same in both readings. -/
theorem inRange_ascii (signed : Bool) {x y : UInt8} (hx : 0 < x.toNat ∧ x.toNat < 128) (hy : y.toNat < 128)
    (hle : x ≤ y) : (charReading signed).inRange x y = byteReading.inRange x y := by
  funext c
  rw [UInt8.le_iff_toNat_le] at hle
  have hc := c.toNat_lt
  rw [Bool.eq_iff_iff]
  simp only [charReading, byteReading, Bool.or_eq_true, Bool.and_eq_true,
    beq_iff_eq, decide_eq_true_eq, UInt8.le_iff_toNat_le, ← UInt8.toNat_inj, asChar]
  split <;> omega

theorem setOf_plain (signed : Bool) {p : Bytes} (h : Plain p) :
    setOf (charReading signed) p = setOf byteReading p := by
  induction hn : p.length using Nat.strong_induction_on generalizing p with
  | _ n ih =>
    cases p with
    | nil => rw [setOf, setOf]
    | cons b p =>
      rw [List.length_cons] at hn
      have hb := h.ascii b List.mem_cons_self
      have hstarts : (charReading signed).starts b = true := by
        simp only [charReading, asChar_low hb.2, decide_eq_true_eq]
        omega
      have hstarts' : byteReading.starts b = true := rfl
      by_cases hclose : b = 93
      · rw [hclose, setOf_close, setOf_close]
      rw [setOf_cons _ hclose, setOf_cons _ hclose, hstarts, hstarts', if_pos rfl]
      cases hr : rangeEnd p with
      | some e =>
        obtain ⟨y, p'⟩ := e
        obtain ⟨rfl, -⟩ := rangeEnd_some hr
        have hp' : Plain p' := h.suffix ⟨[b, 45, y], rfl⟩
        simp only [List.length_cons] at hn
        dsimp only
        rw [ih _ (by omega) hp' rfl, inRange_ascii signed hb (h.ascii y (by simp)).2 (h.ascending [] b y p' rfl)]
      | none =>
        dsimp only
        rw [ih _ (by omega) (h.suffix (List.suffix_cons _ _)) rfl]

theorem globItems_plain (signed : Bool) {p : Bytes} (h : Plain p) :
    globItems (charReading signed) p = globItems byteReading p := by
  induction hn : p.length using Nat.strong_induction_on generalizing p with
  | _ n ih =>
    cases p with
    | nil => simp [globItems]
    | cons b p =>
      have hp : Plain p := h.suffix (List.suffix_cons _ _)
      rw [List.length_cons] at hn
      by_cases hstar : b = 42
      · subst hstar
        rw [globItems_star, globItems_star, ih _ (by omega) hp rfl]
      by_cases hany : b = 63
      · subst hany
        rw [globItems_any, globItems_any, ih _ (by omega) hp rfl]
      by_cases hset : b = 91
      · subst hset
        have hbr : bracket (charReading signed) p = bracket byteReading p := by
          unfold bracket
          dsimp only
          rw [setOf_plain signed ((hp.suffix (takeIf_suffix _ _)).suffix (takeIf_suffix _ _))]
        rw [globItems_set, globItems_set, hbr]
        cases he : bracket byteReading p with
        | none => rfl
        | some e =>
          have hsuf := bracket_suffix he
          have hlen := hsuf.length_le
          dsimp only
          rw [ih _ (by omega) (hp.suffix hsuf) rfl]
      · rw [globItems_byte _ _ ⟨hstar, hany, hset⟩, globItems_byte _ _ ⟨hstar, hany, hset⟩, ih _ (by omega) hp rfl]
        have hlit : (charReading signed).literal b = byteReading.literal b := by
          funext c
          rw [Bool.eq_iff_iff]
          simp only [charReading, byteReading, asChar_low (h.ascii b List.mem_cons_self).2, beq_iff_eq,
            Int.natCast_inj, UInt8.toNat_inj]
        rw [hlit]

/-- On patterns of ASCII the answer is right, but for ranges backwards. -/
theorem strGlobCmp_plain (signed : Bool) {p s : Bytes} (h : Plain p) (hs : 0 ∉ s) :
    strGlobCmp signed p s = true ↔ Matches (globItems byteReading p) s := by
  have hp : 0 ∉ p := fun h0 => absurd (h.ascii 0 h0).1 (by decide)
  rw [strGlobCmp_text hp hs, globItems_plain signed h]

/-- A byte from 0x80 on does not match itself if `char` has a sign. -/
theorem strGlobCmp_fails : ¬∀ p s : Bytes, 0 ∉ p → 0 ∉ s →
    (strGlobCmp true p s = true ↔ Matches (globItems byteReading p) s) := by
  intro h
  have hm : Matches (globItems byteReading [0xe9]) [0xe9] := by
    rw [globItems_byte _ _ (by decide), globItems]
    exact .one (by decide) .nil
  have hno : strGlobCmp true [0xe9] [0xe9] ≠ true := by
    rw [Ne, strGlobCmp_byte _ _ (by decide) (by decide)]
    rintro ⟨c, t, heq, hc, -⟩
    cases heq
    exact absurd hc (by decide)
  exact hno ((h [0xe9] [0xe9] (by decide) (by decide)).2 hm)

end Dbsql.L5.Func.Glob
