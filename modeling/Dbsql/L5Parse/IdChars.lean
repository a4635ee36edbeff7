import Dbsql.L5Parse.CompleteStmt
/-!
# The table of identifier characters (sql_tokenize.c:208-235)

`id_char_p` has 128 entries; a byte with its high bit set is to be an identifier character
without it. `__get_token` looks at the high bit before it reads the table. `dbsql_complete_stmt`
does not, and reads what is behind the table (`past`).

Both scanners are given here with the tests of bytes that they make.

Results:
* `getTokenTests_fst`, `completeStmtTests_fst`: the scanners are those without the tests.
* `idChar_tests_iff`: all reads are inside the table exactly if no byte outside of comments,
  quotes and brackets has its high bit set.
-/
namespace Dbsql.L5.Parse
open Dbsql.L1

/-! ## Tests -/

/-- `id_char_p` (sql_tokenize.c:222-235). -/
def idCharTable : List Nat :=
  [0, 0, 0, 0, 0, 0, 0, 0, 0, 0, 0, 0, 0, 0, 0, 0,
   0, 0, 0, 0, 0, 0, 0, 0, 0, 0, 0, 0, 0, 0, 0, 0,
   0, 0, 0, 0, 0, 0, 0, 0, 0, 0, 0, 0, 0, 0, 0, 0,
   1, 1, 1, 1, 1, 1, 1, 1, 1, 1, 0, 0, 0, 0, 0, 0,
   0, 1, 1, 1, 1, 1, 1, 1, 1, 1, 1, 1, 1, 1, 1, 1,
   1, 1, 1, 1, 1, 1, 1, 1, 1, 1, 1, 0, 0, 0, 0, 1,
   0, 1, 1, 1, 1, 1, 1, 1, 1, 1, 1, 1, 1, 1, 1, 1,
   1, 1, 1, 1, 1, 1, 1, 1, 1, 1, 1, 0, 0, 0, 0, 0]

/-- A test of a byte: the index it reads the table at, if it does, and what it comes to. -/
structure Test where
  c : UInt8
  read : Option Nat
  isId : Bool
  deriving DecidableEq, Repr

section
variable (past : Nat → Bool)

/-- `id_char_p[i]`. -/
@[grind =] def readTable (i : Nat) : Bool :=
  match idCharTable[i]? with
  | some b => b ≠ 0
  | none => past i

/-- `(c & 0x80) != 0 || id_char_p[c]`. -/
@[grind =] def guardedTest (c : UInt8) : Test :=
  if 128 ≤ c then ⟨c, none, true⟩ else ⟨c, some c.toNat, readTable past c.toNat⟩

/-- `id_char_p[(u_int8_t)c]`. -/
def plainTest (c : UInt8) : Test := ⟨c, some c.toNat, readTable past c.toNat⟩

end

/-- The tests of the loop over a word, to the first byte that is not of it. -/
def wordTests (test : UInt8 → Test) : Bytes → List Test
  | [] => [test 0]
  | c :: z => test c :: if (test c).isId then wordTests test z else []

/-- The bytes that have no case of their own in `__get_token`. -/
def getTokenDefault (c : UInt8) : Bool :=
  c ∉ [32, 9, 10, 12, 13, 45, 47, 61, 60, 62, 33, 124, 39, 34, 91] && !isdigit c && (oneByte c).isNone

/-- `__get_token` with its tests. -/
def getTokenTests (past : Nat → Bool) (z : Bytes) : (Tk × Nat) × List Test :=
  let c := byteAt z 0
  if getTokenDefault c then
    let t := guardedTest past c
    if t.isId then
      let i := 1 + ((z.drop 1).takeWhile fun c => (guardedTest past c).isId).length
      ((getKeywordCode z i, i), t :: wordTests (guardedTest past) (z.drop 1))
    else ((.illegal, 1), [t])
  else (getToken z, [])

/-- The bytes that have no case of their own in `dbsql_complete_stmt`. -/
def completeDefault (c : UInt8) : Bool := c ∉ [59, 32, 13, 9, 10, 12, 47, 45, 91, 34, 39]

/-- One round of `dbsql_complete_stmt` with its tests. -/
def scanTests (past : Nat → Bool) (c : UInt8) (z : Bytes) : Scan × List Test :=
  if completeDefault c then
    let t := plainTest past c
    if t.isId then
      let p (c : UInt8) : Bool := (plainTest past c).isId
      (.token (wordToken (c :: z.takeWhile p)) (z.dropWhile p), t :: wordTests (plainTest past) z)
    else (.token .other z, [t])
  else (scan c z, [])

/-- `dbsql_complete_stmt` with its tests. -/
def completeLoopTests (past : Nat → Bool) : Nat → State → Bytes → Bool × List Test
  | fuel + 1, state, c :: z =>
    match scanTests past c z with
    | (.token t rest, ts) =>
      let r := completeLoopTests past fuel (trans state t) rest
      (r.1, ts ++ r.2)
    | (.incomplete, ts) => (false, ts)
    | (.atEnd, ts) => (state = .start, ts)
  | _, state, _ => (state = .start, [])

def completeStmtTests (past : Nat → Bool) (sql : Bytes) : Bool × List Test :=
  completeLoopTests past sql.length .start sql

/-- Every test reads inside the table, if it reads, and a byte with its high bit set is an
identifier character. -/
def Proper (ts : List Test) : Prop :=
  ∀ t ∈ ts, (∀ i, t.read = some i → i < idCharTable.length) ∧ (128 ≤ t.c → t.isId = true)

/-! ## Bytes outside of comments, quotes and brackets -/

/-- Where in a statement a byte stands. -/
inductive Place
  | plain
  /-- at the star that opens a comment, in it, at the slash that closes it -/
  | opening | comment | closing
  /-- before the next byte of this value -/
  | before (d : UInt8)

/-- The bytes that are not in a comment, in quotes or in brackets. -/
@[grind =] def openBytes : Place → Bytes → List UInt8
  | _, [] => []
  | .plain, c :: z =>
    if c = 47 ∧ byteAt z 0 = 42 then openBytes .opening z
    else if c = 45 ∧ byteAt z 0 = 45 then openBytes (.before 10) z
    else if c = 91 then openBytes (.before 93) z
    else if c = 34 ∨ c = 39 then openBytes (.before c) z
    else c :: openBytes .plain z
  | .opening, _ :: z => openBytes .comment z
  | .comment, c :: z => if c = 42 ∧ byteAt z 0 = 47 then openBytes .closing z else openBytes .comment z
  | .closing, _ :: z => openBytes .plain z
  | .before d, c :: z => if c = d then openBytes .plain z else openBytes (.before d) z

theorem openBytes_before (d : UInt8) (z : Bytes) :
    openBytes (.before d) z = ((skipTo d z).map (openBytes .plain)).getD [] := by
  induction z with
  | nil => rfl
  | cons c z ih =>
    rw [openBytes, skipTo]
    split
    · rfl
    · exact ih

theorem openBytes_comment (z : Bytes) :
    openBytes .comment z = ((skipComment z).map (openBytes .plain)).getD [] := by
  induction z using skipComment.induct with
  | case1 => rfl
  | case2 c =>
    rw [openBytes, if_neg fun h => absurd h.2 (by decide)]
    rfl
  | case3 c c' z h =>
    rw [openBytes, skipComment, if_pos h, show byteAt (c' :: z) 0 = c' from rfl, if_pos h]
    rfl
  | case4 c c' z h ih =>
    rw [openBytes, skipComment, if_neg h, show byteAt (c' :: z) 0 = c' from rfl, if_neg h]
    exact ih

/-! ## The table -/

theorem readTable_idChar (past : Nat → Bool) {c : UInt8} (hc : c < 128) :
    readTable past c.toNat = idChar c := by
  have htable : ∀ i < 128, idCharTable[i]? =
    some (if idChar (UInt8.ofNat i) then 1 else 0) := by decide +kernel
  have hlt : c.toNat < 128 := hc
  rw [readTable, htable _ hlt, UInt8.ofNat_toNat]
  cases idChar c <;> rfl

theorem idChar_lt {c : UInt8} (h : idChar c = true) : c < 128 := by
  have hall : ∀ i < 256, idChar (UInt8.ofNat i) = true → i < 128 := by decide +kernel
  have := hall c.toNat c.toNat_lt (by rwa [UInt8.ofNat_toNat])
  exact this

theorem guardedTest_isId (past : Nat → Bool) (c : UInt8) : (guardedTest past c).isId =
    (128 ≤ c || idChar c) := by
  unfold guardedTest
  by_cases hc : 128 ≤ c
  · rw [if_pos hc, decide_eq_true hc]
    rfl
  · rw [if_neg hc, decide_eq_false hc, readTable_idChar past (UInt8.not_le.1 hc)]
    rfl

/-! ## `__get_token` -/

section
variable {past : Nat → Bool}

theorem Proper.append {ts us : List Test} : Proper (ts ++ us) ↔ Proper ts ∧ Proper us := by
  refine ⟨fun h => ⟨fun t ht => h t (List.mem_append_left us ht), fun t ht =>
    h t (List.mem_append_right ts ht)⟩,
    fun h t ht => ?_⟩
  rcases List.mem_append.1 ht with ht | ht
  · exact h.1 t ht
  · exact h.2 t ht

theorem Proper.cons {t : Test} {ts : List Test} : Proper (t :: ts) ↔ Proper [t] ∧ Proper ts :=
  @Proper.append [t] ts

theorem proper_nil : Proper [] := nofun

theorem proper_guarded (past : Nat → Bool) (c : UInt8) : Proper [guardedTest past c] := by
  intro t ht
  cases List.mem_singleton.1 ht
  unfold guardedTest
  by_cases hc : 128 ≤ c
  · rw [if_pos hc]
    exact ⟨nofun, fun _ => rfl⟩
  · rw [if_neg hc]
    refine ⟨fun i hi => ?_, fun h => absurd h hc⟩
    cases hi
    exact UInt8.not_le.1 hc

theorem proper_wordTests {test : UInt8 → Test} (h : ∀ c, Proper [test c]) (z : Bytes) :
    Proper (wordTests test z) := by
  induction z with
  | nil => exact h 0
  | cons c z ih =>
    rw [wordTests, Proper.cons]
    refine ⟨h c, ?_⟩
    split
    · exact ih
    · exact proper_nil

/-- The tests of `__get_token` are proper. -/
theorem getTokenTests_proper (past : Nat → Bool) (z : Bytes) : Proper (getTokenTests past z).2 := by
  unfold getTokenTests
  dsimp only
  split
  · split
    · exact Proper.cons.2 ⟨proper_guarded past _, proper_wordTests (proper_guarded past) _⟩
    · exact proper_guarded past _
  · exact proper_nil

/-- The last case of `__get_token`. -/
theorem getToken_default {z : Bytes} (h : getTokenDefault (byteAt z 0) = true) : getToken z =
    let i := 1 + ((z.drop 1).takeWhile fun c => 128 ≤ c || idChar c).length
    if (128 ≤ byteAt z 0 || idChar (byteAt z 0)) = true then (getKeywordCode z i, i)
      else (.illegal, 1) := by
  simp only [getTokenDefault, List.mem_cons, List.not_mem_nil, or_false, not_or, Bool.and_eq_true,
    decide_eq_true_eq, Bool.not_eq_true', Option.isNone_iff_eq_none] at h
  obtain ⟨⟨⟨h1, h2, h3, h4, h5, h6, h7, h8, h9, h10, h11, h12, h13, h14, h15⟩, hdigit⟩, hone⟩ := h
  unfold getToken
  dsimp only
  rw [if_neg (by simp [h1, h2, h3, h4, h5]), if_neg h6, if_neg h7, if_neg h8, if_neg h9, if_neg h10,
    if_neg h11,
    if_neg h12, if_neg (by simp [h13, h14]), if_neg (by simp [hdigit]), if_neg h15, hone]
  dsimp only
  by_cases hc : byteAt z 0 < 128 ∧ ¬ idChar (byteAt z 0) = true
  · rw [if_pos hc, if_neg]
    simp [hc.1, hc.2]
  · rw [if_neg hc, if_pos]
    by_cases hlt : byteAt z 0 < 128
    · simp [not_not.1 fun h => hc ⟨hlt, h⟩]
    · simp [UInt8.not_lt.1 hlt]

/-- `__get_token` with its tests is `__get_token`. -/
theorem getTokenTests_fst (past : Nat → Bool) (z : Bytes) : (getTokenTests past z).1 = getToken z := by
  unfold getTokenTests
  dsimp only
  by_cases hd : getTokenDefault (byteAt z 0) = true
  · rw [if_pos hd, getToken_default hd]
    simp only [guardedTest_isId]
    exact apply_ite Prod.fst ..
  · rw [if_neg hd]

/-! ## `dbsql_complete_stmt` -/

theorem proper_plain {c : UInt8} : Proper [plainTest past c] ↔ c < 128 := by
  refine ⟨fun h => ((h _ (List.mem_singleton_self _)).1 _ rfl : c.toNat < 128), fun h t ht => ?_⟩
  cases List.mem_singleton.1 ht
  refine ⟨fun i hi => ?_, fun h' => absurd h (UInt8.not_lt.2 h')⟩
  cases hi
  exact h

theorem plainTest_isId {c : UInt8} (hc : c < 128) : (plainTest past c).isId = idChar c :=
    readTable_idChar past hc

/-- A word whose tests are proper is the one of `id_char_p`. -/
theorem takeWhile_plain {z : Bytes} (h : Proper (wordTests (plainTest past) z)) :
    (z.takeWhile fun c => (plainTest past c).isId) = z.takeWhile idChar ∧
      (z.dropWhile fun c => (plainTest past c).isId) = z.dropWhile idChar := by
  induction z with
  | nil => exact ⟨rfl, rfl⟩
  | cons c z ih =>
    rw [wordTests, Proper.cons] at h
    have hid := @plainTest_isId past c (proper_plain.1 h.1)
    rw [List.takeWhile_cons, List.dropWhile_cons, List.takeWhile_cons, List.dropWhile_cons, hid]
    by_cases hc : idChar c = true
    · have h2 := h.2
      rw [hid, if_pos hc] at h2
      rw [if_pos hc, if_pos hc, if_pos hc, if_pos hc, (ih h2).1, (ih h2).2]
      exact ⟨rfl, rfl⟩
    · rw [if_neg hc, if_neg hc, if_neg hc, if_neg hc]
      exact ⟨rfl, rfl⟩

theorem openBytes_other {c : UInt8} (h47 : c ≠ 47) (h45 : c ≠ 45) (h91 : c ≠ 91) (h34 : c ≠ 34)
    (h39 : c ≠ 39)
    (z : Bytes) : openBytes .plain (c :: z) = c :: openBytes .plain z := by
  rw [openBytes, if_neg fun h => h47 h.1, if_neg fun h => h45 h.1, if_neg h91,
    if_neg fun h => h.elim h34 h39]

theorem openBytes_idChar {c : UInt8} (h : idChar c = true) (z : Bytes) :
    openBytes .plain (c :: z) = c :: openBytes .plain z := by
  obtain ⟨-, -, -, -, -, -, h47, h45, h91, h34, h39⟩ := idChar_cases h
  exact openBytes_other h47 h45 h91 h34 h39 z

/-- The high bit is set in no byte outside of comments, quotes and brackets. -/
def LowOutside (z : Bytes) : Prop := ∀ c ∈ openBytes .plain z, c < 128

theorem lowOutside_cons {c : UInt8} {z : Bytes}
    (h : openBytes .plain (c :: z) = c :: openBytes .plain z) :
    LowOutside (c :: z) ↔ c < 128 ∧ LowOutside z := by
  unfold LowOutside
  rw [h]
  exact List.forall_mem_cons

/-- A byte with its high bit set begins no comment, quote or bracket. -/
theorem LowOutside.head {c : UInt8} {z : Bytes} (h : LowOutside (c :: z)) : c < 128 := by
  by_cases h47 : c = 47
  · rw [h47]; decide
  by_cases h45 : c = 45
  · rw [h45]; decide
  by_cases h91 : c = 91
  · rw [h91]; decide
  by_cases h34 : c = 34
  · rw [h34]; decide
  by_cases h39 : c = 39
  · rw [h39]; decide
  exact ((lowOutside_cons (openBytes_other h47 h45 h91 h34 h39 z)).1 h).1

theorem lowOutside_word (z : Bytes) : LowOutside z ↔ LowOutside (z.dropWhile idChar) := by
  induction z with
  | nil => exact Iff.rfl
  | cons c z ih =>
    rw [List.dropWhile_cons]
    by_cases hc : idChar c = true
    · rw [if_pos hc, lowOutside_cons (openBytes_idChar hc z), ih]
      exact and_iff_right (idChar_lt hc)
    · rw [if_neg hc]

/-- What is not skipped of a string is that of the byte and of the rest. -/
theorem lowOutside_scan {c : UInt8} (hc : c < 128) (z : Bytes) : LowOutside (c :: z) ↔
    match scan c z with
    | .token _ rest => LowOutside rest
    | _ => True := by
  have hto : ∀ {d : UInt8} {z : Bytes}, openBytes .plain (c :: z) = openBytes (.before d) z →
      (LowOutside (c :: z) ↔ ∀ rest, skipTo d z = some rest → LowOutside rest) := by
    intro d z h
    unfold LowOutside
    rw [h, openBytes_before]
    cases skipTo d z with
    | none => exact iff_of_true nofun nofun
    | some rest => exact ⟨fun h r hr => (Option.some.inj hr) ▸ h, fun h => h rest rfl⟩
  unfold scan
  by_cases h59 : c = 59
  · subst h59
    rw [if_pos rfl]
    exact (lowOutside_cons rfl).trans (and_iff_right hc)
  by_cases hws : c = 32 ∨ c = 13 ∨ c = 9 ∨ c = 10 ∨ c = 12
  · have hopen : openBytes .plain (c :: z) = c :: openBytes .plain z := by
      rcases hws with rfl | rfl | rfl | rfl | rfl <;> rfl
    rw [if_neg h59, if_pos hws]
    exact (lowOutside_cons hopen).trans (and_iff_right hc)
  rw [if_neg h59, if_neg hws]
  by_cases h47 : c = 47
  · subst h47
    rw [if_pos rfl]
    by_cases hstar : byteAt z 0 = 42
    · rw [if_neg (not_not.2 hstar)]
      obtain ⟨b, z, rfl⟩ : ∃ b z', z = b :: z' := by
        cases z with
        | nil => exact absurd hstar (by decide)
        | cons b z => exact ⟨b, z, rfl⟩
      unfold LowOutside
      rw [openBytes, if_pos ⟨rfl, hstar⟩, openBytes, openBytes_comment]
      rw [List.drop_one, List.tail_cons]
      cases skipComment z with
      | none => exact iff_of_true nofun trivial
      | some rest => exact Iff.rfl
    · rw [if_pos hstar]
      exact (lowOutside_cons (by rw [openBytes, if_neg fun h => hstar h.2]; rfl)).trans
        (and_iff_right hc)
  rw [if_neg h47]
  by_cases h45 : c = 45
  · subst h45
    rw [if_pos rfl]
    by_cases hdash : byteAt z 0 = 45
    · rw [if_neg (not_not.2 hdash), hto (d := 10)
        (by rw [openBytes, if_neg fun h => absurd h.1 (by decide), if_pos ⟨rfl, hdash⟩])]
      cases skipTo 10 z with
      | none => exact iff_of_true nofun trivial
      | some rest => exact ⟨fun h => h rest rfl, fun h r hr => (Option.some.inj hr) ▸ h⟩
    · rw [if_pos hdash]
      exact (lowOutside_cons
        (by rw [openBytes, if_neg (by simp), if_neg fun h => hdash h.2]; rfl)).trans
        (and_iff_right hc)
  rw [if_neg h45]
  by_cases h91 : c = 91
  · subst h91
    rw [if_pos rfl, hto (d := 93) rfl]
    cases skipTo 93 z with
    | none => exact iff_of_true nofun trivial
    | some rest => exact ⟨fun h => h rest rfl, fun h r hr => (Option.some.inj hr) ▸ h⟩
  rw [if_neg h91]
  by_cases hq : c = 34 ∨ c = 39
  · have hopen : openBytes .plain (c :: z) = openBytes (.before c) z := by
      rcases hq with rfl | rfl <;> rfl
    rw [if_pos hq, hto hopen]
    cases skipTo c z with
    | none => exact iff_of_true nofun trivial
    | some rest => exact ⟨fun h => h rest rfl, fun h r hr => (Option.some.inj hr) ▸ h⟩
  rw [if_neg hq]
  rw [not_or] at hq
  rw [lowOutside_cons (openBytes_other h47 h45 h91 hq.1 hq.2 z), and_iff_right hc]
  by_cases hid : idChar c = true
  · rw [if_pos hid]
    exact lowOutside_word z
  · rw [if_neg hid]

/-- The bytes without a case of their own are not skipped. -/
theorem completeDefault_true {c : UInt8} (h : completeDefault c = true) (z : Bytes) :
    openBytes .plain (c :: z) = c :: openBytes .plain z ∧
      scan c z = if idChar c then .token (wordToken (c :: z.takeWhile idChar)) (z.dropWhile idChar)
        else .token .other z := by
  simp only [completeDefault, List.mem_cons, List.not_mem_nil, or_false, not_or,
    decide_eq_true_eq] at h
  obtain ⟨h59, h32, h13, h9, h10, h12, h47, h45, h91, h34, h39⟩ := h
  refine ⟨openBytes_other h47 h45 h91 h34 h39 z, ?_⟩
  unfold scan
  rw [if_neg h59, if_neg (by simp [h32, h13, h9, h10, h12]), if_neg h47, if_neg h45, if_neg h91,
    if_neg (by simp [h34, h39])]

/-- The others are below the high bit. -/
theorem completeDefault_false {c : UInt8} (h : ¬ completeDefault c = true) : c < 128 := by
  simp only [completeDefault, decide_eq_true_eq, not_not] at h
  have hall : ∀ c ∈ ([59, 32, 13, 9, 10, 12, 47, 45, 91, 34, 39] : List UInt8),
    c < 128 := by decide +kernel
  exact hall c h

/-- With proper tests a round is that of `scan`. -/
theorem scanTests_proper {c : UInt8} {z : Bytes} (h : Proper (scanTests past c z).2) :
    c < 128 ∧ (scanTests past c z).1 = scan c z := by
  unfold scanTests at h ⊢
  by_cases hd : completeDefault c = true
  · rw [if_pos hd] at h ⊢
    rw [(completeDefault_true hd z).2]
    dsimp only at h ⊢
    by_cases hid : (plainTest past c).isId = true
    · rw [if_pos hid] at h ⊢
      obtain ⟨hc, hword⟩ := Proper.cons.1 h
      have hc := proper_plain.1 hc
      rw [plainTest_isId hc] at hid
      obtain ⟨htake, hdrop⟩ := takeWhile_plain hword
      refine ⟨hc, ?_⟩
      rw [if_pos hid, htake, hdrop]
    · rw [if_neg hid] at h ⊢
      have hc := proper_plain.1 h
      rw [plainTest_isId hc] at hid
      exact ⟨hc, by rw [if_neg hid]⟩
  · rw [if_neg hd]
    exact ⟨completeDefault_false hd, rfl⟩

/-- Below the high bit the tests of a word are proper. -/
theorem proper_word {z : Bytes} (h : LowOutside z) : Proper (wordTests (plainTest past) z) := by
  induction z with
  | nil => exact proper_plain.2 (by decide)
  | cons c z ih =>
    have hc := h.head
    rw [wordTests, Proper.cons, plainTest_isId hc]
    refine ⟨proper_plain.2 hc, ?_⟩
    by_cases hid : idChar c = true
    · rw [if_pos hid]
      exact ih ((lowOutside_cons (openBytes_idChar hid z)).1 h).2
    · rw [if_neg hid]
      exact proper_nil

theorem proper_scanTests {c : UInt8} {z : Bytes} (h : LowOutside (c :: z)) :
    Proper (scanTests past c z).2 := by
  unfold scanTests
  by_cases hd : completeDefault c = true
  · obtain ⟨hc, hz⟩ := (lowOutside_cons (completeDefault_true hd z).1).1 h
    rw [if_pos hd]
    dsimp only
    split
    · exact Proper.cons.2 ⟨proper_plain.2 hc, proper_word hz⟩
    · exact proper_plain.2 hc
  · rw [if_neg hd]
    exact proper_nil

/-- The loop makes proper tests exactly below the high bit, and is then the loop without them. -/
theorem completeLoopTests_iff (past : Nat → Bool) : ∀ (fuel : Nat) (st : State) (z : Bytes),
    z.length ≤ fuel →
    (Proper (completeLoopTests past fuel st z).2 ↔ LowOutside z) ∧
      (LowOutside z → (completeLoopTests past fuel st z).1 = completeLoop fuel st z) := by
  intro fuel
  induction fuel with
  | zero =>
    intro st z hz
    cases List.eq_nil_of_length_eq_zero (Nat.le_zero.1 hz)
    exact ⟨iff_of_true proper_nil nofun, fun _ => rfl⟩
  | succ fuel ih =>
    intro st z hz
    cases z with
    | nil => exact ⟨iff_of_true proper_nil nofun, fun _ => rfl⟩
    | cons c z =>
      rw [completeLoopTests, completeLoop]
      rw [List.length_cons] at hz
      -- the tests of this round, and those of the rounds after it
      have hround : ∀ {t rest ts}, scanTests past c z = (.token t rest, ts) → Proper ts →
          c < 128 ∧ scan c z = .token t rest ∧ rest.length ≤ fuel := by
        intro t rest ts hscan hts
        obtain ⟨hc, heq⟩ := @scanTests_proper past c z (hscan ▸ hts)
        rw [hscan] at heq
        have := scan_length heq.symm
        exact ⟨hc, heq.symm, by omega⟩
      have hlow : LowOutside (c :: z) → Proper (scanTests past c z).2 := proper_scanTests
      generalize hscan : scanTests past c z = r at hlow
      obtain ⟨sc, ts⟩ := r
      have hstop : Proper ts → scan c z = sc := fun hts => by
        have := (@scanTests_proper past c z (hscan ▸ hts)).2
        rw [hscan] at this
        exact this.symm
      have hhead : Proper ts → c < 128 := fun hts =>
        (@scanTests_proper past c z (hscan ▸ hts)).1
      cases sc with
      | token t rest =>
        dsimp only
        refine ⟨?_, fun h => ?_⟩
        · rw [Proper.append]
          constructor
          · rintro ⟨hts, hrest⟩
            obtain ⟨hc, heq, hlen⟩ := hround hscan hts
            rw [lowOutside_scan hc, heq]
            exact ((ih _ rest hlen).1).1 hrest
          · intro h
            obtain ⟨hc, heq, hlen⟩ := hround hscan (hlow h)
            rw [lowOutside_scan hc, heq] at h
            exact ⟨hlow ((lowOutside_scan hc z).2 (heq ▸ h)), ((ih _ rest hlen).1).2 h⟩
        · obtain ⟨hc, heq, hlen⟩ := hround hscan (hlow h)
          rw [lowOutside_scan hc, heq] at h
          rw [heq]
          exact (ih _ rest hlen).2 h
      | incomplete =>
        refine ⟨⟨fun hts => ?_, hlow⟩, fun h => by rw [hstop (hlow h)]⟩
        rw [lowOutside_scan (hhead hts), hstop hts]
        trivial
      | atEnd =>
        refine ⟨⟨fun hts => ?_, hlow⟩, fun h => by rw [hstop (hlow h)]⟩
        rw [lowOutside_scan (hhead hts), hstop hts]
        trivial

/-- `dbsql_complete_stmt` with its tests is `dbsql_complete_stmt`. -/
theorem completeStmtTests_fst {sql : Bytes} (h : LowOutside sql) :
    (completeStmtTests past sql).1 = completeStmt sql :=
  (completeLoopTests_iff past sql.length .start sql (Nat.le_refl _)).2 h

/-- **Reads of the table**: all are inside it, and a byte with its high bit set is an identifier
character, exactly if no such byte stands outside of comments, quotes and brackets. -/
theorem idChar_tests_iff (past : Nat → Bool) (sql : Bytes) :
    (∀ z, z <:+ sql → Proper (getTokenTests past z).2) ∧ Proper (completeStmtTests past sql).2 ↔
      ∀ c ∈ openBytes .plain sql, c < 128 := by
  rw [and_iff_right fun z _ => getTokenTests_proper past z]
  exact (completeLoopTests_iff past sql.length .start sql (Nat.le_refl _)).1

/-- A word of one byte with its high bit set is read beyond the table. -/
theorem idChar_tests_beyond : ¬ ∀ (past : Nat → Bool) (sql : Bytes),
    (∀ z, z <:+ sql → Proper (getTokenTests past z).2) ∧ Proper (completeStmtTests past sql).2 := by
  intro h
  have htest := ((h (fun _ => false) [195]).2 (plainTest (fun _ => false) 195) (by decide)).1 195 rfl
  have hlen : idCharTable.length = 128 := by decide +kernel
  omega

end
end Dbsql.L5.Parse
