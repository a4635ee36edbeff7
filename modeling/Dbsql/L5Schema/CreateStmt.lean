import Mathlib.Data.List.TakeWhile
import Dbsql.L5Parse.IdChars
import Dbsql.L5Parse.QuoteFn
/-!
# The text of CREATE TABLE ... AS SELECT (cg_build.c:1068-1171)

A table that is made from a SELECT has no text of its own: `__gen_create_table_stmt` writes one for
the schema table. The buffer is sized first. A name counts with its quotes doubled, and with a pair
of quotes around it if it has one; it is written with a pair around it also when it has another byte
that is not part of a word, begins with a digit or is a keyword. The bytes that the count leaves
open for each column, and the 35 for the rest, are enough for these.

Results:
* `stmt_fits`: the text and its terminator fit.
* `createStmt_names`: its tokens are those of a CREATE TABLE with the same names.
-/
namespace Dbsql.L5.Parse
open Dbsql.L1

/-! ## The code -/

/-- `isalnum`. -/
def isalnum (c : UInt8) : Bool := isdigit c || (65 ≤ c && c ≤ 90) || (97 ≤ c && c ≤ 122)

/-- The loop of `__ident_length`, with `n` and `need_quote`. -/
def identLoop : Bytes → Nat → Bool → Nat × Bool
  | [], n, needQuote => (n, needQuote)
  | c :: z, n, needQuote => if c = 39 then identLoop z (n + 2) true else identLoop z (n + 1) needQuote

/-- `__ident_length` (cg_build.c:1077-1090). -/
def identLength (z : Bytes) : Nat :=
  let (n, needQuote) := identLoop z 0 false
  n + (if needQuote then 2 else 0)

/-- `need_quote` of `__ident_put`. -/
def needQuote (ident : Bytes) : Bool :=
  let j := (ident.takeWhile fun c => isalnum c || c = 95).length
  byteAt ident j ≠ 0 || isdigit (byteAt ident 0) || getKeywordCode ident j ≠ .id

/-- `__ident_put` (cg_build.c:1099-1124): what it writes. -/
def identPut (ident : Bytes) : Bytes :=
  if needQuote ident then 39 :: (quoteLoop ident ++ [39]) else quoteLoop ident

/-- A name: a C string that is not empty. -/
abbrev Name := { z : Bytes // z ≠ [] ∧ 0 ∉ z }

/-- The fields of `table_t` that are read. -/
structure CreatedTable where
  iDb : Nat
  zName : Name
  aCol : List Name

/-- The loop over the columns. -/
def putCols (sep2 : Bytes) : Bytes → List Name → Bytes
  | _, [] => []
  | sep, c :: cs => sep ++ identPut c.1 ++ putCols sep2 sep2 cs

/-- `__gen_create_table_stmt` (cg_build.c:1134-1171): the size of the buffer, and the text. -/
def genCreateTableStmt (table : CreatedTable) : Nat × Bytes :=
  let n := (table.aCol.map fun c => identLength c.1).sum + identLength table.zName.1
  let (sep, sep2, end_) :=
    if n < 40 then (ascii "", ascii ",", ascii ")") else (ascii "\n  ", ascii ",\n  ", ascii "\n)")
  let n := n + (35 + 6 * table.aCol.length)
  let stmt := if table.iDb = 1 then ascii "CREATE TEMP TABLE " else ascii "CREATE TABLE "
  (n, stmt ++ identPut table.zName.1 ++ [40] ++ putCols sep2 sep table.aCol ++ end_)

/-! ## The tokens of the text -/

/-- A token for a reader of names: a name without its quotes, or another token. -/
inductive Word
  | key (tk : Tk)
  | name (z : Bytes)
  deriving DecidableEq

def reading (t : Tk × Bytes) : Word :=
  match t.1 with
  | .id | .string => .name (strUnquote t.2)
  | tk => .key tk

/-- What the parser reads. -/
def words (z : Bytes) : List Word := (parsed (tokens z)).map reading

/-- CREATE TABLE with the names of a table. -/
def wordsOf (table : CreatedTable) : List Word :=
  [.key .create] ++ (if table.iDb = 1 then [.key .temp] else []) ++
    [.key .table, .name table.zName.1, .key .lp] ++
    (table.aCol.map fun c => .name c.1).intersperse (.key .comma) ++ [.key .rp]

/-! ## The size -/

theorem identLoop_eq (z : Bytes) : ∀ (n : Nat) (b : Bool), identLoop z n b =
    (n + (quoteLoop z).length, b || decide (39 ∈ z)) := by
  induction z with
  | nil =>
    intro n b
    simp [identLoop, quoteLoop]
  | cons c z ih =>
    intro n b
    rw [identLoop, quoteLoop]
    by_cases hc : c = 39
    · rw [if_pos hc, if_pos hc, ih, List.length_cons, List.length_cons, Nat.add_assoc, Nat.add_comm 2]
      simp [hc]
    · rw [if_neg hc, if_neg hc, ih, List.length_cons, Nat.add_assoc, Nat.add_comm 1]
      simp [List.mem_cons, Ne.symm hc]

theorem quoteLoop_le (z : Bytes) : (quoteLoop z).length ≤ identLength z := by
  rw [identLength, identLoop_eq]
  dsimp only
  omega

/-- A name takes two bytes more than counted at most. -/
theorem identPut_length (z : Bytes) : (identPut z).length ≤ identLength z + 2 := by
  have hle := quoteLoop_le z
  unfold identPut
  split
  · rw [List.length_cons, List.length_append, List.length_singleton]
    omega
  · omega

theorem putCols_length (sep2 : Bytes) (cs : List Name) : ∀ {sep : Bytes}, sep.length ≤ sep2.length →
    (putCols sep2 sep cs).length ≤ (cs.map fun c => identLength c.1).sum + (sep2.length + 2) * cs.length := by
  induction cs with
  | nil => exact fun _ => Nat.zero_le _
  | cons c cs ih =>
    intro sep hsep
    have hc := identPut_length c.1
    have hcs := ih (le_refl sep2.length)
    rw [putCols, List.length_append, List.length_append, List.map_cons, List.sum_cons, List.length_cons, Nat.mul_succ]
    omega

/-- The first words of the text. -/
def createText (table : CreatedTable) : Bytes :=
  if table.iDb = 1 then ascii "CREATE TEMP TABLE " else ascii "CREATE TABLE "

/-- The text on one line, or with each column on one of its own. -/
theorem genCreateTableStmt_eq (table : CreatedTable) : ∃ sep e : Bytes,
    (sep = [] ∧ e = [] ∨ sep = [10, 32, 32] ∧ e = [10]) ∧
    genCreateTableStmt table =
      ((table.aCol.map fun c => identLength c.1).sum + identLength table.zName.1 + (35 + 6 * table.aCol.length),
        createText table ++ identPut table.zName.1 ++ [40] ++ putCols (44 :: sep) sep table.aCol ++ (e ++ [41])) := by
  unfold genCreateTableStmt
  dsimp only
  by_cases h : (table.aCol.map fun c => identLength c.1).sum + identLength table.zName.1 < 40
  · rw [if_pos h]
    exact ⟨[], [], .inl ⟨rfl, rfl⟩, rfl⟩
  · rw [if_neg h]
    exact ⟨[10, 32, 32], [10], .inr ⟨rfl, rfl⟩, rfl⟩

/-- **The text fits in the buffer**, with its terminator. -/
theorem stmt_fits (table : CreatedTable) :
    (genCreateTableStmt table).2.length + 1 ≤ (genCreateTableStmt table).1 := by
  have hname := identPut_length table.zName.1
  have hstmt : (createText table).length ≤ 18 := by
    unfold createText
    split <;> decide
  obtain ⟨sep, e, hsep, heq⟩ := genCreateTableStmt_eq table
  have hcols : (putCols (44 :: sep) sep table.aCol).length ≤ _ := putCols_length _ _ (Nat.le_succ _)
  have hline : sep.length ≤ 3 ∧ e.length ≤ 1 := by
    rcases hsep with ⟨rfl, rfl⟩ | ⟨rfl, rfl⟩ <;> decide
  have hmul : ((44 :: sep).length + 2) * table.aCol.length ≤ 6 * table.aCol.length :=
    Nat.mul_le_mul_right _ (by rw [List.length_cons]; omega)
  rw [heq]
  simp only [List.length_append, List.length_singleton]
  omega

/-! ## The tokens -/

/-- The byte that begins a text does not go on with a name, nor with a string. -/
def EndsName (rest : Bytes) : Prop := ∀ c r, rest = c :: r → (128 ≤ c || idChar c) = false ∧ c ≠ 39

/-- The text of a token in front of others. -/
theorem tokens_append {w rest : Bytes} {tk : Tk} (hw : w ≠ []) (h : getToken (w ++ rest) = (tk, w.length)) :
    tokens (w ++ rest) = (tk, w) :: tokens rest := by
  cases w with
  | nil => exact absurd rfl hw
  | cons c w =>
    rw [List.cons_append] at h ⊢
    rw [tokens_cons, h]
    dsimp only
    rw [← List.cons_append, List.take_left, List.drop_left]

theorem words_append {w rest : Bytes} {tk : Tk} (hw : w ≠ []) (h : getToken (w ++ rest) = (tk, w.length)) :
    words (w ++ rest) = if skipped tk then words rest else reading (tk, w) :: words rest := by
  unfold words
  rw [tokens_append hw h, parsed_cons]
  split <;> rfl

/-- A letter is in the last case of `__get_token`. -/
theorem getTokenDefault_letter (c : UInt8) : idChar c = true → isdigit c = false → getTokenDefault c = true := by
  have hall : ∀ n : Fin 256, idChar (UInt8.ofFin n) = true → isdigit (UInt8.ofFin n) = false →
      getTokenDefault (UInt8.ofFin n) = true := by decide +kernel
  exact hall c.toFin

theorem takeWhile_word {w rest : Bytes} (hw : ∀ b ∈ w, idChar b = true) (hrest : EndsName rest) :
    ((w ++ rest).takeWhile fun c => 128 ≤ c || idChar c) = w := by
  have hend : (rest.takeWhile fun c => 128 ≤ c || idChar c) = [] := by
    cases rest with
    | nil => rfl
    | cons c r => exact List.takeWhile_cons_of_neg (Bool.eq_false_iff.1 (hrest c r rfl).1)
  rw [List.takeWhile_append_of_pos fun b hb => by rw [hw b hb, Bool.or_true], hend, List.append_nil]

/-- A word has the code that its bytes give it. -/
theorem getKeywordCode_append {w : Bytes} (rest : Bytes) (h0 : 0 ∉ w) :
    getKeywordCode (w ++ rest) w.length = getKeywordCode w w.length := by
  have htake : (w ++ rest).take w.length = w.take w.length := by rw [List.take_left, List.take_length]
  have hlen : w.length ≤ (w ++ rest).length := by
    rw [List.length_append]
    omega
  have h0' : 0 ∉ w.take w.length := by rwa [List.take_length]
  rw [getKeywordCode_eq hlen (htake ▸ h0'), getKeywordCode_eq le_rfl h0', htake]

theorem zero_notMem_idChars {w : Bytes} (hw : ∀ b ∈ w, idChar b = true) : 0 ∉ w := fun h =>
  absurd (hw 0 h) (by decide)

/-- A word. -/
theorem getToken_word {c : UInt8} {w rest : Bytes} (hw : ∀ b ∈ c :: w, idChar b = true) (hdigit : isdigit c = false)
    (hrest : EndsName rest) : getToken (c :: w ++ rest) = (getKeywordCode (c :: w) (c :: w).length, (c :: w).length) := by
  have hc := hw c List.mem_cons_self
  have hlen : 1 + (((c :: w ++ rest).drop 1).takeWhile fun c => 128 ≤ c || idChar c).length = (c :: w).length := by
    rw [List.cons_append, List.drop_succ_cons, List.drop_zero,
      takeWhile_word (fun b hb => hw b (List.mem_cons_of_mem _ hb)) hrest, List.length_cons, Nat.add_comm]
  have hbyte : byteAt (c :: w ++ rest) 0 = c := rfl
  rw [getToken_default (by rw [hbyte]; exact getTokenDefault_letter c hc hdigit)]
  dsimp only
  rw [hbyte, if_pos (by rw [hc, Bool.or_true]), hlen, getKeywordCode_append rest (zero_notMem_idChars hw)]

/-- A string. -/
theorem getToken_string {s rest : Bytes} (hrest : EndsName rest) :
    getToken (39 :: (double 39 s ++ [39]) ++ rest) = (.string, (39 :: (double 39 s ++ [39])).length) := by
  have hne : ∀ r, rest ≠ 39 :: r := fun r h => (hrest 39 r h).2 rfl
  rw [List.cons_append, List.append_assoc, List.singleton_append, getToken_quote (.inl rfl),
    stringLoop_closed 39 s rest hne, List.length_cons, Nat.add_comm]

/-! ## What the parser reads -/

/-- A keyword of the text. -/
theorem words_keyword {c : UInt8} {w rest : Bytes} {tk : Tk} (hw : ∀ b ∈ c :: w, idChar b = true)
    (hdigit : isdigit c = false) (htk : getKeywordCode (c :: w) (c :: w).length = tk) (hskip : skipped tk = false)
    (hkey : ∀ z, reading (tk, z) = .key tk) (hrest : EndsName rest) : words (c :: w ++ rest) = .key tk :: words rest := by
  rw [words_append (List.cons_ne_nil c w) (getToken_word hw hdigit hrest), htk, hskip, hkey]
  rfl

/-- A token of one byte. -/
theorem words_byte {c : UInt8} {tk : Tk} (h : ∀ r, getToken (c :: r) = (tk, 1)) (hskip : skipped tk = false)
    (hkey : ∀ z, reading (tk, z) = .key tk) (rest : Bytes) : words (c :: rest) = .key tk :: words rest := by
  have hw := words_append (w := [c]) (List.cons_ne_nil c []) (h rest)
  rw [hskip, hkey] at hw
  exact hw

/-- White space. -/
theorem words_space {c : UInt8} {w rest : Bytes} (hc : c = 32 ∨ c = 9 ∨ c = 10 ∨ c = 12 ∨ c = 13)
    (hw : ∀ b ∈ w, isspace b = true) (hrest : ∀ b r, rest = b :: r → isspace b = false) :
    words (c :: w ++ rest) = words rest := by
  have hend : rest.takeWhile isspace = [] := by
    cases rest with
    | nil => rfl
    | cons b r => exact List.takeWhile_cons_of_neg (Bool.eq_false_iff.1 (hrest b r rfl))
  have htoken : getToken (c :: w ++ rest) = (.space, (c :: w).length) := by
    have hbyte : byteAt (c :: w ++ rest) 0 = c := rfl
    unfold getToken
    dsimp only
    rw [hbyte, if_pos hc, List.cons_append, List.drop_succ_cons, List.drop_zero, List.takeWhile_append_of_pos hw,
      hend, List.append_nil, List.length_cons, Nat.add_comm]
  rw [words_append (List.cons_ne_nil c w) htoken]
  rfl

/-- The bytes of a name that is not quoted. -/
theorem not_needQuote {z : Bytes} (h0 : 0 ∉ z) (h : needQuote z = false) :
    (∀ b ∈ z, idChar b = true) ∧ isdigit (byteAt z 0) = false ∧ getKeywordCode z z.length = .id := by
  have hword : ∀ b : UInt8, (isalnum b || decide (b = 95)) = true → idChar b = true := by
    have hall : ∀ n : Fin 256, (isalnum (UInt8.ofFin n) || decide (UInt8.ofFin n = 95)) = true →
        idChar (UInt8.ofFin n) = true := by decide +kernel
    exact fun b => hall b.toFin
  simp only [needQuote, Bool.or_eq_false_iff, decide_eq_false_iff_not, not_not] at h
  obtain ⟨⟨hend, hdigit⟩, hkey⟩ := h
  have hpre := List.takeWhile_prefix (l := z) fun c => isalnum c || decide (c = 95)
  have hlen : (z.takeWhile fun c => isalnum c || decide (c = 95)).length = z.length := by
    by_contra hne
    have hlt : (z.takeWhile fun c => isalnum c || decide (c = 95)).length < z.length :=
      lt_of_le_of_ne hpre.length_le hne
    rw [byteAt, List.getD_eq_getElem?_getD, List.getElem?_eq_getElem hlt, Option.getD_some] at hend
    exact h0 (hend ▸ List.getElem_mem hlt)
  rw [hlen] at hkey
  refine ⟨fun b hb => hword b ?_, hdigit, hkey⟩
  rw [← hpre.eq_of_length hlen] at hb
  have hmem := List.mem_takeWhile_imp hb
  exact hmem

/-- A name is put between quotes, or it is a word that is no keyword. -/
theorem identPut_cases (z : Name) : identPut z.1 = 39 :: (double 39 z.1 ++ [39]) ∨
    ∃ c w, z.1 = c :: w ∧ identPut z.1 = c :: w ∧ (∀ b ∈ c :: w, idChar b = true) ∧ isdigit c = false ∧
      getKeywordCode (c :: w) (c :: w).length = .id := by
  obtain ⟨z, hz, h0⟩ := z
  dsimp only
  rw [identPut, quoteLoop_eq]
  cases hq : needQuote z with
  | true => exact .inl (if_pos rfl)
  | false =>
    obtain ⟨hw, hdigit, hkey⟩ := not_needQuote h0 hq
    have h39 : 39 ∉ z := fun hmem => absurd (hw 39 hmem) (by decide)
    obtain ⟨c, w, rfl⟩ := List.exists_cons_of_ne_nil hz
    refine .inr ⟨c, w, rfl, ?_, hw, hdigit, hkey⟩
    rw [if_neg Bool.false_ne_true, double_of_not_mem h39]

/-- A text that begins with a letter is not quoted. -/
theorem strUnquote_letter {c : UInt8} (hc : idChar c = true) (w : Bytes) : strUnquote (c :: w) = c :: w := by
  obtain ⟨-, -, -, -, -, -, -, -, h91, h34, h39⟩ := idChar_cases hc
  have hbyte : byteAt (c :: w) 0 = c := rfl
  unfold strUnquote
  rw [hbyte]
  split
  · exact absurd rfl h39
  · exact absurd rfl h34
  · exact absurd rfl h91
  · rfl

/-- **A name** is read as it is. -/
theorem words_name (z : Name) {rest : Bytes} (hrest : EndsName rest) :
    words (identPut z.1 ++ rest) = .name z.1 :: words rest := by
  rcases identPut_cases z with hput | ⟨c, w, hz, hput, hw, hdigit, hkey⟩
  · have hquoted : strUnquote (39 :: (double 39 z.1 ++ [39])) = z.1 := by
      refine strUnquote_closed (q := 39) (.inl rfl) fun hmem => ?_
      rcases List.mem_cons.1 hmem with h | hmem
      · cases h
      · rcases List.mem_append.1 hmem with hmem | hmem
        · exact z.2.2 (mem_of_mem_double (by decide) hmem)
        · cases List.mem_singleton.1 hmem
    rw [hput, words_append (List.cons_ne_nil _ _) (getToken_string hrest)]
    exact congrArg (fun n => Word.name n :: words rest) hquoted
  · rw [hput, words_append (List.cons_ne_nil c w) (getToken_word hw hdigit hrest), hkey, hz]
    exact congrArg (fun n => Word.name n :: words rest) (strUnquote_letter (hw c List.mem_cons_self) w)

/-- A name does not begin with white space. -/
theorem identPut_head (z : Name) (rest : Bytes) : ∀ b r, identPut z.1 ++ rest = b :: r → isspace b = false := by
  have hspace : ∀ b : UInt8, idChar b = true → isspace b = false := by
    have hall : ∀ n : Fin 256, idChar (UInt8.ofFin n) = true → isspace (UInt8.ofFin n) = false := by decide +kernel
    exact fun b => hall b.toFin
  intro b r h
  rcases identPut_cases z with hput | ⟨c, w, -, hput, hw, -, -⟩
  · rw [hput] at h
    rw [← (List.cons.inj h).1]
    rfl
  · rw [hput] at h
    rw [← (List.cons.inj h).1]
    exact hspace c (hw c List.mem_cons_self)

theorem endsName_cons {c : UInt8} (h : (128 ≤ c || idChar c) = false ∧ c ≠ 39) (rest : Bytes) : EndsName (c :: rest) := by
  intro b r hb
  rw [← (List.cons.inj hb).1]
  exact h

/-- The text goes on, or a new line begins. -/
theorem words_line {w rest : Bytes} (hw : w = [] ∨ w = [10] ∨ w = [10, 32, 32])
    (hrest : ∀ b r, rest = b :: r → isspace b = false) : words (w ++ rest) = words rest := by
  rcases hw with rfl | rfl | rfl
  · rfl
  · exact words_space (w := []) (.inr (.inr (.inl rfl))) (List.forall_mem_nil _) hrest
  · exact words_space (w := [32, 32]) (.inr (.inr (.inl rfl))) (List.all_eq_true.1 rfl) hrest

/-- The columns behind the first, and the end. -/
theorem words_cols {sep e : Bytes} (hsep : sep = [] ∧ e = [] ∨ sep = [10, 32, 32] ∧ e = [10]) (cs : List Name) :
    EndsName (putCols (44 :: sep) (44 :: sep) cs ++ (e ++ [41])) ∧
    words (putCols (44 :: sep) (44 :: sep) cs ++ (e ++ [41])) =
      (cs.flatMap fun c => [.key .comma, .name c.1]) ++ [.key .rp] := by
  induction cs with
  | nil =>
    rw [putCols, List.nil_append, List.flatMap_nil, List.nil_append]
    have hrp : words [41] = [.key .rp] := words_byte (fun _ => rfl) rfl (fun _ => rfl) []
    refine ⟨?_, ?_⟩
    · rcases hsep with ⟨-, rfl⟩ | ⟨-, rfl⟩
      · exact endsName_cons (by decide) []
      · exact endsName_cons (by decide) [41]
    · rw [words_line (hsep.elim (fun h => .inl h.2) fun h => .inr (.inl h.2)) fun b r h => by
        rw [← (List.cons.inj h).1]
        rfl, hrp]
  | cons c cs ih =>
    have htext : putCols (44 :: sep) (44 :: sep) (c :: cs) ++ (e ++ [41]) =
        44 :: (sep ++ (identPut c.1 ++ (putCols (44 :: sep) (44 :: sep) cs ++ (e ++ [41])))) := by
      rw [putCols, List.append_assoc, List.append_assoc]
      rfl
    rw [htext]
    refine ⟨endsName_cons (by decide) _, ?_⟩
    rw [words_byte (fun _ => rfl) rfl (fun _ => rfl),
      words_line (hsep.elim (fun h => .inl h.1) fun h => .inr (.inr h.1)) (identPut_head c _), words_name c ih.1, ih.2,
      List.flatMap_cons]
    rfl

theorem intersperse_cons {α : Type} (x a : α) (l : List α) :
    (a :: l).intersperse x = a :: l.flatMap fun b => [x, b] := by
  induction l generalizing a with
  | nil => rfl
  | cons b l ih => rw [List.intersperse_cons_cons, ih, List.flatMap_cons, List.cons_append, List.cons_append, List.nil_append]

/-- All the columns, and the end. -/
theorem words_allCols {sep e : Bytes} (hsep : sep = [] ∧ e = [] ∨ sep = [10, 32, 32] ∧ e = [10]) (cs : List Name) :
    words (putCols (44 :: sep) sep cs ++ (e ++ [41])) =
      (cs.map fun c => Word.name c.1).intersperse (.key .comma) ++ [.key .rp] := by
  cases cs with
  | nil => exact (words_cols hsep []).2
  | cons c cs =>
    obtain ⟨hends, hwords⟩ := words_cols hsep cs
    rw [putCols, List.append_assoc, List.append_assoc,
      words_line (hsep.elim (fun h => .inl h.1) fun h => .inr (.inr h.1)) (identPut_head c _), words_name c hends, hwords,
      List.map_cons, intersperse_cons, List.flatMap_map]
    rfl

/-- A keyword and a blank. -/
theorem words_keyword_blank {c : UInt8} {w rest : Bytes} {tk : Tk} (hw : (c :: w).all idChar = true)
    (hdigit : isdigit c = false) (htk : getKeywordCode (c :: w) (c :: w).length = tk) (hskip : skipped tk = false)
    (hkey : ∀ z, reading (tk, z) = .key tk) (hrest : ∀ b r, rest = b :: r → isspace b = false) :
    words (c :: w ++ 32 :: rest) = .key tk :: words rest := by
  rw [words_keyword (List.all_eq_true.1 hw) hdigit htk hskip hkey (endsName_cons (by decide) rest)]
  exact congrArg _ (words_space (w := []) (.inl rfl) (List.forall_mem_nil _) hrest)

theorem words_table {rest : Bytes} (hrest : ∀ b r, rest = b :: r → isspace b = false) :
    words (ascii "TABLE" ++ 32 :: rest) = .key .table :: words rest :=
  words_keyword_blank (w := ascii "ABLE") (by decide) (by decide) (by decide +kernel) rfl (fun _ => rfl) hrest

theorem words_temp {rest : Bytes} (hrest : ∀ b r, rest = b :: r → isspace b = false) :
    words (ascii "TEMP" ++ 32 :: rest) = .key .temp :: words rest :=
  words_keyword_blank (w := ascii "EMP") (by decide) (by decide) (by decide +kernel) rfl (fun _ => rfl) hrest

theorem words_create {rest : Bytes} (hrest : ∀ b r, rest = b :: r → isspace b = false) :
    words (ascii "CREATE" ++ 32 :: rest) = .key .create :: words rest :=
  words_keyword_blank (w := ascii "REATE") (by decide) (by decide) (by decide +kernel) rfl (fun _ => rfl) hrest

/-- The words before the name. -/
theorem words_createText (table : CreatedTable) {rest : Bytes} (hrest : ∀ b r, rest = b :: r → isspace b = false) :
    words (createText table ++ rest) =
      [.key .create] ++ (if table.iDb = 1 then [.key .temp] else []) ++ [.key .table] ++ words rest := by
  have htable : ∀ b r, ascii "TABLE" ++ 32 :: rest = b :: r → isspace b = false := by
    intro b r h
    rw [← (List.cons.inj h).1]
    rfl
  have htemp : ∀ b r, ascii "TEMP" ++ 32 :: (ascii "TABLE" ++ 32 :: rest) = b :: r → isspace b = false := by
    intro b r h
    rw [← (List.cons.inj h).1]
    rfl
  unfold createText
  split
  · have htext : ascii "CREATE TEMP TABLE " ++ rest =
        ascii "CREATE" ++ 32 :: (ascii "TEMP" ++ 32 :: (ascii "TABLE" ++ 32 :: rest)) := rfl
    rw [htext, words_create htemp, words_temp htable, words_table hrest]
    rfl
  · have htext : ascii "CREATE TABLE " ++ rest = ascii "CREATE" ++ 32 :: (ascii "TABLE" ++ 32 :: rest) := rfl
    rw [htext, words_create htable, words_table hrest]
    rfl

/-- **The text is a CREATE TABLE with the same names**: it fits in its buffer, and the parser reads
the name of the table and those of the columns, in their order. -/
theorem createStmt_names (table : CreatedTable) :
    (genCreateTableStmt table).2.length + 1 ≤ (genCreateTableStmt table).1 ∧
    words (genCreateTableStmt table).2 = wordsOf table := by
  refine ⟨stmt_fits table, ?_⟩
  obtain ⟨sep, e, hsep, heq⟩ := genCreateTableStmt_eq table
  have hlp : ∀ rest, words ([40] ++ rest) = .key .lp :: words rest := words_byte (fun _ => rfl) rfl fun _ => rfl
  have hends : ∀ rest, EndsName ([40] ++ rest) := endsName_cons (by decide)
  rw [heq]
  dsimp only
  rw [List.append_assoc, List.append_assoc, List.append_assoc, words_createText table (identPut_head table.zName _),
    words_name table.zName (hends _), hlp, words_allCols hsep, wordsOf]
  simp only [List.append_assoc, List.cons_append, List.nil_append]

example : (genCreateTableStmt ⟨1, ⟨ascii "t", by decide⟩, [⟨ascii "it's", by decide⟩, ⟨ascii "order", by decide⟩]⟩).2 =
    ascii "CREATE TEMP TABLE t('it''s','order')" := by decide +kernel

end Dbsql.L5.Parse
