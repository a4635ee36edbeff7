import Dbsql.L1Encoding.Mem
import Dbsql.L2Storage.Hash
/-!
# Tokens (sql_tokenize.c:52-452)

`__get_token` gives the type and the length of the token at the beginning of a string. The string
is its bytes without the terminating zero; the loops of the scanner over the bytes are recursions
over the list.

Results:
* `getKeywordCode_eq`: a word has the code of the keyword that it is but for case.
-/
namespace Dbsql.L5.Parse
open Dbsql.L1
open Dbsql.L2.HashTable (KeyClass canon cut hashFn hash_congr hashIgnoreCase strncasecmp
  strncasecmp_iff strUpperToLower strUpperToLower_eq_zero Valid)

/-! ## Keywords -/

/-- The token types. -/
inductive Tk
  | space | comment | minus | lp | rp | semi | plus | star | slash | rem | eq | le | ne | lshift
  | lt | ge | rshift | gt | bitor | concat | comma | bitand | bitnot | string | dot | integer
  | float | id | variable | illegal
  | abort | after | all | and | as_ | asc | attach | before | begin_ | between | by_ | cascade
  | case_ | check | cluster | collate | commit | conflict | constraint | copy | create | joinKw
  | database | default | deferred | deferrable | delete | delimiters | desc | detach | distinct
  | drop | end_ | each | else_ | except | explain | fail | for_ | foreign | from_ | glob | group
  | having_ | ignore | immediate | in_ | index | initially | insert | instead | intersect | into
  | is | isnull | join | key | like | limit | match_ | not | notnull | null | of | offset | on
  | or | order | pragma | primary | raise | references | replace | restrict | rollback | row
  | select | set | statement | table | temp | then_ | transaction | trigger | union | unique
  | update | using_ | vacuum | values | view | when | where_
  deriving DecidableEq

/-- `sql_tokens_table` (sql_tokenize.c:55-155). -/
def sqlTokensTable : List (String × Tk) :=
  [("ABORT", .abort), ("AFTER", .after), ("ALL", .all), ("AND", .and), ("AS", .as_), ("ASC", .asc),
   ("ATTACH", .attach), ("BEFORE", .before), ("BEGIN", .begin_), ("BETWEEN", .between),
   ("BY", .by_), ("CASCADE", .cascade), ("CASE", .case_), ("CHECK", .check), ("CLUSTER", .cluster),
   ("COLLATE", .collate), ("COMMIT", .commit), ("CONFLICT", .conflict),
   ("CONSTRAINT", .constraint), ("COPY", .copy), ("CREATE", .create), ("CROSS", .joinKw),
   ("DATABASE", .database), ("DEFAULT", .default), ("DEFERRED", .deferred),
   ("DEFERRABLE", .deferrable), ("DELETE", .delete), ("DELIMITERS", .delimiters), ("DESC", .desc),
   ("DETACH", .detach), ("DISTINCT", .distinct), ("DROP", .drop), ("END", .end_), ("EACH", .each),
   ("ELSE", .else_), ("EXCEPT", .except), ("EXPLAIN", .explain), ("FAIL", .fail), ("FOR", .for_),
   ("FOREIGN", .foreign), ("FROM", .from_), ("FULL", .joinKw), ("GLOB", .glob), ("GROUP", .group),
   ("HAVING", .having_), ("IGNORE", .ignore), ("IMMEDIATE", .immediate), ("IN", .in_),
   ("INDEX", .index), ("INITIALLY", .initially), ("INNER", .joinKw), ("INSERT", .insert),
   ("INSTEAD", .instead), ("INTERSECT", .intersect), ("INTO", .into), ("IS", .is),
   ("ISNULL", .isnull), ("JOIN", .join), ("KEY", .key), ("LEFT", .joinKw), ("LIKE", .like),
   ("LIMIT", .limit), ("MATCH", .match_), ("NATURAL", .joinKw), ("NOT", .not),
   ("NOTNULL", .notnull), ("NULL", .null), ("OF", .of), ("OFFSET", .offset), ("ON", .on),
   ("OR", .or), ("ORDER", .order), ("OUTER", .joinKw), ("PRAGMA", .pragma), ("PRIMARY", .primary),
   ("RAISE", .raise), ("REFERENCES", .references), ("REPLACE", .replace), ("RESTRICT", .restrict),
   ("RIGHT", .joinKw), ("ROLLBACK", .rollback), ("ROW", .row), ("SELECT", .select), ("SET", .set),
   ("STATEMENT", .statement), ("TABLE", .table), ("TEMP", .temp), ("TEMPORARY", .temp),
   ("THEN", .then_), ("TRANSACTION", .transaction), ("TRIGGER", .trigger), ("UNION", .union),
   ("UNIQUE", .unique), ("UPDATE", .update), ("USING", .using_), ("VACUUM", .vacuum),
   ("VALUES", .values), ("VIEW", .view), ("WHEN", .when), ("WHERE", .where_)]

/-- The chain of a hash value; each keyword was put at its front. -/
def keywordChain (h : Nat) : List (String × Tk) :=
  sqlTokensTable.reverse.filter fun p =>
    (hashIgnoreCase (ascii p.1) (BitVec.ofNat 32 (ascii p.1).length)).toNat % 101 = h

/-- `__get_keyword_code` (sql_tokenize.c:171-206). -/
def getKeywordCode (z : Bytes) (n : Nat) : Tk :=
  let h := (hashIgnoreCase z (BitVec.ofNat 32 n)).toNat % 101
  match (keywordChain h).find? fun p => (ascii p.1).length = n ∧ strncasecmp (ascii p.1) z n with
  | some p => p.2
  | none => .id

/-- A word without regard to case. -/
def fold (w : Bytes) : Bytes := w.map strUpperToLower

theorem cut_fold {w : Bytes} (h : 0 ∉ w) : cut (fold w) = fold w := by
  induction w with
  | nil => rfl
  | cons c w ih =>
    rw [List.mem_cons, not_or] at h
    have hc : strUpperToLower c ≠ 0 := fun h0 => h.1 ((strUpperToLower_eq_zero c).1 h0).symm
    rw [fold, List.map_cons, cut, if_neg hc]
    exact congrArg _ (ih h.2)

/-- The keywords are short words of letters, and no two are the same. -/
theorem sqlTokensTable_names : (∀ p ∈ sqlTokensTable, 0 < (ascii p.1).length ∧
    (ascii p.1).length < 2 ^ 31 ∧ 0 ∉ ascii p.1) ∧
    (sqlTokensTable.map fun p => fold (ascii p.1)).Nodup := by
  constructor
  · decide +kernel
  · -- as numbers the words are compared at once
    apply List.Nodup.of_map fun w : Bytes => w.foldl (fun k c => 256 * k + c.toNat) 0
    decide +kernel

/-- A word has the code of the keyword that it is but for case. -/
theorem getKeywordCode_eq {z : Bytes} {n : Nat} (hle : n ≤ z.length) (hz : 0 ∉ z.take n) :
    getKeywordCode z n =
      match sqlTokensTable.find? fun p => fold (ascii p.1) = fold (z.take n) with
      | some p => p.2
      | none => .id := by
  have hname := sqlTokensTable_names.1
  have hsame : ∀ p ∈ sqlTokensTable, (ascii p.1).length = n ∧ strncasecmp (ascii p.1) z n = true ↔
      fold (ascii p.1) = fold (z.take n) := by
    intro p hp
    obtain ⟨-, -, hp0⟩ := hname p hp
    rw [strncasecmp_iff]
    constructor
    · rintro ⟨hlen, hcut⟩
      rw [← hlen, List.take_length] at hcut
      rw [hlen] at hcut
      exact (cut_fold hp0).symm.trans (hcut.trans (cut_fold hz))
    · intro h
      have hlen : (ascii p.1).length = n := by
        have h' := congrArg List.length h
        rw [fold, fold, List.length_map, List.length_map, List.length_take] at h'
        omega
      refine ⟨hlen, ?_⟩
      rw [← hlen, List.take_length, hlen]
      exact (cut_fold hp0).trans (h.trans (cut_fold hz).symm)
  have hhash : ∀ p ∈ sqlTokensTable, fold (ascii p.1) = fold (z.take n) →
      p ∈ keywordChain ((hashIgnoreCase z (BitVec.ofNat 32 n)).toNat % 101) := by
    intro p hp hfold
    obtain ⟨hpos, hlt, hp0⟩ := hname p hp
    obtain ⟨hlen, -⟩ := (hsame p hp).2 hfold
    have hnat : (BitVec.ofNat 32 (ascii p.1).length).toNat = (ascii p.1).length := by
      rw [BitVec.toNat_ofNat]
      omega
    have hv : Valid .string (ascii p.1) (BitVec.ofNat 32 (ascii p.1).length) := by
      refine fun _ => ⟨?_, by omega, fun hmem => hp0 (List.mem_of_mem_take hmem)⟩
      rw [BitVec.slt_iff_toInt_lt, BitVec.toInt_eq_toNat_of_lt (x := BitVec.ofNat 32 _) (by omega), hnat]
      exact Int.natCast_pos.2 hpos
    have hcanon : canon .string (ascii p.1) (BitVec.ofNat 32 (ascii p.1).length) =
        canon .string z (BitVec.ofNat 32 (ascii p.1).length) := by
      unfold canon
      dsimp only
      rw [hnat, List.take_length, hlen]
      exact congrArg _ (congrArg cut hfold)
    have hh := hash_congr hv hcanon
    change hashIgnoreCase _ _ = hashIgnoreCase _ _ at hh
    rw [← hlen, ← hh]
    exact List.mem_filter.2 ⟨List.mem_reverse.2 hp, decide_eq_true rfl⟩
  unfold getKeywordCode
  dsimp only
  cases hfind : sqlTokensTable.find? fun p => fold (ascii p.1) = fold (z.take n) with
  | some p =>
    have hp := List.mem_of_find?_eq_some hfind
    have hpf : fold (ascii p.1) = fold (z.take n) := by simpa using List.find?_some hfind
    cases hchain : (keywordChain ((hashIgnoreCase z (BitVec.ofNat 32 n)).toNat % 101)).find? fun p =>
        (ascii p.1).length = n ∧ strncasecmp (ascii p.1) z n = true with
    | none =>
      have hno := List.find?_eq_none.1 hchain p (hhash p hp hpf)
      exact absurd ((hsame p hp).2 hpf) (by simpa using hno)
    | some q =>
      have hq : q ∈ sqlTokensTable :=
        List.mem_reverse.1 (List.mem_filter.1 (List.mem_of_find?_eq_some hchain)).1
      have hqf := (hsame q hq).1 (by simpa using List.find?_some hchain)
      have hqp : q = p := List.inj_on_of_nodup_map sqlTokensTable_names.2 hq hp (hqf.trans hpf.symm)
      rw [hqp]
  | none =>
    cases hchain : (keywordChain ((hashIgnoreCase z (BitVec.ofNat 32 n)).toNat % 101)).find? fun p =>
        (ascii p.1).length = n ∧ strncasecmp (ascii p.1) z n = true with
    | none => rfl
    | some q =>
      have hq : q ∈ sqlTokensTable :=
        List.mem_reverse.1 (List.mem_filter.1 (List.mem_of_find?_eq_some hchain)).1
      have hqf := (hsame q hq).1 (by simpa using List.find?_some hchain)
      exact absurd hqf (by simpa using List.find?_eq_none.1 hfind q hq)

/-- A word has no code that no keyword has. -/
theorem getKeywordCode_ne {tk : Tk} (htable : ∀ p ∈ sqlTokensTable, p.2 ≠ tk) (hid : tk ≠ .id) (z : Bytes) (n : Nat) :
    getKeywordCode z n ≠ tk := by
  unfold getKeywordCode
  dsimp only
  split
  · rename_i p hp
    exact htable p (List.mem_reverse.1 (List.mem_filter.1 (List.mem_of_find?_eq_some hp)).1)
  · exact hid.symm

/-! ## The scanner -/

/-- `id_char_p` (sql_tokenize.c:225-235). -/
def idChar (c : UInt8) : Bool :=
  (48 ≤ c && c ≤ 57) || (65 ≤ c && c ≤ 90) || c = 95 || (97 ≤ c && c ≤ 122)

def isspace (c : UInt8) : Bool := c = 32 || (9 ≤ c && c ≤ 13)

def isdigit (c : UInt8) : Bool := 48 ≤ c && c ≤ 57

/-- The byte at an index; zero at the end. -/
def byteAt (z : Bytes) (i : Nat) : UInt8 := z.getD i 0

/-- A C comment after `/*` and a byte: to the end of the comment. -/
def commentLoop (prev : UInt8) : Bytes → Nat
  | [] => 0
  | c :: z => if c = 47 ∧ prev = 42 then 1 else 1 + commentLoop c z

/-- A string after its first quote: to the end of the string. -/
def stringLoop (delim : UInt8) : Bytes → Nat
  | [] => 0
  | [_] => 1
  | c :: c' :: z =>
    if c = delim then
      if c' = delim then 2 + stringLoop delim z else 1
    else 1 + stringLoop delim (c' :: z)

/-- A name in brackets, after a byte. -/
def bracketLoop (prev : UInt8) : Bytes → Nat
  | [] => 0
  | c :: z => if prev = 93 then 0 else 1 + bracketLoop c z

/-- The digits at an index. -/
def digits (z : Bytes) (i : Nat) : Nat := ((z.drop i).takeWhile isdigit).length

/-- The tokens that are one byte always. -/
def oneByte : UInt8 → Option Tk
  | 40 => some .lp
  | 41 => some .rp
  | 59 => some .semi
  | 43 => some .plus
  | 42 => some .star
  | 37 => some .rem
  | 44 => some .comma
  | 38 => some .bitand
  | 126 => some .bitnot
  | 46 => some .dot
  | 63 => some .variable
  | _ => none

/-- A number. -/
def getNumber (z : Bytes) : Tk × Nat :=
  let i := 1 + digits z 1
  let (tk, i) :=
    if byteAt z i = 46 ∧ isdigit (byteAt z (i + 1)) then (Tk.float, i + 2 + digits z (i + 2))
    else (Tk.integer, i)
  if (byteAt z i = 101 ∨ byteAt z i = 69) ∧ (isdigit (byteAt z (i + 1)) ∨
      (byteAt z (i + 1) = 43 ∨ byteAt z (i + 1) = 45) ∧ isdigit (byteAt z (i + 2))) then
    (.float, i + 2 + digits z (i + 2))
  else (tk, i)

/-- `__get_token` (sql_tokenize.c:243-452): the type and the length. -/
def getToken (z : Bytes) : Tk × Nat :=
  let c := byteAt z 0
  if c = 32 ∨ c = 9 ∨ c = 10 ∨ c = 12 ∨ c = 13 then
    (.space, 1 + ((z.drop 1).takeWhile isspace).length)
  else if c = 45 then
    if byteAt z 1 = 45 then (.comment, 2 + ((z.drop 2).takeWhile (· ≠ 10)).length) else (.minus, 1)
  else if c = 47 then
    if byteAt z 1 ≠ 42 ∨ byteAt z 2 = 0 then (.slash, 1)
    else (.comment, 3 + commentLoop (byteAt z 2) (z.drop 3))
  else if c = 61 then (.eq, if byteAt z 1 = 61 then 2 else 1)
  else if c = 60 then
    if byteAt z 1 = 61 then (.le, 2)
    else if byteAt z 1 = 62 then (.ne, 2)
    else if byteAt z 1 = 60 then (.lshift, 2)
    else (.lt, 1)
  else if c = 62 then
    if byteAt z 1 = 61 then (.ge, 2)
    else if byteAt z 1 = 62 then (.rshift, 2)
    else (.gt, 1)
  else if c = 33 then
    if byteAt z 1 ≠ 61 then (.illegal, 2) else (.ne, 2)
  else if c = 124 then
    if byteAt z 1 ≠ 124 then (.bitor, 1) else (.concat, 2)
  else if c = 39 ∨ c = 34 then (.string, 1 + stringLoop c (z.drop 1))
  else if isdigit c then getNumber z
  else if c = 91 then (.id, 1 + bracketLoop c (z.drop 1))
  else
    match oneByte c with
    | some tk => (tk, 1)
    | none =>
      if c < 128 ∧ ¬idChar c then (.illegal, 1)
      else
        let i := 1 + ((z.drop 1).takeWhile fun c => 128 ≤ c || idChar c).length
        (getKeywordCode z i, i)

/-- The tokens of a string, as `__run_sql_parser` takes them one after the other. -/
def tokensLoop : Nat → Bytes → List (Tk × Bytes)
  | fuel + 1, c :: z =>
    let (tk, n) := getToken (c :: z)
    (tk, (c :: z).take n) :: tokensLoop fuel ((c :: z).drop n)
  | _, _ => []

def tokens (sql : Bytes) : List (Tk × Bytes) := tokensLoop sql.length sql

end Dbsql.L5.Parse
