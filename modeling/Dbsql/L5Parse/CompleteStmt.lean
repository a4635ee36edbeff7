import Dbsql.L5Parse.Tokenize
import Mathlib.Data.List.Induction
/-!
# Complete statements (sql_tokenize.c:569-793)

`dbsql_complete_stmt` scans the string by itself, with loops of its own for strings, brackets,
comments and words, and drives an automaton of seven states. A digit begins a word for it and a
doubled quote two strings; in the states in the middle of a statement that makes no difference,
and a token that is not a semicolon leads there.

`Complete` says which token sequences are statements one after the other: up to a semicolon, or,
from CREATE TRIGGER on, up to the first `; END ;`.

Results:
* `run_eq`: the scan of the bytes is the automaton on the tokens of `__get_token`.
* `final_iff`: the automaton ends at the start exactly after complete statements.
* `completeStmt_iff`: both, and that no string, bracket or comment is left open.
-/
namespace Dbsql.L5.Parse
open Dbsql.L1
open Dbsql.L2.HashTable (cut strncasecmp strncasecmp_iff strUpperToLower)

/-! ## The automaton -/

/-- The token types of `dbsql_complete_stmt`. -/
inductive Token
  | explain | create | temp | trigger | end_ | semi | ws | other
  deriving DecidableEq

inductive State
  | start | explain | create | normal | trigger | semi | end_
  deriving DecidableEq

/-- A row of `trans`. -/
def row (s0 s1 s2 s3 s4 s5 s6 s7 : State) : Token → State
  | .explain => s0
  | .create => s1
  | .temp => s2
  | .trigger => s3
  | .end_ => s4
  | .semi => s5
  | .ws => s6
  | .other => s7

/-- `trans` (sql_tokenize.c:652-662). -/
def trans : State → Token → State
  | .start => row .explain .create .normal .normal .normal .start .start .normal
  | .explain => row .normal .create .normal .normal .normal .start .explain .normal
  | .create => row .normal .normal .create .trigger .normal .start .create .normal
  | .normal => row .normal .normal .normal .normal .normal .start .normal .normal
  | .trigger => row .trigger .trigger .trigger .trigger .trigger .semi .trigger .trigger
  | .semi => row .trigger .trigger .trigger .trigger .end_ .semi .semi .trigger
  | .end_ => row .trigger .trigger .trigger .trigger .trigger .start .end_ .trigger

/-! ## The scan -/

/-- What is after the end of a C comment. -/
@[grind =] def skipComment : Bytes → Option Bytes
  | [] => none
  | [_] => none
  | c :: c' :: z => if c = 42 ∧ c' = 47 then some z else skipComment (c' :: z)

/-- What is after the next byte `d`. -/
@[grind =] def skipTo (d : UInt8) : Bytes → Option Bytes
  | [] => none
  | c :: z => if c = d then some z else skipTo d z

/-- The token type of a word. -/
def wordToken (w : Bytes) : Token :=
  let is (name : String) := w.length = (ascii name).length ∧ strncasecmp w (ascii name) w.length
  match w.head? with
  | some 99 | some 67 => if is "create" then .create else .other
  | some 116 | some 84 =>
    if is "trigger" then .trigger
    else if is "temp" then .temp
    else if is "temporary" then .temp
    else .other
  | some 101 | some 69 => if is "end" then .end_ else if is "explain" then .explain else .other
  | _ => .other

/-- One round of the loop: a token and the rest, or what to return. -/
inductive Scan
  | token (t : Token) (rest : Bytes)
  | incomplete
  | atEnd

@[grind =] def scan (c : UInt8) (z : Bytes) : Scan :=
  if c = 59 then .token .semi z
  else if c = 32 ∨ c = 13 ∨ c = 9 ∨ c = 10 ∨ c = 12 then .token .ws z
  else if c = 47 then
    if byteAt z 0 ≠ 42 then .token .other z
    else
      match skipComment (z.drop 1) with
      | some rest => .token .ws rest
      | none => .incomplete
  else if c = 45 then
    if byteAt z 0 ≠ 45 then .token .other z
    else
      match skipTo 10 z with
      | some rest => .token .ws rest
      | none => .atEnd
  else if c = 91 then
    match skipTo 93 z with
    | some rest => .token .other rest
    | none => .incomplete
  else if c = 34 ∨ c = 39 then
    match skipTo c z with
    | some rest => .token .other rest
    | none => .incomplete
  else if idChar c then
    .token (wordToken (c :: z.takeWhile idChar)) (z.dropWhile idChar)
  else .token .other z

/-- The loop of `dbsql_complete_stmt`. -/
def completeLoop : Nat → State → Bytes → Bool
  | fuel + 1, state, c :: z =>
    match scan c z with
    | .token t rest => completeLoop fuel (trans state t) rest
    | .incomplete => false
    | .atEnd => state = .start
  | _, state, _ => state = .start

/-- `dbsql_complete_stmt` (sql_tokenize.c:638-793). -/
def completeStmt (sql : Bytes) : Bool := completeLoop sql.length .start sql

/-! ## Complete statements -/

/-- What a token is to the grammar; space and comments are nothing. -/
def kind : Tk → Option Token
  | .space | .comment => none
  | .explain => some .explain
  | .create => some .create
  | .temp => some .temp
  | .trigger => some .trigger
  | .end_ => some .end_
  | .semi => some .semi
  | _ => some .other

/-- The tokens that matter. -/
def kinds (sql : Bytes) : List Token := (tokens sql).filterMap fun t => kind t.1

/-- The beginning of a trigger: `[EXPLAIN] CREATE (TEMP | TEMPORARY)* TRIGGER`. -/
def BeginsTrigger (ts : List Token) : Prop :=
  ∃ n, ts = .create :: List.replicate n .temp ++ [.trigger] ∨
    ts = .explain :: .create :: List.replicate n .temp ++ [.trigger]

/-- A statement ends with its first semicolon, or that of a trigger with its first `; END ;`. -/
inductive Statement (trigger : List Token → Prop) : List Token → Prop
  | plain {ts : List Token} : .semi ∉ ts → (∀ pre post, ts = pre ++ post → ¬ trigger pre) →
      Statement trigger (ts ++ [.semi])
  | trigger {pre ts : List Token} : trigger pre → ¬ [.semi, .end_, .semi] <:+: ts ++ [.semi, .end_] →
      Statement trigger (pre ++ ts ++ [.semi, .end_, .semi])

/-- Statements, one after the other. -/
def Complete (trigger : List Token → Prop) (ts : List Token) : Prop :=
  ∃ ss : List (List Token), ts = ss.flatten ∧ ∀ s ∈ ss, Statement trigger s

/-- Whether a string, after its first quote, has its last. -/
@[grind =] def stringClosed (delim : UInt8) : Bytes → Bool
  | [] => false
  | [c] => c = delim
  | c :: c' :: z =>
    if c = delim then
      if c' = delim then stringClosed delim z else true
    else stringClosed delim (c' :: z)

/-- A string, a name in brackets or a C comment without its end. -/
def Unclosed (t : Tk × Bytes) : Bool :=
  match t with
  | (.string, c :: z) => !stringClosed c z
  | (.id, 91 :: z) => skipTo 93 z = none
  | (.comment, 47 :: z) => skipComment (z.drop 1) = none
  | _ => false

/-- The string ends inside a token. -/
def EndsInside (sql : Bytes) : Prop := ∃ t, (tokens sql).getLast? = some t ∧ Unclosed t = true

/-- Bytes 1 to 127 without the vertical tab. -/
def Chars (sql : Bytes) : Prop := ∀ c ∈ sql, c ≠ 0 ∧ c < 128 ∧ c ≠ 11

/-- No token is TK_ILLEGAL. -/
def Legal (sql : Bytes) : Prop := ∀ t ∈ tokens sql, t.1 ≠ .illegal

/-! ## One round -/

theorem skipTo_length {d : UInt8} {z rest : Bytes} (h : skipTo d z = some rest) :
    rest.length ≤ z.length := by
  induction z with
  | nil => cases h
  | cons c z ih =>
    rw [skipTo] at h
    split at h
    · cases h
      simp
    · have hle := ih h
      rw [List.length_cons]
      omega

theorem skipComment_length {z rest : Bytes} (h : skipComment z = some rest) :
    rest.length ≤ z.length := by
  fun_induction skipComment z with
  | case1 => cases h
  | case2 => cases h
  | case3 c c' z hc =>
    cases h
    simp only [List.length_cons]
    omega
  | case4 c c' z hc ih =>
    have hle := ih h
    rw [List.length_cons]
    omega

/-- A round leaves less to scan. -/
theorem scan_length {c : UInt8} {z rest : Bytes} {t : Token} (h : scan c z = .token t rest) :
    rest.length ≤ z.length := by
  unfold scan at h
  have hskip : ∀ {o : Option Bytes} {k : Token} {f : Scan}, (∀ r, o = some r → r.length ≤ z.length) →
      (f = .incomplete ∨ f = .atEnd) → (match o with
        | some r => Scan.token k r
        | none => f) = .token t rest → rest.length ≤ z.length := by
    intro o k f ho hf hm
    cases o with
    | some r =>
      cases hm
      exact ho _ rfl
    | none =>
      rcases hf with rfl | rfl <;> cases hm
  split_ifs at h
  · cases h
    exact le_refl _
  · cases h
    exact le_refl _
  · cases h
    exact le_refl _
  · refine hskip (fun r hr => ?_) (.inl rfl) h
    exact (skipComment_length hr).trans (by rw [List.length_drop]; omega)
  · cases h
    exact le_refl _
  · exact hskip (fun r hr => skipTo_length hr) (.inr rfl) h
  · exact hskip (fun r hr => skipTo_length hr) (.inl rfl) h
  · exact hskip (fun r hr => skipTo_length hr) (.inl rfl) h
  · cases h
    exact (List.dropWhile_suffix _).length_le
  · cases h
    exact le_refl _

/-- The loop with as many rounds as it may need. -/
def run (st : State) (z : Bytes) : Bool := completeLoop z.length st z

theorem completeLoop_fuel (fuel : Nat) : ∀ {st : State} {z : Bytes}, z.length ≤ fuel →
    completeLoop fuel st z = run st z := by
  induction fuel using Nat.strong_induction_on with
  | _ fuel ih =>
    intro st z hle
    cases z with
    | nil => cases fuel <;> rfl
    | cons c z =>
      cases fuel with
      | zero => simp at hle
      | succ fuel =>
        rw [List.length_cons] at hle
        unfold run
        rw [List.length_cons, completeLoop, completeLoop]
        cases hs : scan c z with
        | incomplete => rfl
        | atEnd => rfl
        | token t rest =>
          have hlen := scan_length hs
          dsimp only
          rw [ih fuel (by omega) (by omega)]
          rcases Nat.lt_or_ge z.length (fuel + 1) with hlt | hge
          · exact (ih z.length hlt hlen).symm
          · omega

theorem run_nil (st : State) : run st [] = decide (st = .start) := rfl

theorem run_cons (st : State) (c : UInt8) (z : Bytes) : run st (c :: z) =
    match scan c z with
    | .token t rest => run (trans st t) rest
    | .incomplete => false
    | .atEnd => decide (st = .start) := by
  unfold run
  rw [List.length_cons, completeLoop]
  cases hs : scan c z with
  | incomplete => rfl
  | atEnd => rfl
  | token t rest => exact completeLoop_fuel z.length (scan_length hs)

/-! ## In the middle of a statement -/

/-- The states in the middle of a statement. -/
def Middle (st : State) : Prop := st = .normal ∨ st = .trigger

theorem middle_other (st : State) : Middle (trans st .other) := by
  cases st <;> first | exact .inl rfl | exact .inr rfl

theorem Middle.trans {st : State} (h : Middle st) {t : Token} (ht : t ≠ .semi) : trans st t = st := by
  rcases h with rfl | rfl <;> cases t <;> first | rfl | exact absurd rfl ht

theorem Middle.ne_start {st : State} (h : Middle st) : st ≠ .start := by
  rcases h with rfl | rfl <;> exact nofun

theorem trans_ws (st : State) : trans st .ws = st := by
  cases st <;> rfl

/-- A byte that is a token of its own. -/
def Plain (c : UInt8) : Prop := ∀ z, scan c z = .token .other z

theorem Plain.run {c : UInt8} (h : Plain c) (st : State) (z : Bytes) :
    Parse.run st (c :: z) = Parse.run (Parse.trans st .other) z := by
  rw [run_cons, h z]

theorem plain_eq : Plain 61 := fun _ => rfl

theorem plain_lt : Plain 60 := fun _ => rfl

theorem plain_gt : Plain 62 := fun _ => rfl

theorem plain_bar : Plain 124 := fun _ => rfl

theorem plain_bang : Plain 33 := fun _ => rfl

theorem plain_dot : Plain 46 := fun _ => rfl

theorem plain_plus : Plain 43 := fun _ => rfl

/-- The bytes of words are none of the others. -/
theorem idChar_cases {c : UInt8} (h : idChar c = true) : c ≠ 59 ∧ c ≠ 32 ∧ c ≠ 13 ∧ c ≠ 9 ∧ c ≠ 10 ∧
    c ≠ 12 ∧ c ≠ 47 ∧ c ≠ 45 ∧ c ≠ 91 ∧ c ≠ 34 ∧ c ≠ 39 := by
  refine ⟨?_, ?_, ?_, ?_, ?_, ?_, ?_, ?_, ?_, ?_, ?_⟩ <;>
  · rintro rfl
    revert h
    decide

theorem scan_idChar {c : UInt8} (h : idChar c = true) (z : Bytes) : scan c z =
    .token (wordToken (c :: z.takeWhile idChar)) (z.dropWhile idChar) := by
  obtain ⟨h1, h2, h3, h4, h5, h6, h7, h8, h9, h10, h11⟩ := idChar_cases h
  unfold scan
  rw [if_neg h1, if_neg (by simp [h2, h3, h4, h5, h6]), if_neg h7, if_neg h8, if_neg h9,
    if_neg (by simp [h10, h11]), if_pos h]

theorem wordToken_ne_semi (w : Bytes) : wordToken w ≠ .semi := by
  unfold wordToken
  dsimp only
  split <;> (first | split_ifs | skip) <;> exact nofun

/-- A byte of a word makes no difference. -/
theorem Middle.run_idChar {st : State} (h : Middle st) {c : UInt8} (hc : idChar c = true) (z : Bytes) :
    run st (c :: z) = run st z := by
  have hword : ∀ {c : UInt8} (z : Bytes), idChar c = true → run st (c :: z) =
      run st (z.dropWhile idChar) := by
    intro c z hc
    rw [run_cons, scan_idChar hc]
    dsimp only
    rw [h.trans (wordToken_ne_semi _)]
  rw [hword z hc]
  cases z with
  | nil => rfl
  | cons c' z =>
    by_cases hc' : idChar c' = true
    · rw [List.dropWhile_cons_of_pos hc', hword z hc']
    · rw [List.dropWhile_cons_of_neg hc']

theorem Middle.run_plain {st : State} (h : Middle st) {c : UInt8} (hc : Plain c) (z : Bytes) :
    run st (c :: z) = run st z := by
  rw [hc.run, h.trans (by decide)]

theorem idChar_of_isdigit {c : UInt8} (h : isdigit c = true) : idChar c = true := by
  unfold isdigit at h
  unfold idChar
  rw [h]
  rfl

/-- Nor do digits. -/
theorem Middle.run_digits {st : State} (h : Middle st) (z : Bytes) :
    run st (z.drop (z.takeWhile isdigit).length) = run st z := by
  induction z with
  | nil => rfl
  | cons c z ih =>
    by_cases hc : isdigit c = true
    · rw [List.takeWhile_cons_of_pos hc, List.length_cons, List.drop_succ_cons, ih,
        h.run_idChar (idChar_of_isdigit hc)]
    · rw [List.takeWhile_cons_of_neg hc]
      rfl

/-! ## The tokens of `__get_token` -/

theorem run_spaces {st : State} {z : Bytes} (hz : Chars z) :
    run st (z.drop (z.takeWhile isspace).length) = run st z := by
  induction z with
  | nil => rfl
  | cons c z ih =>
    by_cases hc : isspace c = true
    · have hws : scan c z = .token .ws z := by
        have h11 := (hz c (List.mem_cons_self ..)).2.2
        unfold isspace at hc
        have h11' : c.toNat ≠ 11 := fun h => h11 (UInt8.toNat_inj.1 h)
        have hcases : c.toNat = 32 ∨ c.toNat = 13 ∨ c.toNat = 9 ∨ c.toNat = 10 ∨ c.toNat = 12 := by
          simp only [Bool.or_eq_true, Bool.and_eq_true, decide_eq_true_eq, UInt8.le_iff_toNat_le] at hc
          rcases hc with rfl | ⟨h9, h13⟩
          · exact .inl rfl
          · simp only [UInt8.reduceToNat] at h9 h13
            omega
        have hbyte : c = 32 ∨ c = 13 ∨ c = 9 ∨ c = 10 ∨ c = 12 := by
          simp only [← UInt8.toNat_inj]
          exact hcases
        rcases hbyte with rfl | rfl | rfl | rfl | rfl <;> rfl
      rw [List.takeWhile_cons_of_pos hc, List.length_cons, List.drop_succ_cons,
        ih fun c hc => hz c (List.mem_cons_of_mem _ hc), run_cons, hws]
      dsimp only
      rw [trans_ws]
    · rw [List.takeWhile_cons_of_neg hc]
      rfl

/-- A comment to the end of the line. -/
theorem run_line (st : State) (z : Bytes) :
    (match skipTo 10 z with
      | some rest => run st rest
      | none => decide (st = .start)) = run st (z.drop (z.takeWhile (· ≠ 10)).length) := by
  induction z with
  | nil => rfl
  | cons c z ih =>
    by_cases hc : c = 10
    · subst hc
      have hscan : scan 10 z = .token .ws z := rfl
      rw [List.takeWhile_cons_of_neg (by decide), List.length_nil, List.drop_zero, run_cons, hscan,
        skipTo, if_pos rfl]
      dsimp only
      rw [trans_ws]
    · rw [List.takeWhile_cons_of_pos (by simpa using hc), List.length_cons, List.drop_succ_cons, skipTo,
        if_neg hc]
      exact ih

theorem skipComment_eq (z : Bytes) : ∀ p : UInt8,
    skipComment (p :: z) = some (z.drop (commentLoop p z)) ∨
      skipComment (p :: z) = none ∧ z.drop (commentLoop p z) = [] := by
  induction z with
  | nil =>
    intro p
    exact .inr ⟨rfl, rfl⟩
  | cons c z ih =>
    intro p
    rw [skipComment, commentLoop]
    by_cases hc : c = 47 ∧ p = 42
    · rw [if_pos hc, if_pos hc.symm]
      exact .inl rfl
    · rw [if_neg hc, if_neg fun h => hc h.symm, Nat.add_comm, List.drop_succ_cons]
      exact ih c

theorem skipComment_take (z : Bytes) : ∀ p : UInt8,
    skipComment (p :: z.take (commentLoop p z)) = none ↔ skipComment (p :: z) = none := by
  induction z with
  | nil =>
    intro p
    exact Iff.rfl
  | cons c z ih =>
    intro p
    rw [commentLoop]
    by_cases hc : c = 47 ∧ p = 42
    · simp only [if_pos hc, List.take_succ_cons, List.take_zero, skipComment, if_pos hc.symm]
      exact ⟨nofun, nofun⟩
    · have hc' : ¬ (p = 42 ∧ c = 47) := fun h => hc h.symm
      simp only [if_neg hc, Nat.add_comm 1, List.take_succ_cons, skipComment, if_neg hc']
      exact ih c

theorem skipTo_bracket (z : Bytes) : ∀ p : UInt8, p ≠ 93 →
    (skipTo 93 z = some (z.drop (bracketLoop p z)) ∨
      skipTo 93 z = none ∧ z.drop (bracketLoop p z) = []) ∧
    (skipTo 93 (z.take (bracketLoop p z)) = none ↔ skipTo 93 z = none) := by
  induction z with
  | nil =>
    intro p _
    exact ⟨.inr ⟨rfl, rfl⟩, Iff.rfl⟩
  | cons c z ih =>
    intro p hp
    rw [bracketLoop, if_neg hp, Nat.add_comm, List.drop_succ_cons, List.take_succ_cons, skipTo, skipTo]
    by_cases hc : c = 93
    · rw [if_pos hc, if_pos hc, hc]
      have h0 : bracketLoop 93 z = 0 := by
        cases z with
        | nil => rfl
        | cons _ _ => exact if_pos rfl
      rw [h0]
      exact ⟨.inl rfl, nofun, nofun⟩
    · rw [if_neg hc, if_neg hc]
      exact ih c hc

/-- A string with doubled quotes is some strings one after the other. -/
theorem Middle.run_string {st : State} (h : Middle st) {d : UInt8} (hd : d = 34 ∨ d = 39) (z : Bytes) :
    (stringClosed d z = true → ∃ rest, skipTo d z = some rest ∧
      run st rest = run st (z.drop (stringLoop d z))) ∧
    (stringClosed d z = false → (∀ rest, skipTo d z = some rest → run st rest = false) ∧
      z.drop (stringLoop d z) = []) := by
  have hscan : ∀ z, scan d z = match skipTo d z with
      | some rest => .token .other rest
      | none => .incomplete := by
    intro z
    rcases hd with rfl | rfl <;> rfl
  fun_induction stringLoop d z with
  | case1 => exact ⟨fun h => (by cases h), fun _ => ⟨fun _ h => (by cases h), rfl⟩⟩
  | case2 c =>
    rw [stringClosed, skipTo]
    by_cases hc : c = d
    · rw [if_pos hc]
      exact ⟨fun _ => ⟨[], rfl, rfl⟩, fun hf => absurd (decide_eq_true hc) (by rw [hf]; decide)⟩
    · rw [if_neg hc]
      exact ⟨fun ht => absurd (of_decide_eq_true ht) hc, fun _ => ⟨fun _ h => (Option.some_ne_none _ h.symm).elim, rfl⟩⟩
  | case3 z ih =>
    -- the second quote begins a string of its own
    have hrun : run st (d :: z) = (skipTo d z).any (run st) := by
      rw [run_cons, hscan]
      cases skipTo d z with
      | none => rfl
      | some rest =>
        dsimp only [Option.any_some]
        rw [h.trans (by decide)]
    rw [stringClosed, if_pos rfl, if_pos rfl, skipTo, if_pos rfl]
    constructor
    · intro hclosed
      obtain ⟨rest, hrest, heq⟩ := ih.1 hclosed
      refine ⟨d :: z, rfl, ?_⟩
      rw [hrun, hrest, Nat.add_comm]
      exact heq
    · intro hopen
      obtain ⟨hfalse, hdrop⟩ := ih.2 hopen
      refine ⟨fun rest hrest => ?_, ?_⟩
      · cases hrest
        rw [hrun]
        cases hsk : skipTo d z with
        | none => rfl
        | some rest => exact hfalse rest hsk
      · rw [Nat.add_comm]
        exact hdrop
  | case4 c' z hc =>
    rw [stringClosed, if_pos rfl, if_neg hc, skipTo, if_pos rfl]
    exact ⟨fun _ => ⟨c' :: z, rfl, rfl⟩, fun h => by cases h⟩
  | case5 c c' z hc ih =>
    rw [stringClosed, if_neg hc, skipTo, if_neg hc, Nat.add_comm, List.drop_succ_cons]
    exact ih

theorem stringClosed_take (d : UInt8) (z : Bytes) :
    stringClosed d (z.take (stringLoop d z)) = stringClosed d z := by
  fun_induction stringLoop d z with
  | case1 => rfl
  | case2 c => rfl
  | case3 z ih =>
    rw [Nat.add_comm, List.take_succ_cons, List.take_succ_cons, stringClosed, stringClosed, if_pos rfl,
      if_pos rfl, if_pos rfl, if_pos rfl, ih]
  | case4 c' z hc =>
    rw [List.take_succ_cons, List.take_zero, stringClosed, stringClosed, if_pos rfl, if_neg hc]
    exact decide_eq_true rfl
  | case5 c c' z hc ih =>
    have hpos : ∃ k, stringLoop d (c' :: z) = k + 1 := by
      cases z with
      | nil => exact ⟨0, rfl⟩
      | cons c'' z =>
        rw [stringLoop]
        split_ifs
        · exact ⟨1 + stringLoop d z, by omega⟩
        · exact ⟨0, rfl⟩
        · exact ⟨_, Nat.add_comm 1 _⟩
    obtain ⟨k, hk⟩ := hpos
    rw [hk] at ih ⊢
    rw [List.take_succ_cons] at ih
    rw [Nat.add_comm, List.take_succ_cons, List.take_succ_cons, stringClosed, stringClosed, if_neg hc,
      if_neg hc]
    exact ih

theorem drop_of_byteAt {w : Bytes} {i : Nat} {b : UInt8} (h : byteAt w i = b) (hb : b ≠ 0) :
    w.drop i = b :: w.drop (i + 1) := by
  unfold byteAt at h
  by_cases hi : i < w.length
  · rw [List.getD_eq_getElem?_getD, List.getElem?_eq_getElem hi, Option.getD_some] at h
    rw [List.drop_eq_getElem_cons hi, h]
  · rw [List.getD_eq_getElem?_getD, List.getElem?_eq_none (by omega)] at h
    exact absurd h.symm hb

theorem ne_zero_of_isdigit {c : UInt8} (h : isdigit c = true) : c ≠ 0 := by
  rintro rfl
  revert h
  decide

section
variable {st : State} {w : Bytes} {i : Nat}

theorem Middle.drop_digits (h : Middle st) : run st (w.drop (i + digits w i)) = run st (w.drop i) := by
  unfold digits
  rw [← List.drop_drop]
  exact h.run_digits _

theorem Middle.drop_idChar (h : Middle st) (hc : idChar (byteAt w i) = true) :
    run st (w.drop (i + 1)) = run st (w.drop i) := by
  have h0 : byteAt w i ≠ 0 := fun h0 => absurd hc (by rw [h0]; decide)
  rw [drop_of_byteAt rfl h0, h.run_idChar hc]

theorem Middle.drop_plain (h : Middle st) {b : UInt8} (hb : byteAt w i = b) (h0 : b ≠ 0) (hp : Plain b) :
    run st (w.drop (i + 1)) = run st (w.drop i) := by
  rw [drop_of_byteAt hb h0, h.run_plain hp]

/-- A minus sign before a digit begins no comment. -/
theorem Middle.drop_minus (h : Middle st) (hb : byteAt w i = 45) (hd : isdigit (byteAt w (i + 1)) =
    true) :
    run st (w.drop (i + 1)) = run st (w.drop i) := by
  have hne : byteAt (w.drop (i + 1)) 0 ≠ 45 := by
    rw [drop_of_byteAt rfl (ne_zero_of_isdigit hd)]
    intro h45
    rw [show byteAt w (i + 1) = 45 from h45] at hd
    revert hd
    decide
  have hscan : scan 45 (w.drop (i + 1)) = .token .other (w.drop (i + 1)) := by
    unfold scan
    rw [if_neg (by decide), if_neg (by decide), if_neg (by decide), if_pos rfl, if_pos hne]
  rw [drop_of_byteAt hb (by decide), run_cons, hscan]
  dsimp only
  rw [h.trans (by decide)]

/-- A number is bytes of words, points and signs. -/
theorem Middle.run_number (h : Middle st) : run st (w.drop (getNumber w).2) = run st (w.drop 1) ∧
    ((getNumber w).1 = .integer ∨ (getNumber w).1 = .float) ∧ 1 ≤ (getNumber w).2 := by
  -- the point and what is after it
  obtain ⟨tk, i, hdef, hrun, htk, hpos⟩ : ∃ (tk : Tk) (i : Nat),
      (if byteAt w (1 + digits w 1) = 46 ∧ isdigit (byteAt w (1 + digits w 1 + 1)) then
        (Tk.float, 1 + digits w 1 + 2 + digits w (1 + digits w 1 + 2))
      else (Tk.integer, 1 + digits w 1)) = (tk, i) ∧ run st (w.drop i) = run st (w.drop 1) ∧
      (tk = .integer ∨ tk = .float) ∧ 1 ≤ i := by
    split
    · rename_i hpoint
      refine ⟨_, _, rfl, ?_, .inr rfl, by omega⟩
      have h1 := h.drop_idChar (idChar_of_isdigit hpoint.2)
      rw [h.drop_digits, h1, h.drop_plain hpoint.1 (by decide) plain_dot, h.drop_digits]
    · exact ⟨_, _, rfl, h.drop_digits, .inl rfl, by omega⟩
  unfold getNumber
  dsimp only
  rw [hdef]
  dsimp only
  split
  · rename_i hexp
    refine ⟨?_, .inr rfl, by dsimp only; omega⟩
    have he : idChar (byteAt w i) = true := by
      rcases hexp.1 with he | he <;> rw [he] <;> decide
    have hnext : run st (w.drop (i + 2)) = run st (w.drop (i + 1)) := by
      rcases hexp.2 with hd | ⟨hsign, hd⟩
      · exact h.drop_idChar (idChar_of_isdigit hd)
      · rcases hsign with hs | hs
        · exact h.drop_plain hs (by decide) plain_plus
        · exact h.drop_minus hs hd
    dsimp only
    rw [h.drop_digits, hnext, h.drop_idChar he, hrun]
  · exact ⟨hrun, htk, hpos⟩

end

/-! ## Words -/

/-- The keywords that matter. -/
def foldToken (u : Bytes) : Token :=
  if u = ascii "create" then .create
  else if u = ascii "trigger" then .trigger
  else if u = ascii "temp" then .temp
  else if u = ascii "temporary" then .temp
  else if u = ascii "end" then .end_
  else if u = ascii "explain" then .explain
  else .other

theorem kind_keyword : (∀ p ∈ sqlTokensTable, kind p.2 = some (foldToken (fold (ascii p.1)))) ∧
    ∀ u ∈ [ascii "create", ascii "trigger", ascii "temp", ascii "temporary", ascii "end", ascii "explain"],
      ∃ p ∈ sqlTokensTable, fold (ascii p.1) = u := by
  constructor
  · decide +kernel
  · -- the code of the keyword, before its letters
    have hcode : ∀ k ∈ [(ascii "create", Tk.create), (ascii "trigger", .trigger), (ascii "temp", .temp),
        (ascii "temporary", .temp), (ascii "end", .end_), (ascii "explain", .explain)],
        ∃ p ∈ sqlTokensTable, p.2 = k.2 ∧ fold (ascii p.1) = k.1 := by decide +kernel
    intro u hu
    obtain ⟨k, hk, rfl⟩ : ∃ k ∈ [(ascii "create", Tk.create), (ascii "trigger", .trigger), (ascii "temp", .temp),
        (ascii "temporary", .temp), (ascii "end", .end_), (ascii "explain", .explain)], k.1 = u :=
      List.mem_map.1 hu
    obtain ⟨p, hp, -, hpu⟩ := hcode k hk
    exact ⟨p, hp, hpu⟩

theorem kind_getKeywordCode {z : Bytes} {n : Nat} (hle : n ≤ z.length) (hz : 0 ∉ z.take n) :
    kind (getKeywordCode z n) = some (foldToken (fold (z.take n))) := by
  rw [getKeywordCode_eq hle hz]
  cases hfind : sqlTokensTable.find? fun p => fold (ascii p.1) = fold (z.take n) with
  | some p =>
    have hpf : fold (ascii p.1) = fold (z.take n) := by simpa using List.find?_some hfind
    rw [← hpf]
    exact kind_keyword.1 p (List.mem_of_find?_eq_some hfind)
  | none =>
    have hno : ∀ u ∈ [ascii "create", ascii "trigger", ascii "temp", ascii "temporary", ascii "end",
        ascii "explain"], fold (z.take n) ≠ u := by
      intro u hu heq
      obtain ⟨p, hp, hpu⟩ := kind_keyword.2 u hu
      exact absurd (hpu.trans heq.symm) (by simpa using List.find?_eq_none.1 hfind p hp)
    simp only [List.mem_cons, List.not_mem_nil, or_false, forall_eq_or_imp, forall_eq] at hno
    obtain ⟨h1, h2, h3, h4, h5, h6⟩ := hno
    unfold foldToken
    rw [if_neg h1, if_neg h2, if_neg h3, if_neg h4, if_neg h5, if_neg h6]
    rfl

theorem is_word_iff {w u : Bytes} (hw : 0 ∉ w) (hu : 0 ∉ u) :
    (w.length = u.length ∧ strncasecmp w u w.length = true) ↔ fold w = fold u := by
  rw [strncasecmp_iff, List.take_length]
  change _ ∧ cut (fold w) = cut (fold (u.take w.length)) ↔ _
  rw [cut_fold hw, cut_fold fun hmem => hu (List.mem_of_mem_take hmem)]
  constructor
  · rintro ⟨hlen, h⟩
    rwa [hlen, List.take_length] at h
  · intro h
    have hlen : w.length = u.length := by
      have h' := congrArg List.length h
      rwa [fold, fold, List.length_map, List.length_map] at h'
    refine ⟨hlen, ?_⟩
    rwa [hlen, List.take_length]

/-- The words are found by their first letter. -/
theorem wordToken_eq {w : Bytes} (hw : 0 ∉ w) : wordToken w = foldToken (fold w) := by
  have his : ∀ (name : String) (u : Bytes), 0 ∉ ascii name → fold (ascii name) = u →
      ((w.length = (ascii name).length ∧ strncasecmp w (ascii name) w.length = true) ↔ fold w = u) :=
    fun name u hname hu => hu ▸ is_word_iff hw hname
  have h1 := his "create" (ascii "create") (by decide) (by decide)
  have h2 := his "trigger" (ascii "trigger") (by decide) (by decide)
  have h3 := his "temp" (ascii "temp") (by decide) (by decide)
  have h4 := his "temporary" (ascii "temporary") (by decide) (by decide)
  have h5 := his "end" (ascii "end") (by decide) (by decide)
  have h6 := his "explain" (ascii "explain") (by decide) (by decide)
  unfold wordToken foldToken
  dsimp only
  simp only [h1, h2, h3, h4, h5, h6]
  cases w with
  | nil => rfl
  | cons c w =>
    -- a word with another first letter
    have hne : ∀ {a : UInt8} {name : String}, strUpperToLower c ≠ a → (ascii name).head? = some a →
        fold (c :: w) ≠ ascii name := by
      intro a name ha hname h
      rw [← h] at hname
      exact ha (Option.some.inj hname)
    have hc : strUpperToLower c ≠ 99 → fold (c :: w) ≠ ascii "create" := fun h => hne h rfl
    have ht : strUpperToLower c ≠ 116 → fold (c :: w) ≠ ascii "trigger" ∧ fold (c :: w) ≠ ascii "temp" ∧
        fold (c :: w) ≠ ascii "temporary" := fun h => ⟨hne h rfl, hne h rfl, hne h rfl⟩
    have he : strUpperToLower c ≠ 101 → fold (c :: w) ≠ ascii "end" ∧ fold (c :: w) ≠ ascii "explain" :=
      fun h => ⟨hne h rfl, hne h rfl⟩
    rw [List.head?_cons]
    split <;> rename_i hletter
    case h_1 | h_2 =>
      cases hletter
      obtain ⟨ht1, ht2, ht3⟩ := ht (by decide)
      obtain ⟨he1, he2⟩ := he (by decide)
      rw [if_neg ht1, if_neg ht2, if_neg ht3, if_neg he1, if_neg he2]
    case h_3 | h_4 =>
      cases hletter
      obtain ⟨he1, he2⟩ := he (by decide)
      rw [if_neg (hc (by decide)), if_neg he1, if_neg he2]
    case h_5 | h_6 =>
      cases hletter
      obtain ⟨ht1, ht2, ht3⟩ := ht (by decide)
      rw [if_neg (hc (by decide)), if_neg ht1, if_neg ht2, if_neg ht3]
    case h_7 hC hC' hT hT' hE =>
      have hcase : ∀ {a : UInt8}, c ≠ a → c ≠ a - 32 → strUpperToLower c ≠ a := by
        intro a h1 h2 h
        unfold strUpperToLower at h
        split at h
        · exact h2 (by rw [← h, UInt8.add_sub_cancel])
        · exact h1 h
      have hne : ∀ {a : UInt8}, (some c = some a → False) → c ≠ a := fun h h' => h (congrArg some h')
      obtain ⟨ht1, ht2, ht3⟩ := ht (hcase (hne hT) (hne hT'))
      obtain ⟨he1, he2⟩ := he (hcase (hne hE) (hne hletter))
      rw [if_neg (hc (hcase (hne hC) (hne hC'))), if_neg ht1, if_neg ht2, if_neg ht3, if_neg he1,
        if_neg he2]

/-! ## One token -/

/-- The state after a token. -/
def next (st : State) (tk : Tk) : State := ((kind tk).map (trans st)).getD st

/-- The scan of a string with the token `t` at its beginning. -/
def Step (st : State) (w : Bytes) (t : Tk × Nat) : Prop :=
  (Unclosed (t.1, w.take t.2) = true ∧ run st w = false ∧ w.drop t.2 = []) ∨
    (Unclosed (t.1, w.take t.2) = false ∧ run st w = run (next st t.1) (w.drop t.2))

section
variable {st : State} {c : UInt8} {z : Bytes}

theorem Step.one {tk : Tk} (hc : Plain c) (hk : kind tk = some .other)
    (hu : Unclosed (tk, [c]) = false) : Step st (c :: z) (tk, 1) := by
  refine .inr ⟨hu, ?_⟩
  unfold next
  rw [hc.run, hk]
  rfl

theorem Step.two {tk : Tk} {d : UInt8} (hc : Plain c) (hd : byteAt z 0 = d) (h0 : d ≠ 0) (hp : Plain d)
    (hk : kind tk = some .other) (hu : ∀ w, Unclosed (tk, w) = false) : Step st (c :: z) (tk, 2) := by
  refine .inr ⟨hu _, ?_⟩
  have hz : z = d :: z.drop 1 := drop_of_byteAt hd h0
  unfold next
  rw [hc.run, hz, (middle_other st).run_plain hp, hk]
  rfl

theorem Step.space (hz : Chars z) (hscan : scan c z = .token .ws z) :
    Step st (c :: z) (.space, 1 + (z.takeWhile isspace).length) := by
  refine .inr ⟨rfl, ?_⟩
  rw [run_cons, hscan, Nat.add_comm, List.drop_succ_cons, run_spaces hz]
  dsimp only
  rw [trans_ws]
  rfl

theorem Step.line (h : byteAt z 0 = 45) :
    Step st (45 :: z) (.comment, 2 + ((z.drop 1).takeWhile (· ≠ 10)).length) := by
  have hz : z = 45 :: z.drop 1 := drop_of_byteAt h (by decide)
  have hscan : scan 45 z = match skipTo 10 z with
      | some rest => .token .ws rest
      | none => .atEnd := by
    unfold scan
    rw [if_neg (by decide), if_neg (by decide), if_neg (by decide), if_pos rfl, if_neg fun hne => hne h]
  refine .inr ⟨?_, ?_⟩
  · rw [Nat.add_comm]
    rfl
  · have hrun : run st (45 :: z) = match skipTo 10 (z.drop 1) with
        | some rest => run st rest
        | none => decide (st = .start) := by
      have hskip : skipTo 10 z = skipTo 10 (z.drop 1) := by
        rw [hz]
        rfl
      rw [run_cons, hscan, hskip]
      cases skipTo 10 (z.drop 1) with
      | none => rfl
      | some rest =>
        dsimp only
        rw [trans_ws]
    rw [hrun, run_line, hz, Nat.add_comm]
    rfl

theorem Step.minus (h : byteAt z 0 ≠ 45) : Step st (45 :: z) (.minus, 1) := by
  have hscan : scan 45 z = .token .other z := by
    unfold scan
    rw [if_neg (by decide), if_neg (by decide), if_neg (by decide), if_pos rfl, if_pos h]
  refine .inr ⟨rfl, ?_⟩
  rw [run_cons, hscan]
  rfl

theorem Step.slash (h : byteAt z 0 ≠ 42 ∨ byteAt z 1 = 0) (hz : Chars z) :
    Step st (47 :: z) (.slash, 1) := by
  refine .inr ⟨rfl, ?_⟩
  rw [run_cons]
  unfold scan
  rw [if_neg (by decide), if_neg (by decide), if_pos rfl]
  by_cases hstar : byteAt z 0 = 42
  · -- the comment has no end, and the two bytes are tokens
    have hz1 : z = [42] := by
      have hz1 : z = 42 :: z.drop 1 := drop_of_byteAt hstar (by decide)
      have h0 := h.resolve_left fun hne => hne hstar
      rw [hz1] at h0 hz
      cases hd : z.drop 1 with
      | nil => rw [hz1, hd]
      | cons b y =>
        rw [hd] at h0 hz
        exact absurd h0 (hz b (by simp)).1
    rw [if_neg fun hne => hne hstar, hz1]
    have hfalse : run (trans st .other) [42] = false := by
      rw [(middle_other st).run_plain fun _ => rfl, run_nil]
      exact decide_eq_false (middle_other st).ne_start
    exact hfalse.symm
  · rw [if_pos hstar]
    rfl

theorem Step.comment (h : ¬ (byteAt z 0 ≠ 42 ∨ byteAt z 1 = 0)) :
    Step st (47 :: z) (.comment, 3 + commentLoop (byteAt z 1) (z.drop 2)) := by
  rw [not_or, not_not] at h
  obtain ⟨hstar, h1⟩ := h
  obtain ⟨b, y, rfl⟩ : ∃ b y, z = 42 :: b :: y :=
    ⟨_, _, (drop_of_byteAt (w := z) (i := 0) hstar (by decide)).trans
      (congrArg _ (drop_of_byteAt (w := z) (i := 1) rfl h1))⟩
  have hrun : run st (47 :: 42 :: b :: y) = match skipComment (b :: y) with
      | some rest => run st rest
      | none => false := by
    have hscan : scan 47 (42 :: b :: y) = match skipComment (b :: y) with
        | some rest => .token .ws rest
        | none => .incomplete := rfl
    rw [run_cons, hscan]
    cases skipComment (b :: y) with
    | none => rfl
    | some rest =>
      dsimp only
      rw [trans_ws]
  have hun : ∀ n, Unclosed (.comment, (47 :: 42 :: b :: y).take (3 + n)) =
      decide (skipComment (b :: y.take n) = none) := by
    intro n
    rw [Nat.add_comm]
    rfl
  have hdrop : ∀ n, (47 :: 42 :: b :: y).drop (3 + n) = y.drop n := by
    intro n
    rw [Nat.add_comm]
    rfl
  change Step st _ (.comment, 3 + commentLoop b y)
  unfold Step
  rw [hun, hdrop, hrun, decide_eq_true_iff, decide_eq_false_iff_not, skipComment_take]
  rcases skipComment_eq y b with hsome | ⟨hnone, hrest⟩
  · rw [hsome]
    exact .inr ⟨nofun, rfl⟩
  · rw [hnone]
    exact .inl ⟨rfl, rfl, hrest⟩

theorem Step.bracket : Step st (91 :: z) (.id, 1 + bracketLoop 91 z) := by
  obtain ⟨hrest, htake⟩ := skipTo_bracket z 91 (by decide)
  have hscan : scan 91 z = match skipTo 93 z with
      | some rest => .token .other rest
      | none => .incomplete := rfl
  rw [Nat.add_comm]
  unfold Step
  rw [List.take_succ_cons, List.drop_succ_cons, run_cons, hscan]
  change (decide (_ = none) = true ∧ _) ∨ (decide (_ = none) = false ∧ _)
  rw [decide_eq_true_iff, decide_eq_false_iff_not, htake]
  rcases hrest with hsome | ⟨hnone, hdrop⟩
  · rw [hsome]
    exact .inr ⟨nofun, rfl⟩
  · rw [hnone]
    exact .inl ⟨rfl, rfl, hdrop⟩

theorem Step.string (hc : c = 34 ∨ c = 39) : Step st (c :: z) (.string, 1 + stringLoop c z) := by
  obtain ⟨hclosed, hopen⟩ := (middle_other st).run_string hc z
  have hscan : scan c z = match skipTo c z with
      | some rest => .token .other rest
      | none => .incomplete := by
    rcases hc with rfl | rfl <;> rfl
  rw [Nat.add_comm]
  unfold Step
  rw [List.take_succ_cons, List.drop_succ_cons, run_cons, hscan]
  change ((!stringClosed c (z.take _)) = true ∧ _) ∨ ((!stringClosed c (z.take _)) = false ∧ _)
  rw [stringClosed_take]
  cases hcl : stringClosed c z with
  | true =>
    obtain ⟨rest, hrest, heq⟩ := hclosed hcl
    rw [hrest]
    exact .inr ⟨rfl, heq⟩
  | false =>
    obtain ⟨hfalse, hdrop⟩ := hopen hcl
    refine .inl ⟨rfl, ?_, hdrop⟩
    cases hsk : skipTo c z with
    | none => rfl
    | some rest => exact hfalse rest hsk

theorem Step.oneByte {tk : Tk} (h : oneByte c = some tk) : Step st (c :: z) (tk, 1) := by
  by_cases hsemi : c = 59
  · subst hsemi
    cases h
    refine .inr ⟨rfl, ?_⟩
    rw [run_cons]
    rfl
  · have hc : Plain c ∧ kind tk = some .other ∧ Unclosed (tk, [c]) = false := by
      unfold Parse.oneByte at h
      split at h
      case h_3 => exact absurd rfl hsemi
      case h_12 => cases h
      all_goals
        cases h
        exact ⟨fun _ => rfl, rfl, rfl⟩
    exact Step.one hc.1 hc.2.1 hc.2.2

/-- The words that begin with a digit are no keywords. -/
theorem wordToken_digit (hc : isdigit c = true) (w : Bytes) : wordToken (c :: w) = .other := by
  unfold wordToken
  dsimp only
  rw [List.head?_cons]
  split
  case h_7 => rfl
  all_goals
    rename_i h
    rw [Option.some.inj h] at hc
    cases hc

theorem Step.number (hc : isdigit c = true) : Step st (c :: z) (getNumber (c :: z)) := by
  obtain ⟨hrun, htk, -⟩ := (middle_other st).run_number (w := c :: z)
  have hword : run st (c :: z) = run (trans st .other) z := by
    have hid := idChar_of_isdigit hc
    rw [← (middle_other st).run_idChar hid, run_cons, run_cons, scan_idChar hid, wordToken_digit hc]
    dsimp only
    rw [(middle_other st).trans (by decide)]
  refine .inr ⟨?_, ?_⟩
  · rcases htk with h | h <;> rw [h] <;> rfl
  · have hnext : next st (getNumber (c :: z)).1 = trans st .other := by
      rcases htk with h | h <;> rw [h] <;> rfl
    rw [hnext, hrun, hword]
    rfl

/-- A keyword is no string and no comment. -/
theorem unclosed_word (hc : idChar c = true) {w : Bytes} {tk : Tk}
    (h : ∃ n, tk = getKeywordCode w n) (y : Bytes) :
    Unclosed (tk, c :: y) = false := by
  have htable : ∀ p ∈ sqlTokensTable, p.2 ≠ .string ∧ p.2 ≠ .comment := by decide +kernel
  have htk : tk ≠ .string ∧ tk ≠ .comment := by
    obtain ⟨n, rfl⟩ := h
    unfold getKeywordCode
    dsimp only
    split
    · rename_i p hp
      exact htable p (List.mem_reverse.1 (List.mem_filter.1 (List.mem_of_find?_eq_some hp)).1)
    · exact ⟨nofun, nofun⟩
  have hbr : c ≠ 91 := by
    rintro rfl
    exact absurd hc (by decide)
  unfold Unclosed
  split
  · exact absurd (congrArg Prod.fst ‹(_, _) = _›) htk.1
  · cases ‹(_, _) = _›
    exact absurd rfl hbr
  · exact absurd (congrArg Prod.fst ‹(_, _) = _›) htk.2
  · rfl

theorem Step.word (hc : idChar c = true) (hz : Chars (c :: z)) :
    Step st (c :: z) (getKeywordCode (c :: z) (1 + (z.takeWhile fun c => 128 ≤ c || idChar c).length),
      1 + (z.takeWhile fun c => 128 ≤ c || idChar c).length) := by
  have hchars : (z.takeWhile fun c => 128 ≤ c || idChar c) = z.takeWhile idChar := by
    have hz' : ∀ b ∈ z, (128 ≤ b || idChar b) = idChar b := by
      intro b hb
      have hlt := (hz b (List.mem_cons_of_mem _ hb)).2.1
      rw [decide_eq_false (UInt8.not_le.2 hlt), Bool.false_or]
    clear hz
    induction z with
    | nil => rfl
    | cons b y ih =>
      rw [List.takeWhile_cons, List.takeWhile_cons, hz' b (List.mem_cons_self ..),
        ih fun b hb => hz' b (List.mem_cons_of_mem _ hb)]
  rw [hchars, Nat.add_comm]
  have hle : (z.takeWhile idChar).length + 1 ≤ (c :: z).length := by
    have := (List.takeWhile_prefix idChar (l := z)).length_le
    rw [List.length_cons]
    omega
  have htake : (c :: z).take ((z.takeWhile idChar).length + 1) = c :: z.takeWhile idChar := by
    rw [List.take_succ_cons]
    exact congrArg _ (List.prefix_iff_eq_take.1 (List.takeWhile_prefix idChar)).symm
  have hdrop : (c :: z).drop ((z.takeWhile idChar).length + 1) = z.dropWhile idChar := by
    rw [List.drop_succ_cons]
    nth_rewrite 2 [← List.takeWhile_append_dropWhile (p := idChar) (l := z)]
    exact List.drop_left
  have h0 : 0 ∉ c :: z.takeWhile idChar := by
    rw [← htake]
    exact fun hmem => (hz 0 (List.mem_of_mem_take hmem)).1 rfl
  refine .inr ⟨?_, ?_⟩
  · dsimp only
    rw [htake]
    exact unclosed_word hc ⟨_, rfl⟩ _
  · unfold next
    rw [kind_getKeywordCode hle (by rw [htake]; exact h0), htake, hdrop, run_cons, scan_idChar hc,
      wordToken_eq h0]
    rfl

end

/-- `run` and `__get_token` agree on a token. -/
theorem step_getToken (st : State) {c : UInt8} {z : Bytes} (hz : Chars (c :: z))
    (hlegal : (getToken (c :: z)).1 ≠ .illegal) : Step st (c :: z) (getToken (c :: z)) := by
  have hz' : Chars z := fun b hb => hz b (List.mem_cons_of_mem _ hb)
  have h0 : byteAt (c :: z) 0 = c := rfl
  have h1 : byteAt (c :: z) 1 = byteAt z 0 := rfl
  have h2 : byteAt (c :: z) 2 = byteAt z 1 := rfl
  suffices h : ∀ P : Tk × Nat → Prop, (∀ t, Step st (c :: z) t → P t) → (∀ n, P (.illegal, n)) →
      P (getToken (c :: z)) from
    h (fun t => t.1 ≠ .illegal → Step st (c :: z) t) (fun _ h _ => h) (fun _ h => absurd rfl h) hlegal
  intro P hstep hillegal
  unfold getToken
  rw [h0, h1, h2]
  dsimp only [List.drop_succ_cons, List.drop_zero]
  refine iteInduction (fun hspace => ?_) fun _ => iteInduction (fun hminus => ?_) fun _ =>
    iteInduction (fun hslash => ?_) fun _ => iteInduction (fun heq => ?_) fun _ =>
    iteInduction (fun hlt => ?_) fun _ => iteInduction (fun hgt => ?_) fun _ =>
    iteInduction (fun hbang => ?_) fun _ => iteInduction (fun hbar => ?_) fun _ =>
    iteInduction (fun hquote => ?_) fun _ => iteInduction (fun hdigit => ?_) fun _ =>
    iteInduction (fun hbracket => ?_) fun _ => ?_
  · refine hstep _ (Step.space hz' ?_)
    rcases hspace with rfl | rfl | rfl | rfl | rfl <;> rfl
  · subst hminus
    exact iteInduction (fun h => hstep _ (Step.line h)) fun h => hstep _ (Step.minus h)
  · subst hslash
    exact iteInduction (fun h => hstep _ (Step.slash h hz')) fun h => hstep _ (Step.comment h)
  · subst heq
    split
    · exact hstep _ (Step.two plain_eq ‹_› (by decide) plain_eq rfl fun _ => rfl)
    · exact hstep _ (Step.one plain_eq rfl rfl)
  · subst hlt
    exact iteInduction (fun h => hstep _ (Step.two plain_lt h (by decide) plain_eq rfl fun _ =>
      rfl)) fun _ =>
      iteInduction (fun h => hstep _ (Step.two plain_lt h (by decide) plain_gt rfl fun _ => rfl)) fun _ =>
      iteInduction (fun h => hstep _ (Step.two plain_lt h (by decide) plain_lt rfl fun _ => rfl)) fun _ =>
      hstep _ (Step.one plain_lt rfl rfl)
  · subst hgt
    exact iteInduction (fun h => hstep _ (Step.two plain_gt h (by decide) plain_eq rfl fun _ =>
      rfl)) fun _ =>
      iteInduction (fun h => hstep _ (Step.two plain_gt h (by decide) plain_gt rfl fun _ => rfl)) fun _ =>
      hstep _ (Step.one plain_gt rfl rfl)
  · subst hbang
    exact iteInduction (fun _ => hillegal _) fun h =>
      hstep _ (Step.two plain_bang (not_not.1 h) (by decide) plain_eq rfl fun _ => rfl)
  · subst hbar
    exact iteInduction (fun _ => hstep _ (Step.one plain_bar rfl rfl)) fun h =>
      hstep _ (Step.two plain_bar (not_not.1 h) (by decide) plain_bar rfl fun _ => rfl)
  · exact hstep _ (Step.string hquote.symm)
  · exact hstep _ (Step.number hdigit)
  · subst hbracket
    exact hstep _ Step.bracket
  cases hone : oneByte c with
  | some tk => exact hstep _ (Step.oneByte hone)
  | none =>
    refine iteInduction (fun _ => hillegal _) fun hid => hstep _ (Step.word ?_ hz)
    by_contra hno
    exact hid ⟨(hz c (List.mem_cons_self ..)).2.1, hno⟩

/-! ## All the tokens -/

/-- A token has a byte at least. -/
theorem getToken_pos (w : Bytes) : 1 ≤ (getToken w).2 := by
  suffices h : ∀ P : Tk × Nat → Prop, (∀ tk n, 1 ≤ n → P (tk, n)) → P (getNumber w) → P (getToken w) from
    h (fun t => 1 ≤ t.2) (fun _ _ h => h) (Middle.run_number (.inl (Eq.refl State.normal))).2.2
  intro P hP hnumber
  unfold getToken
  dsimp only
  repeat' refine iteInduction (fun _ => ?_) fun _ => ?_
  all_goals first
    | exact hnumber
    | (cases oneByte (byteAt w 0) with
      | some tk => exact hP _ _ (le_refl 1)
      | none => exact iteInduction (fun _ => hP _ _ (le_refl 1)) fun _ => hP _ _ (by omega))
    | (refine hP _ _ ?_; split <;> omega)
    | (refine hP _ _ ?_; omega)

theorem tokensLoop_cons (fuel : Nat) (c : UInt8) (z : Bytes) : tokensLoop (fuel + 1) (c :: z) =
    ((getToken (c :: z)).1, (c :: z).take (getToken (c :: z)).2) ::
      tokensLoop fuel ((c :: z).drop (getToken (c :: z)).2) := rfl

theorem tokensLoop_fuel (fuel : Nat) : ∀ {z : Bytes}, z.length ≤ fuel → tokensLoop fuel z = tokens z := by
  induction fuel using Nat.strong_induction_on with
  | _ fuel ih =>
    intro z hle
    cases z with
    | nil => cases fuel <;> rfl
    | cons c z =>
      cases fuel with
      | zero => simp at hle
      | succ fuel =>
        have hpos := getToken_pos (c :: z)
        have hlen : ((c :: z).drop (getToken (c :: z)).2).length ≤ z.length := by
          rw [List.length_drop, List.length_cons]
          omega
        rw [List.length_cons] at hle
        unfold tokens
        rw [List.length_cons, tokensLoop_cons, tokensLoop_cons, ih fuel (by omega) (by omega),
          ih z.length (by omega) hlen]

theorem tokens_nil : tokens [] = [] := rfl

theorem tokens_cons (c : UInt8) (z : Bytes) : tokens (c :: z) =
    ((getToken (c :: z)).1, (c :: z).take (getToken (c :: z)).2) ::
      tokens ((c :: z).drop (getToken (c :: z)).2) := by
  have hpos := getToken_pos (c :: z)
  have hlen : ((c :: z).drop (getToken (c :: z)).2).length ≤ z.length := by
    rw [List.length_drop, List.length_cons]
    omega
  rw [← tokensLoop_fuel z.length hlen, ← tokensLoop_cons]
  rfl

theorem tokens_ne_nil {z : Bytes} (h : z ≠ []) : tokens z ≠ [] := by
  cases z with
  | nil => exact absurd rfl h
  | cons c z =>
    rw [tokens_cons]
    exact nofun

/-- The scan of the bytes is the automaton on the tokens. -/
theorem run_eq {sql : Bytes} (hc : Chars sql) (hl : Legal sql) (st : State) :
    run st sql = true ↔ (kinds sql).foldl trans st = .start ∧ ¬ EndsInside sql := by
  induction hlen : sql.length using Nat.strong_induction_on generalizing sql st with
  | _ len ih =>
    subst hlen
    cases sql with
    | nil =>
      rw [run_nil, decide_eq_true_iff]
      refine ⟨fun h => ⟨h, fun hend => ?_⟩, And.left⟩
      obtain ⟨t, ht, -⟩ := hend
      cases ht
    | cons c z =>
      have hpos := getToken_pos (c :: z)
      have htokens := tokens_cons c z
      have hstep := step_getToken st hc (hl _ (htokens ▸ List.mem_cons_self ..))
      have hrest := ih ((c :: z).drop (getToken (c :: z)).2).length
        (by rw [List.length_drop, List.length_cons]; omega)
        (fun b hb => hc b (List.mem_of_mem_drop hb))
        (fun t ht => hl t (htokens ▸ List.mem_cons_of_mem _ ht)) (next st (getToken (c :: z)).1) rfl
      have hkinds : (kinds (c :: z)).foldl trans st =
          (kinds ((c :: z).drop (getToken (c :: z)).2)).foldl trans (next st (getToken (c :: z)).1) := by
        unfold kinds next
        rw [htokens, List.filterMap_cons]
        dsimp only
        cases kind (getToken (c :: z)).1 <;> rfl
      generalize getToken (c :: z) = t at *
      rcases hstep with ⟨hu, hrun, hdrop⟩ | ⟨hu, hrun⟩
      · -- the last token has no end
        have hinside : EndsInside (c :: z) := by
          refine ⟨_, ?_, hu⟩
          rw [htokens, hdrop, tokens_nil]
          rfl
        rw [hrun]
        exact ⟨fun h => (by cases h), fun h => absurd hinside h.2⟩
      · have hinside : EndsInside (c :: z) ↔ EndsInside ((c :: z).drop t.2) := by
          unfold EndsInside
          rw [htokens]
          by_cases hnil : (c :: z).drop t.2 = []
          · rw [hnil, tokens_nil, List.getLast?_singleton]
            constructor
            · rintro ⟨_, ht, hu'⟩
              rw [← Option.some.inj ht, hu] at hu'
              cases hu'
            · rintro ⟨_, ht, -⟩
              cases ht
          · obtain ⟨t', ts, heq⟩ := List.exists_cons_of_ne_nil (tokens_ne_nil hnil)
            rw [heq, List.getLast?_cons_cons]
        rw [hrun, hrest, hkinds, hinside]

/-! ## The body of a trigger -/

/-- The state at the end of the body of a trigger that is still open. -/
def bodyState (body : List Token) : State :=
  if [.semi, .end_] <:+ body then .end_ else if [.semi] <:+ body then .semi else .trigger

/-- The body has no `; END ;`. -/
def Open (body : List Token) : Prop := ¬ [.semi, .end_, .semi] <:+: body

theorem open_nil : Open [] := fun h => nomatch List.infix_nil.1 h

theorem concat_suffix_concat (xs body : List Token) (b t : Token) :
    xs ++ [b] <:+ body ++ [t] ↔ b = t ∧ xs <:+ body := by
  rw [List.suffix_concat_iff]
  constructor
  · rintro (h | ⟨ys, h, hys⟩)
    · exact absurd h (List.concat_ne_nil b xs)
    · obtain ⟨rfl, hb⟩ := List.append_inj' h rfl
      exact ⟨List.cons.inj hb |>.1, hys⟩
  · rintro ⟨rfl, h⟩
    exact .inr ⟨xs, rfl, h⟩

theorem suffix_semi {body : List Token} {t : Token} : [.semi] <:+ body ++ [t] ↔ t = .semi := by
  have h := concat_suffix_concat [] body .semi t
  exact h.trans ⟨fun h => h.1.symm, fun h => ⟨h.symm, List.nil_suffix⟩⟩

theorem suffix_end {body : List Token} {t : Token} :
    [.semi, .end_] <:+ body ++ [t] ↔ t = .end_ ∧ [.semi] <:+ body := by
  have h := concat_suffix_concat [.semi] body .end_ t
  exact h.trans (and_congr_left fun _ => eq_comm)

theorem bodyState_eq_end {body : List Token} : bodyState body = .end_ ↔ [.semi, .end_] <:+ body := by
  unfold bodyState
  split_ifs with h1 h2
  · exact ⟨fun _ => h1, fun _ => rfl⟩
  · exact ⟨nofun, fun h => absurd h h1⟩
  · exact ⟨nofun, fun h => absurd h h1⟩

theorem open_concat {body : List Token} {t : Token} :
    Open (body ++ [t]) ↔ Open body ∧ ¬ (t = .semi ∧ bodyState body = .end_) := by
  have h := concat_suffix_concat [.semi, .end_] body .semi t
  unfold Open
  rw [List.infix_concat_iff, not_or, and_comm, bodyState_eq_end]
  exact and_congr_right fun _ => not_congr (h.trans (and_congr_left fun _ => eq_comm))

theorem trans_bodyState {body : List Token} {t : Token} (ht : t ≠ .ws) (ho : Open (body ++ [t])) :
    trans (bodyState body) t = bodyState (body ++ [t]) := by
  have hno := (open_concat.1 ho).2
  rw [bodyState_eq_end] at hno
  unfold bodyState
  rw [if_congr suffix_end rfl (if_congr suffix_semi rfl rfl)]
  by_cases hend : [.semi, .end_] <:+ body
  · -- the last token of the body is END
    have hsemi : ¬ [.semi] <:+ body := by
      intro h
      rcases List.eq_nil_or_concat' body with rfl | ⟨body', b, rfl⟩
      · cases List.suffix_nil.1 h
      · rw [suffix_semi] at h
        rw [suffix_end, h] at hend
        cases hend.1
    rw [if_pos hend, if_neg fun h => hsemi h.2, if_neg fun h => hno ⟨h, hend⟩]
    cases t <;> first | rfl | exact absurd ⟨rfl, hend⟩ hno | exact absurd rfl ht
  · rw [if_neg hend]
    by_cases hsemi : [.semi] <:+ body
    · rw [if_pos hsemi]
      cases t <;> first | exact absurd rfl ht | simp [hsemi, trans, row]
    · rw [if_neg hsemi]
      cases t <;> first | exact absurd rfl ht | simp [hsemi, trans, row]

/-- The automaton on the body of a trigger. -/
theorem foldl_body {body : List Token} (hws : .ws ∉ body) (ho : Open body) :
    body.foldl trans .trigger = bodyState body := by
  induction body using List.reverseRecOn with
  | nil => rfl
  | append_singleton body t ih =>
    rw [List.mem_append, not_or, List.mem_singleton] at hws
    rw [List.foldl_append, ih hws.1 (open_concat.1 ho).1]
    exact trans_bodyState (fun h => hws.2 h.symm) ho

/-! ## The tokens read so far -/

/-- None of two lists is the beginning of the other. -/
def Mismatch (xs ys : List Token) : Prop := ¬ xs <+: ys ∧ ¬ ys <+: xs

/-- No trigger begins so, whatever comes. -/
def Dead (ts : List Token) : Prop := ∀ pre, BeginsTrigger pre → Mismatch pre ts

/-- What a state says of the tokens after the last complete statement. -/
def Pending (st : State) (ts : List Token) : Prop :=
  match st with
  | .start => ts = []
  | .explain => ts = [.explain]
  | .create => ∃ n, ts = .create :: List.replicate n .temp ∨
      ts = .explain :: .create :: List.replicate n .temp
  | .normal => .semi ∉ ts ∧ Dead ts
  | st => ∃ pre body, ts = pre ++ body ∧ BeginsTrigger pre ∧ Open body ∧ bodyState body = st

theorem mismatch_head {a b : Token} (h : a ≠ b) (xs ys : List Token) : Mismatch (a :: xs) (b :: ys) :=
  ⟨fun hp => h (List.cons_prefix_cons.1 hp).1, fun hp => h (List.cons_prefix_cons.1 hp).1.symm⟩

theorem Mismatch.cons {xs ys : List Token} (h : Mismatch xs ys) (a : Token) :
    Mismatch (a :: xs) (a :: ys) :=
  ⟨fun hp => h.1 (List.cons_prefix_cons.1 hp).2, fun hp => h.2 (List.cons_prefix_cons.1 hp).2⟩

theorem Dead.concat {ts : List Token} (h : Dead ts) (t : Token) : Dead (ts ++ [t]) := by
  intro pre hpre
  obtain ⟨h1, h2⟩ := h pre hpre
  constructor
  · intro hp
    rcases List.prefix_concat_iff.1 hp with rfl | hp
    · exact h2 (List.prefix_append ..)
    · exact h1 hp
  · exact fun hp => h2 ((List.prefix_append ..).trans hp)

/-- A trigger does not begin with any other token. -/
theorem dead_single {t : Token} (h1 : t ≠ .create) (h2 : t ≠ .explain) : Dead [t] := by
  rintro pre ⟨n, rfl | rfl⟩
  · exact mismatch_head h1.symm _ _
  · exact mismatch_head h2.symm _ _

theorem dead_explain {t : Token} (h : t ≠ .create) : Dead [.explain, t] := by
  rintro pre ⟨n, rfl | rfl⟩
  · exact mismatch_head (by decide) _ _
  · exact (mismatch_head h.symm _ _).cons _

theorem temps_mismatch {t : Token} (h1 : t ≠ .temp) (h2 : t ≠ .trigger) (n : Nat) : ∀ m,
    Mismatch (List.replicate m Token.temp ++ [.trigger]) (List.replicate n Token.temp ++ [t]) := by
  induction n with
  | zero =>
    intro m
    cases m with
    | zero => exact mismatch_head h2.symm _ _
    | succ m => exact mismatch_head h1.symm _ _
  | succ n ih =>
    intro m
    cases m with
    | zero => exact mismatch_head (by decide) _ _
    | succ m => exact (ih m).cons _

theorem dead_create {t : Token} (h1 : t ≠ .temp) (h2 : t ≠ .trigger) (n : Nat) :
    Dead (Token.create :: List.replicate n .temp ++ [t]) ∧
      Dead (Token.explain :: .create :: List.replicate n .temp ++ [t]) := by
  constructor
  · rintro pre ⟨m, rfl | rfl⟩
    · exact (temps_mismatch h1 h2 n m).cons _
    · exact mismatch_head (by decide) _ _
  · rintro pre ⟨m, rfl | rfl⟩
    · exact mismatch_head (by decide) _ _
    · exact ((temps_mismatch h1 h2 n m).cons _).cons _

theorem BeginsTrigger.mem {pre : List Token} (h : BeginsTrigger pre) : .trigger ∈ pre ∧ .semi ∉ pre := by
  obtain ⟨n, rfl | rfl⟩ := h <;> simp [List.mem_replicate]

/-- A semicolon ends a statement, or begins the end of a trigger. -/
theorem statement_of_not_trigger {ts : List Token} (hs : .semi ∉ ts) (ht : .trigger ∉ ts) :
    Statement BeginsTrigger (ts ++ [.semi]) := by
  refine .plain hs fun pre post heq hpre => ht ?_
  rw [heq]
  exact List.mem_append_left _ hpre.mem.1

theorem pending_body {st : State} {ts : List Token} (hst : st = .trigger ∨ st = .semi ∨ st = .end_) :
    Pending st ts ↔ ∃ pre body, ts = pre ++ body ∧ BeginsTrigger pre ∧ Open body ∧ bodyState body =
      st := by
  rcases hst with rfl | rfl | rfl <;> exact Iff.rfl

/-- A token more. -/
theorem Pending.step {st : State} {ts : List Token} {t : Token} (h : Pending st ts) (ht : t ≠ .ws) :
    Pending (Parse.trans st t) (ts ++ [t]) ∨
      Parse.trans st t = .start ∧ Statement BeginsTrigger (ts ++ [t]) := by
  have hbody : st = .trigger ∨ st = .semi ∨ st = .end_ → Pending (Parse.trans st t) (ts ++ [t]) ∨
      Parse.trans st t = .start ∧ Statement BeginsTrigger (ts ++ [t]) := by
    intro hst
    obtain ⟨pre, body, rfl, hpre, ho, rfl⟩ := (pending_body hst).1 h
    by_cases hend : t = .semi ∧ bodyState body = .end_
    · right
      obtain ⟨rfl, hend⟩ := hend
      obtain ⟨body', rfl⟩ := bodyState_eq_end.1 hend
      refine ⟨by rw [hend]; rfl, ?_⟩
      have hstmt := Statement.trigger hpre ho
      rw [List.append_assoc] at hstmt
      rw [List.append_assoc, List.append_assoc]
      exact hstmt
    · left
      have ho' := open_concat.2 ⟨ho, hend⟩
      have htrans := trans_bodyState ht ho'
      rw [htrans, pending_body]
      · exact ⟨pre, body ++ [t], List.append_assoc .., hpre, ho', rfl⟩
      · unfold bodyState
        split_ifs
        · exact .inr (.inr rfl)
        · exact .inr (.inl rfl)
        · exact .inl rfl
  cases st with
  | start =>
    obtain rfl : ts = [] := h
    cases t with
    | explain => exact .inl rfl
    | create => exact .inl ⟨0, .inl rfl⟩
    | semi => exact .inr ⟨rfl, statement_of_not_trigger nofun nofun⟩
    | ws => exact absurd rfl ht
    | temp | trigger | end_ | other => exact .inl ⟨by decide, dead_single nofun nofun⟩
  | explain =>
    obtain rfl : ts = [.explain] := h
    cases t with
    | create => exact .inl ⟨0, .inr rfl⟩
    | semi => exact .inr ⟨rfl, statement_of_not_trigger (by decide) (by decide)⟩
    | ws => exact absurd rfl ht
    | explain | temp | trigger | end_ | other => exact .inl ⟨by decide, dead_explain nofun⟩
  | create =>
    obtain ⟨n, hts⟩ := h
    have hmem : ∀ {a : Token}, a ≠ .explain → a ≠ .create → a ≠ .temp → a ∉ ts := by
      intro a h1 h2 h3
      rcases hts with rfl | rfl <;> simp [List.mem_replicate, h1, h2, h3]
    have hnormal : t ≠ .temp → t ≠ .trigger → t ≠ .semi → .semi ∉ ts ++ [t] ∧ Dead (ts ++ [t]) := by
      intro h1 h2 h3
      refine ⟨fun hs => ?_, ?_⟩
      · rcases List.mem_append.1 hs with hs | hs
        · exact hmem (by decide) (by decide) (by decide) hs
        · exact h3 (List.mem_singleton.1 hs).symm
      · rcases hts with rfl | rfl
        · exact (dead_create h1 h2 n).1
        · exact (dead_create h1 h2 n).2
    cases t with
    | temp =>
      refine .inl ⟨n + 1, ?_⟩
      rcases hts with rfl | rfl <;> simp [List.replicate_succ']
    | trigger =>
      refine .inl ⟨ts ++ [.trigger], [], (List.append_nil _).symm, ⟨n, ?_⟩, open_nil, rfl⟩
      rcases hts with rfl | rfl
      · exact .inl rfl
      · exact .inr rfl
    | semi =>
      exact .inr ⟨rfl, statement_of_not_trigger (hmem (by decide) (by decide) (by decide))
        (hmem (by decide) (by decide) (by decide))⟩
    | ws => exact absurd rfl ht
    | explain | create | end_ | other => exact .inl (hnormal nofun nofun nofun)
  | normal =>
    obtain ⟨hs, hdead⟩ := h
    by_cases hsemi : t = .semi
    · subst hsemi
      refine .inr ⟨rfl, .plain hs fun pre post heq hpre => (hdead pre hpre).1 ?_⟩
      rw [heq]
      exact List.prefix_append ..
    · rw [Middle.trans (.inl rfl) hsemi]
      refine .inl ⟨fun hmem => ?_, hdead.concat t⟩
      rcases List.mem_append.1 hmem with hmem | hmem
      · exact hs hmem
      · exact hsemi (List.mem_singleton.1 hmem).symm
  | trigger => exact hbody (.inl rfl)
  | semi => exact hbody (.inr (.inl rfl))
  | end_ => exact hbody (.inr (.inr rfl))

/-- The tokens read are complete statements and what the state says of the rest. -/
theorem pending_foldl {ts : List Token} (hws : .ws ∉ ts) : ∃ ss h, ts = List.flatten ss ++ h ∧
    (∀ s ∈ ss, Statement BeginsTrigger s) ∧ Pending (ts.foldl trans .start) h := by
  induction ts using List.reverseRecOn with
  | nil => exact ⟨[], [], rfl, nofun, rfl⟩
  | append_singleton ts t ih =>
    rw [List.mem_append, not_or, List.mem_singleton] at hws
    obtain ⟨ss, h, heq, hss, hp⟩ := ih hws.1
    rw [List.foldl_append]
    rcases hp.step (t := t) (fun h => hws.2 h.symm) with hp' | ⟨hstart, hstmt⟩
    · refine ⟨ss, h ++ [t], ?_, hss, hp'⟩
      rw [← List.append_assoc, ← heq]
    · refine ⟨ss ++ [h ++ [t]], [], ?_, ?_, ?_⟩
      · rw [List.flatten_concat, ← List.append_assoc, ← heq, List.append_nil]
      · intro s hs
        rcases List.mem_append.1 hs with hs | hs
        · exact hss s hs
        · rwa [List.mem_singleton.1 hs]
      · change Pending (trans _ t) []
        rw [hstart]
        rfl

theorem Statement.semi_mem {trigger : List Token → Prop} {s : List Token} (h : Statement trigger s) :
    .semi ∈ s := by
  cases h with
  | plain => simp
  | trigger => simp

theorem foldl_replicate_temp (n : Nat) : (List.replicate n .temp).foldl trans .create = .create := by
  induction n with
  | zero => rfl
  | succ n ih => exact ih

theorem BeginsTrigger.foldl {pre : List Token} (h : BeginsTrigger pre) :
    pre.foldl Parse.trans .start = .trigger := by
  obtain ⟨n, rfl | rfl⟩ := h
  · rw [List.foldl_append]
    change [Token.trigger].foldl Parse.trans ((List.replicate n Token.temp).foldl Parse.trans .create) = _
    rw [foldl_replicate_temp]
    rfl
  · rw [List.foldl_append]
    change [Token.trigger].foldl Parse.trans ((List.replicate n Token.temp).foldl Parse.trans .create) = _
    rw [foldl_replicate_temp]
    rfl

/-- The automaton is back at the start after a statement. -/
theorem Statement.foldl {s : List Token} (h : Statement BeginsTrigger s) (hws : .ws ∉ s) :
    s.foldl Parse.trans .start = .start := by
  cases h with
  | @plain ts hs htr =>
    obtain ⟨ss, h, heq, hss, hp⟩ := pending_foldl fun hmem => hws (List.mem_append_left [.semi] hmem)
    have hnil : ss = [] := by
      cases ss with
      | nil => rfl
      | cons s ss =>
        refine absurd ?_ hs
        rw [heq, List.flatten_cons]
        exact List.mem_append_left _ (List.mem_append_left _ (hss s (List.mem_cons_self ..)).semi_mem)
    obtain rfl : ts = h := by rw [heq, hnil]; rfl
    rw [List.foldl_append]
    change Parse.trans (ts.foldl Parse.trans .start) .semi = .start
    have hbody : ∀ {st}, st = .trigger ∨ st = .semi ∨ st = .end_ → ¬ Pending st ts := by
      intro st hst hp
      obtain ⟨pre, body, rfl, hpre, -, -⟩ := (pending_body hst).1 hp
      exact htr pre body rfl hpre
    cases hst : ts.foldl Parse.trans .start with
    | start | explain | create | normal => rfl
    | trigger => exact absurd (hst ▸ hp) (hbody (.inl rfl))
    | semi => exact absurd (hst ▸ hp) (hbody (.inr (.inl rfl)))
    | end_ => exact absurd (hst ▸ hp) (hbody (.inr (.inr rfl)))
  | @trigger pre ts hpre ho =>
    have hws' : .ws ∉ ts ++ [.semi, .end_] := by
      intro hmem
      apply hws
      simp only [List.mem_append] at hmem ⊢
      rcases hmem with hmem | hmem
      · exact .inl (.inr hmem)
      · simp at hmem
    have hend : (ts ++ [Token.semi, .end_]).foldl Parse.trans .trigger = .end_ := by
      rw [foldl_body hws' ho, bodyState_eq_end]
      exact List.suffix_append ..
    have hsplit : pre ++ ts ++ [.semi, .end_, .semi] = pre ++ ((ts ++ [.semi, .end_]) ++ [.semi]) := by
      simp
    rw [hsplit, List.foldl_append, hpre.foldl, List.foldl_append, hend]
    rfl

/-- The automaton ends at the start exactly after complete statements. -/
theorem final_iff {ts : List Token} (hws : .ws ∉ ts) :
    ts.foldl trans .start = .start ↔ Complete BeginsTrigger ts := by
  constructor
  · intro hstart
    obtain ⟨ss, h, heq, hss, hp⟩ := pending_foldl hws
    rw [hstart] at hp
    refine ⟨ss, ?_, hss⟩
    rw [heq, show h = [] from hp, List.append_nil]
  · rintro ⟨ss, rfl, hss⟩
    induction ss with
    | nil => rfl
    | cons s ss ih =>
      rw [List.flatten_cons, List.mem_append, not_or] at hws
      rw [List.flatten_cons, List.foldl_append, (hss s (List.mem_cons_self ..)).foldl hws.1]
      exact ih (fun s hs => hss s (List.mem_cons_of_mem _ hs)) hws.2

theorem ws_not_mem_kinds (sql : Bytes) : .ws ∉ kinds sql := by
  unfold kinds
  rw [List.mem_filterMap]
  rintro ⟨⟨tk, _⟩, -, h⟩
  cases tk <;> cases h

/-- **Complete.** A string is complete exactly when its tokens are complete statements, one after
the other, and it does not end inside a token. -/
theorem completeStmt_iff {sql : Bytes} (hc : Chars sql) (hl : Legal sql) :
    completeStmt sql = true ↔ Complete BeginsTrigger (kinds sql) ∧ ¬ EndsInside sql := by
  rw [← final_iff (ws_not_mem_kinds sql)]
  exact run_eq hc hl .start

theorem completeStmt_explain : Complete BeginsTrigger
    (kinds (ascii "EXPLAIN CREATE TRIGGER t BEGIN SELECT ';'; END; --")) ∧
    ¬ EndsInside (ascii "EXPLAIN CREATE TRIGGER t BEGIN SELECT ';'; END; --") :=
  (completeStmt_iff (by unfold Chars; decide +kernel) (by unfold Legal; decide +kernel)).1
    (by decide +kernel)

/-- The beginning `CREATE [TEMP | TEMPORARY] TRIGGER`. -/
def BeginsOneTemp (ts : List Token) : Prop := ts = [.create, .trigger] ∨ ts = [.create, .temp, .trigger]

/-- With TEMP twice the automaton waits for END as well. -/
theorem completeStmt_temp_temp : ¬ ∀ sql, Chars sql → Legal sql →
    (completeStmt sql = true ↔ Complete BeginsOneTemp (kinds sql) ∧ ¬ EndsInside sql) := by
  intro h
  have htokens : tokens (ascii "CREATE TEMP TEMP TRIGGER a;") =
      [(.create, ascii "CREATE"), (.space, ascii " "), (.temp, ascii "TEMP"), (.space, ascii " "),
        (.temp, ascii "TEMP"), (.space, ascii " "), (.trigger, ascii "TRIGGER"), (.space, ascii " "),
        (.id, ascii "a"), (.semi, ascii ";")] := by decide +kernel
  have hkinds : kinds (ascii "CREATE TEMP TEMP TRIGGER a;") =
      [.create, .temp, .temp, .trigger, .other] ++ [.semi] := by
    rw [kinds, htokens]
    rfl
  have hlast : (tokens (ascii "CREATE TEMP TEMP TRIGGER a;")).getLast? = some (.semi, ascii ";") := by
    rw [htokens]
    rfl
  have hlegal : Legal (ascii "CREATE TEMP TEMP TRIGGER a;") := by
    unfold Legal
    rw [htokens]
    simp
  have hcomplete := (h (ascii "CREATE TEMP TEMP TRIGGER a;") (by unfold Chars; decide +kernel) hlegal).2
  have hfalse : completeStmt (ascii "CREATE TEMP TEMP TRIGGER a;") = false := by decide +kernel
  refine absurd (hcomplete ⟨⟨[_], (List.append_nil _).symm, ?_⟩, ?_⟩) (by rw [hfalse]; decide)
  · intro s hs
    rw [List.mem_singleton.1 hs, hkinds]
    refine .plain (by decide) fun pre post heq hpre => ?_
    rcases hpre with rfl | rfl
    · cases heq
    · cases heq
  · rintro ⟨t, ht, hu⟩
    rw [hlast] at ht
    cases ht
    cases hu

end Dbsql.L5.Parse
