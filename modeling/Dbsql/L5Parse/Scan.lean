import Dbsql.L5Parse.CompleteStmt
/-!
# The scan of `__run_sql_parser` (sql_tokenize.c:454-566)

The loop takes the tokens of a string one after the other, each from where the last one ended. It
ends with the string, at an illegal token, or when the parser fails or the application
interrupts it. The parser is an argument (`Engine`).

`__get_token` looks ahead by a byte or two and counts what it has seen, except after a `!`: that
and whatever is behind it are a token of two bytes. Behind the last byte is the terminating zero.

Results:
* `getToken_le_iff`: a token ends inside the string unless the string is `!`.
* `runSqlParser_consumes_iff`: so the loop does, unless it comes to a `!` at the end.
-/
namespace Dbsql.L5.Parse
open Dbsql.L1

/-! ## The loop -/

/-- How the loop ends. -/
inductive Stop
  | atEnd | interrupted | illegal | failed
  deriving DecidableEq, Repr

/-- The parser and the application, as the loop sees them after some tokens. -/
structure Engine where
  /-- `parser->rc != DBSQL_SUCCESS` -/
  fails : List (Tk × Nat) → Bool
  /-- `dbp->flags & DBSQL_Interrupt` -/
  interrupted : List (Tk × Nat) → Bool

/-- The `switch` on the last token of `ts`. -/
def Engine.stops (e : Engine) (tk : Tk) (ts : List (Tk × Nat)) : Option Stop :=
  match tk with
  | .space | .comment => if e.interrupted ts then some .interrupted else none
  | .illegal => some .illegal
  | _ => if e.fails ts then some .failed else none

/-- What the loop has done: how it ended, `i`, and the type and the length of each token. -/
structure Scanned where
  stop : Stop
  i : Nat
  ts : List (Tk × Nat)

/-- The loop of `__run_sql_parser`, at `sql[i]`. -/
def runLoop (e : Engine) (sql : Bytes) : Nat → Nat → List (Tk × Nat) → Scanned
  | 0, i, ts => ⟨.atEnd, i, ts⟩
  | fuel + 1, i, ts =>
    if byteAt sql i = 0 then ⟨.atEnd, i, ts⟩
    else
      let t := getToken (sql.drop i)
      let ts := ts ++ [t]
      match e.stops t.1 ts with
      | some stop => ⟨stop, i + t.2, ts⟩
      | none => runLoop e sql fuel (i + t.2) ts

/-- `__run_sql_parser`; a string has at most as many tokens as bytes. -/
def runSqlParser (e : Engine) (sql : Bytes) : Scanned := runLoop e sql sql.length 0 []

/-- The loop comes to `sql[i]` after the tokens `ts`. -/
inductive Comes (e : Engine) (sql : Bytes) : Nat → List (Tk × Nat) → Prop
  | start : Comes e sql 0 []
  | next {i : Nat} {ts : List (Tk × Nat)} : Comes e sql i ts → byteAt sql i ≠ 0 →
      e.stops (getToken (sql.drop i)).1 (ts ++ [getToken (sql.drop i)]) = none →
      Comes e sql (i + (getToken (sql.drop i)).2) (ts ++ [getToken (sql.drop i)])

/-- The texts of tokens of the given lengths. -/
def texts : List (Tk × Nat) → Bytes → List Bytes
  | [], _ => []
  | t :: ts, z => z.take t.2 :: texts ts (z.drop t.2)

/-- The tokens have a byte at least and end inside the string; one after the other they are what
has been read, and that is the whole string unless the loop has been stopped. -/
structure Consumes (sql : Bytes) (r : Scanned) : Prop where
  pos : ∀ t ∈ r.ts, 1 ≤ t.2
  inside : r.i ≤ sql.length
  sum : (r.ts.map Prod.snd).sum = r.i
  texts : (texts r.ts sql).flatten = sql.take r.i
  atEnd : r.stop = .atEnd → r.i = sql.length

/-! ## One token -/

theorem commentLoop_le (z : Bytes) : ∀ p, commentLoop p z ≤ z.length := by
  induction z with
  | nil => exact fun _ => Nat.le_refl 0
  | cons c z ih =>
    intro p
    rw [commentLoop, List.length_cons]
    split
    · omega
    · have := ih c
      omega

theorem stringLoop_le (d : UInt8) (z : Bytes) : stringLoop d z ≤ z.length := by
  induction z using stringLoop.induct d with
  | case1 => exact Nat.le_refl 0
  | case2 => exact Nat.le_refl 1
  | case3 z ih =>
    rw [stringLoop, if_pos rfl, if_pos rfl, List.length_cons, List.length_cons]
    omega
  | case4 c' z h =>
    rw [stringLoop, if_pos rfl, if_neg h, List.length_cons]
    omega
  | case5 c c' z h ih =>
    rw [stringLoop, if_neg h, List.length_cons]
    omega

theorem bracketLoop_le (z : Bytes) : ∀ p, bracketLoop p z ≤ z.length := by
  induction z with
  | nil => exact fun _ => Nat.le_refl 0
  | cons c z ih =>
    intro p
    rw [bracketLoop, List.length_cons]
    split
    · omega
    · have := ih c
      omega

theorem lt_length_of_byteAt {z : Bytes} {i : Nat} (h : byteAt z i ≠ 0) : i < z.length := by
  by_contra hno
  exact h (by rw [byteAt, List.getD_eq_getElem?_getD, List.getElem?_eq_none (Nat.not_lt.1 hno)]; rfl)

theorem digits_le (z : Bytes) (i : Nat) : digits z i ≤ z.length - i := by
  have h := (List.takeWhile_prefix (l := z.drop i) isdigit).length_le
  rwa [List.length_drop] at h

theorem getNumber_le {z : Bytes} (hz : z ≠ []) : (getNumber z).2 ≤ z.length := by
  have hpos := List.length_pos_of_ne_nil hz
  have hd := digits_le z
  have hbyte : ∀ {i : Nat}, isdigit (byteAt z i) = true → i < z.length := fun h =>
    lt_length_of_byteAt (ne_zero_of_isdigit h)
  have hint : 1 + digits z 1 ≤ z.length := by
    have := hd 1
    omega
  unfold getNumber
  dsimp only
  -- the fraction, and from where it ends the exponent
  have hfrac : ∀ t : Tk × Nat, t.2 ≤ z.length →
      (if (byteAt z t.2 = 101 ∨ byteAt z t.2 = 69) ∧ (isdigit (byteAt z (t.2 + 1)) = true ∨
          (byteAt z (t.2 + 1) = 43 ∨ byteAt z (t.2 + 1) = 45) ∧ isdigit (byteAt z (t.2 + 2)) =
          true) then
        (Tk.float, t.2 + 2 + digits z (t.2 + 2)) else t).2 ≤ z.length := by
    intro t ht
    split
    · rename_i h
      have h2 : t.2 + 2 ≤ z.length := by
        rcases h.2 with h | h
        · have := hbyte h
          omega
        · have := hbyte h.2
          omega
      have := hd (t.2 + 2)
      dsimp only
      omega
    · exact ht
  split
  · rename_i h
    have h2 := hbyte h.2
    have := hd (1 + digits z 1 + 2)
    exact hfrac (Tk.float, _) (by dsimp only; omega)
  · exact hfrac (Tk.integer, _) hint

/-- **A token ends inside the string**, unless the string is `!`. -/
theorem getToken_le_iff {z : Bytes} (hz : z ≠ []) : (getToken z).2 ≤ z.length ↔ z ≠ [33] := by
  constructor
  · rintro h rfl
    revert h
    decide
  intro hne
  have hpos := List.length_pos_of_ne_nil hz
  have hbyte : ∀ i b, byteAt z i = b → b ≠ 0 → i < z.length := fun i b h hb =>
    lt_length_of_byteAt (h ▸ hb)
  have htake : ∀ (p : UInt8 → Bool) (i : Nat), ((z.drop i).takeWhile p).length ≤ z.length - i := by
    intro p i
    have h := (List.takeWhile_prefix (l := z.drop i) p).length_le
    rwa [List.length_drop] at h
  have hdrop : ∀ i, (z.drop i).length = z.length - i := fun i => List.length_drop
  suffices h : ∀ P : Tk × Nat → Prop, (∀ tk n, n ≤ z.length → P (tk, n)) → P (getNumber z) →
    P (getToken z) from
    h (fun t => t.2 ≤ z.length) (fun _ _ h => h) (getNumber_le hz)
  intro P hP hnumber
  unfold getToken
  dsimp only
  refine iteInduction (fun _ => hP _ _ ?_) fun _ => ?_
  · have := htake isspace 1
    omega
  refine iteInduction (fun _ => iteInduction (fun h => hP _ _ ?_) fun _ => hP _ _ hpos) fun _ => ?_
  · have := hbyte 1 45 h (by decide)
    have := htake (· ≠ 10) 2
    omega
  refine iteInduction (fun _ => iteInduction (fun _ => hP _ _ hpos) fun h => hP _ _ ?_) fun _ => ?_
  · rw [not_or] at h
    have := lt_length_of_byteAt h.2
    have := commentLoop_le (z.drop 3) (byteAt z 2)
    have := hdrop 3
    omega
  refine iteInduction (fun _ => hP _ _ ?_) fun _ => ?_
  · split
    · rename_i h
      exact hbyte 1 61 h (by decide)
    · exact hpos
  refine iteInduction (fun _ => ?_) fun _ => ?_
  · refine iteInduction (fun h => hP _ _ (hbyte 1 61 h (by decide))) fun _ => ?_
    refine iteInduction (fun h => hP _ _ (hbyte 1 62 h (by decide))) fun _ => ?_
    exact iteInduction (fun h => hP _ _ (hbyte 1 60 h (by decide))) fun _ => hP _ _ hpos
  refine iteInduction (fun _ => ?_) fun _ => ?_
  · refine iteInduction (fun h => hP _ _ (hbyte 1 61 h (by decide))) fun _ => ?_
    exact iteInduction (fun h => hP _ _ (hbyte 1 62 h (by decide))) fun _ => hP _ _ hpos
  refine iteInduction (fun h => ?_) fun _ => ?_
  · -- a `!` that is not alone
    have htwo : 2 ≤ z.length := by
      obtain ⟨c, z', rfl⟩ := List.exists_cons_of_ne_nil hz
      have hc : c = 33 := h
      cases z' with
      | nil => exact absurd (congrArg (· :: []) hc) hne
      | cons c' z' =>
        rw [List.length_cons, List.length_cons]
        omega
    exact iteInduction (fun _ => hP _ _ htwo) fun _ => hP _ _ htwo
  refine iteInduction (fun _ => ?_) fun _ => ?_
  · refine iteInduction (fun _ => hP _ _ hpos) fun h => ?_
    exact hP _ _ (hbyte 1 124 (not_not.1 h) (by decide))
  refine iteInduction (fun _ => hP _ _ ?_) fun _ => ?_
  · have := stringLoop_le (byteAt z 0) (z.drop 1)
    have := hdrop 1
    omega
  refine iteInduction (fun _ => hnumber) fun _ => ?_
  refine iteInduction (fun _ => hP _ _ ?_) fun _ => ?_
  · have := bracketLoop_le (z.drop 1) (byteAt z 0)
    have := hdrop 1
    omega
  cases oneByte (byteAt z 0) with
  | some tk => exact hP _ _ hpos
  | none =>
    refine iteInduction (fun _ => hP _ _ hpos) fun _ => hP _ _ ?_
    have := htake (fun c => 128 ≤ c || idChar c) 1
    omega

/-! ## All tokens -/

section
variable {e : Engine} {sql : Bytes}

theorem texts_concat (ts : List (Tk × Nat)) (t : Tk × Nat) : ∀ z : Bytes,
    texts (ts ++ [t]) z = texts ts z ++ [(z.drop (ts.map Prod.snd).sum).take t.2] := by
  induction ts with
  | nil => exact fun _ => rfl
  | cons u ts ih =>
    intro z
    rw [List.cons_append, texts, ih, texts, List.cons_append, List.drop_drop, List.map_cons,
      List.sum_cons]

/-- What holds at the head of the loop. -/
structure Scanning (sql : Bytes) (i : Nat) (ts : List (Tk × Nat)) : Prop where
  pos : ∀ t ∈ ts, 1 ≤ t.2
  inside : i ≤ sql.length
  sum : (ts.map Prod.snd).sum = i
  texts : (texts ts sql).flatten = sql.take i

/-- One more token. -/
theorem Scanning.next {i : Nat} {ts : List (Tk × Nat)} (h : Scanning sql i ts) {t : Tk × Nat}
    (hpos : 1 ≤ t.2) (hle : t.2 ≤ (sql.drop i).length) : Scanning sql (i + t.2) (ts ++ [t]) := by
  rw [List.length_drop] at hle
  have hin := h.inside
  refine ⟨fun u hu => ?_, by omega, ?_, ?_⟩
  · rcases List.mem_append.1 hu with hu | hu
    · exact h.pos u hu
    · exact List.mem_singleton.1 hu ▸ hpos
  · rw [List.map_append, List.sum_append, h.sum]
    simp
  · rw [texts_concat, List.flatten_append, h.texts, h.sum, List.take_add]
    simp

theorem drop_ne_nil {i : Nat} (h : byteAt sql i ≠ 0) : sql.drop i ≠ [] := by
  intro hnil
  have := lt_length_of_byteAt h
  have := List.drop_eq_nil_iff.1 hnil
  omega

/-- The loop consumes the string if it comes to no `!` at the end. -/
theorem runLoop_consumes (h0 : 0 ∉ sql) (hb : ∀ i ts, Comes e sql i ts → sql.drop i ≠ [33]) :
    ∀ fuel i ts, Comes e sql i ts → Scanning sql i ts → sql.length ≤ i + fuel →
      Consumes sql (runLoop e sql fuel i ts) := by
  intro fuel
  induction fuel with
  | zero =>
    intro i ts _ hs hfuel
    exact ⟨hs.pos, hs.inside, hs.sum, hs.texts, fun _ => Nat.le_antisymm hs.inside hfuel⟩
  | succ fuel ih =>
    intro i ts hc hs hfuel
    rw [runLoop]
    by_cases hz : byteAt sql i = 0
    · rw [if_pos hz]
      refine ⟨hs.pos, hs.inside, hs.sum, hs.texts, fun _ => ?_⟩
      by_contra hne
      have hlt : i < sql.length := lt_of_le_of_ne hs.inside hne
      have hget : byteAt sql i = sql[i] := by
        rw [byteAt, List.getD_eq_getElem?_getD, List.getElem?_eq_getElem hlt]
        rfl
      exact h0 (hz ▸ hget ▸ List.getElem_mem hlt)
    · rw [if_neg hz]
      have hpos := getToken_pos (sql.drop i)
      have hs' := hs.next hpos ((getToken_le_iff (drop_ne_nil hz)).2 (hb i ts hc))
      dsimp only
      cases hst : e.stops (getToken (sql.drop i)).1 (ts ++ [getToken (sql.drop i)]) with
      | some stop =>
        refine ⟨hs'.pos, hs'.inside, hs'.sum, hs'.texts, ?_⟩
        rintro rfl
        unfold Engine.stops at hst
        revert hst
        repeat' split
        all_goals intro hst; cases hst
      | none => exact ih _ _ (hc.next hz hst) hs' (by omega)

/-- From a `!` at the end the loop goes beyond it. -/
theorem runLoop_bang {i : Nat} {ts : List (Tk × Nat)} (hdrop : sql.drop i = [33]) (fuel : Nat) :
    (runLoop e sql (fuel + 1) i ts).i = sql.length + 1 := by
  have hlen := congrArg List.length hdrop
  rw [List.length_drop, List.length_singleton] at hlen
  have hbyte : byteAt sql i = 33 := by
    have h := congrArg (fun z => byteAt z 0) hdrop
    simpa [byteAt] using h
  rw [runLoop, if_neg (by rw [hbyte]; decide), hdrop]
  have htok : getToken [33] = (.illegal, 2) := by decide
  simp only [htok, Engine.stops]
  omega

/-- The rounds after which the loop comes to a place are those it takes from the beginning. -/
theorem runSqlParser_comes {i : Nat} {ts : List (Tk × Nat)} (h : Comes e sql i ts) :
    ∃ fuel, sql.length ≤ i + fuel ∧ runSqlParser e sql = runLoop e sql fuel i ts := by
  induction h with
  | start => exact ⟨sql.length, by omega, rfl⟩
  | @next i ts hc hz hst ih =>
    obtain ⟨fuel, hle, heq⟩ := ih
    have hlt := lt_length_of_byteAt hz
    have hpos := getToken_pos (sql.drop i)
    obtain ⟨fuel, rfl⟩ : ∃ k, fuel = k + 1 := ⟨fuel - 1, by omega⟩
    refine ⟨fuel, by omega, ?_⟩
    rw [heq, runLoop, if_neg hz]
    dsimp only
    rw [hst]

/-- **The loop consumes the string token by token** exactly if it comes to no `!` at the end. -/
theorem runSqlParser_consumes_iff (e : Engine) {sql : Bytes} (h0 : 0 ∉ sql) :
    Consumes sql (runSqlParser e sql) ↔ ∀ i ts, Comes e sql i ts → sql.drop i ≠ [33] := by
  constructor
  · intro h i ts hc hdrop
    obtain ⟨fuel, hle, heq⟩ := runSqlParser_comes hc
    have hlen := congrArg List.length hdrop
    rw [List.length_drop, List.length_singleton] at hlen
    obtain ⟨fuel, rfl⟩ : ∃ k, fuel = k + 1 := ⟨fuel - 1, by omega⟩
    have hin := h.inside
    rw [heq, runLoop_bang hdrop] at hin
    omega
  · intro hb
    exact runLoop_consumes h0 hb sql.length 0 [] .start ⟨nofun, Nat.zero_le _, rfl, rfl⟩ (by omega)

/-- A parser that takes every token. -/
def accepting : Engine := ⟨fun _ => false, fun _ => false⟩

theorem runSqlParser_consumes_iff_ne : Consumes (ascii "a!=1") (runSqlParser accepting (ascii "a!=1")) ↔
    ∀ i ts, Comes accepting (ascii "a!=1") i ts → (ascii "a!=1").drop i ≠ [33] :=
  runSqlParser_consumes_iff accepting (by decide)

/-- The loop goes beyond the end of `!`. -/
theorem runSqlParser_oversteps : ¬ ∀ (e : Engine) (sql : Bytes), 0 ∉ sql →
    Consumes sql (runSqlParser e sql) := by
  intro h
  have hin := (h accepting [33] (by decide)).inside
  revert hin
  decide

end

/-! ## What the parser gets -/

/-- The parser does not get to see it. -/
def skipped : Tk → Bool
  | .space | .comment => true
  | _ => false

/-- The tokens that the parser gets. -/
def parsed (ts : List (Tk × Bytes)) : List (Tk × Bytes) := ts.filter fun t => !skipped t.1

theorem parsed_append (ts us : List (Tk × Bytes)) : parsed (ts ++ us) = parsed ts ++ parsed us :=
  List.filter_append ..

theorem parsed_eq_nil {ts : List (Tk × Bytes)} (h : ∀ t ∈ ts, skipped t.1 = true) : parsed ts = [] :=
  List.filter_eq_nil_iff.2 fun t ht => by rw [h t ht]; exact Bool.false_ne_true

theorem parsed_cons (t : Tk × Bytes) (ts : List (Tk × Bytes)) :
    parsed (t :: ts) = if skipped t.1 then parsed ts else t :: parsed ts := by
  unfold parsed
  cases h : skipped t.1 with
  | true => rw [List.filter_cons_of_neg (by simp [h]), if_pos rfl]
  | false => rw [List.filter_cons_of_pos (by simp [h]), if_neg Bool.false_ne_true]

end Dbsql.L5.Parse
