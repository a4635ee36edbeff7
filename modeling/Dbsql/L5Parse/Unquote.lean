import Dbsql.L3Vdbe.Value
import Dbsql.L5Parse.Scan
/-!
# Quoted texts (common/str.c:216-256)

`__str_unquote` takes the quotes off a token in place. At the closing quote it puts a zero after
what it has written; a token that has none keeps the rest of its bytes behind that.

Results:
* `quotedToken_cases`: the token of a quoted text is closed, or the rest of the string.
* `strUnquote_closed`, `strUnquote_open`: what is left of either.
* `strUnquote_content_iff`: so the content is left exactly of a closed one.
-/
namespace Dbsql.L5.Parse
open Dbsql.L1
open Dbsql.L3 (cstr)

/-! ## `__str_unquote` -/

/-- The loop, at `z[i]` and `z[j]`. -/
def unquoteLoop (quote : UInt8) : Nat → Bytes → Nat → Nat → Bytes
  | 0, z, _, _ => z
  | fuel + 1, z, i, j =>
    if byteAt z i = 0 then z
    else if byteAt z i = quote then
      if byteAt z (i + 1) = quote then unquoteLoop quote fuel (z.set j quote) (i + 2) (j + 1)
      else z.set j 0
    else unquoteLoop quote fuel (z.set j (byteAt z i)) (i + 1) (j + 1)

/-- `__str_unquote` (str.c:227-256): the string afterwards. -/
def strUnquote (z : Bytes) : Bytes :=
  match byteAt z 0 with
  | 39 => cstr (unquoteLoop 39 z.length z 1 0)
  | 34 => cstr (unquoteLoop 34 z.length z 1 0)
  | 91 => cstr (unquoteLoop 93 z.length z 1 0)
  | _ => z

/-! ## Quoted texts -/

/-- The delimiter that ends what `q` begins. -/
def closing (q : UInt8) : UInt8 := if q = 91 then 93 else q

/-- A text with each delimiter doubled. -/
def double (q : UInt8) (s : Bytes) : Bytes := s.flatMap fun c => if c = q then [q, q] else [c]

/-- `__get_token` returns a string, or a name in brackets. -/
def QuotedToken (z : Bytes) : Prop := (getToken z).1 = .string ∨ byteAt z 0 = 91

/-- The text of the token at the beginning. -/
def tokenText (z : Bytes) : Bytes := z.take (getToken z).2

/-- There is a closing delimiter after the content. -/
def Closed (w : Bytes) : Prop := ∃ q s, w = q :: (double (closing q) s ++ [closing q])

/-- What is left of a token is its content, or where nothing closes it the remaining text, with
or without its delimiters collapsed. -/
structure LeavesContent (w : Bytes) : Prop where
  closed : ∀ q s, w = q :: (double (closing q) s ++ [closing q]) → strUnquote w = s
  unclosed : ∀ q s, w = q :: double (closing q) s → strUnquote w = s ∨ strUnquote w = double (closing q) s

/-! ## The loop -/

section
variable {q : UInt8}

theorem double_cons (c : UInt8) (s : Bytes) :
    double q (c :: s) = if c = q then q :: q :: double q s else c :: double q s := by
  rw [double, List.flatMap_cons]
  split <;> rfl

theorem double_length (s : Bytes) : s.length ≤ (double q s).length := by
  induction s with
  | nil => exact Nat.le_refl 0
  | cons c s ih =>
    rw [double_cons]
    split <;> simp only [List.length_cons] <;> omega

theorem double_of_not_mem {s : Bytes} (h : q ∉ s) : double q s = s := by
  induction s with
  | nil => rfl
  | cons c s ih =>
    rw [List.mem_cons, not_or] at h
    rw [double_cons, if_neg (Ne.symm h.1), ih h.2]

theorem mem_double {s : Bytes} {b : UInt8} (h : b ∈ s) : b ∈ double q s := by
  refine List.mem_flatMap.2 ⟨b, h, ?_⟩
  split
  · rename_i hb
    simp [hb]
  · exact List.mem_singleton_self b

/-- The byte at an index, from what is there. -/
theorem byteAt_of_drop {z rest : Bytes} {i : Nat} {c : UInt8} (h : z.drop i = c :: rest) :
    byteAt z i = c ∧ z.drop (i + 1) = rest := by
  have hget : z[i]? = some c := by
    rw [← Nat.add_zero i, ← List.getElem?_drop, h]
    rfl
  refine ⟨by rw [byteAt, List.getD_eq_getElem?_getD, hget]; rfl, ?_⟩
  rw [← List.drop_drop, h]
  rfl

theorem byteAt_of_drop_nil {z : Bytes} {i : Nat} (h : z.drop i = []) : byteAt z i = 0 := by
  rw [byteAt, List.getD_eq_getElem?_getD, List.getElem?_eq_none (List.drop_eq_nil_iff.1 h)]
  rfl

theorem drop_set_lt {z : Bytes} {i j : Nat} (h : j < i) (c : UInt8) :
    (z.set j c).drop i = z.drop i := by
  rw [List.drop_set, if_pos h]

theorem take_set_succ {z : Bytes} {j : Nat} (h : j < z.length) (c : UInt8) :
    (z.set j c).take (j + 1) = z.take j ++ [c] := by
  rw [List.take_set, List.take_succ_eq_append_getElem h, List.set_append_right _ _ (by simp)]
  simp [Nat.min_eq_left (Nat.le_of_lt h)]

/-- Up to a closing delimiter the content is written, and a zero. -/
theorem unquoteLoop_closed (hq : q ≠ 0) : ∀ (s : Bytes) (fuel i j : Nat) (z : Bytes), 0 ∉ s → j < i →
    z.drop i = double q s ++ [q] → s.length < fuel →
    ∃ rest, unquoteLoop q fuel z i j = z.take j ++ s ++ 0 :: rest := by
  intro s
  induction s with
  | nil =>
    intro fuel i j z _ hj hz hfuel
    obtain ⟨fuel, rfl⟩ : ∃ k, fuel = k + 1 := ⟨fuel - 1, by omega⟩
    obtain ⟨hi, hnext⟩ := byteAt_of_drop hz
    have hlen : j < z.length := by
      have := lt_length_of_byteAt (hi ▸ hq : byteAt z i ≠ 0)
      omega
    have h0 : byteAt z (i + 1) ≠ q := by
      rw [byteAt_of_drop_nil hnext]
      exact hq.symm
    refine ⟨(z.set j 0).drop (j + 1), ?_⟩
    rw [unquoteLoop, if_neg (by rw [hi]; exact hq), if_pos hi, if_neg h0, List.append_nil]
    have h := (List.take_append_drop (j + 1) (z.set j 0)).symm
    rw [take_set_succ hlen, List.append_assoc] at h
    exact h
  | cons c s ih =>
    intro fuel i j z h0 hj hz hfuel
    obtain ⟨fuel, rfl⟩ : ∃ k, fuel = k + 1 := ⟨fuel - 1, by omega⟩
    rw [List.mem_cons, not_or] at h0
    rw [List.length_cons] at hfuel
    have hgo : ∀ i' (hi' : j + 1 < i'), z.drop i' = double q s ++ [q] → j < z.length →
        ∃ rest, unquoteLoop q fuel (z.set j c) i' (j + 1) = z.take j ++ c :: s ++ 0 :: rest := by
      intro i' hi' hrest hlen
      obtain ⟨rest, hr⟩ := ih fuel i' (j + 1) (z.set j c) h0.2 hi'
        ((drop_set_lt (by omega) c).trans hrest) (by omega)
      refine ⟨rest, hr.trans ?_⟩
      rw [take_set_succ hlen, List.append_assoc (z.take j), List.singleton_append]
    rw [double_cons] at hz
    by_cases hc : c = q
    · subst hc
      rw [if_pos rfl, List.cons_append, List.cons_append] at hz
      obtain ⟨hi, hnext⟩ := byteAt_of_drop hz
      obtain ⟨hi', hrest⟩ := byteAt_of_drop hnext
      have hlen := lt_length_of_byteAt (hi ▸ hq : byteAt z i ≠ 0)
      rw [unquoteLoop, if_neg (by rw [hi]; exact hq), if_pos hi, if_pos hi']
      exact hgo (i + 2) (by omega) hrest (by omega)
    · rw [if_neg hc, List.cons_append] at hz
      obtain ⟨hi, hrest⟩ := byteAt_of_drop hz
      have hc0 : byteAt z i ≠ 0 := hi ▸ Ne.symm h0.1
      have hlen := lt_length_of_byteAt hc0
      rw [unquoteLoop, if_neg hc0, if_neg (by rw [hi]; exact hc), hi]
      exact hgo (i + 1) (by omega) hrest (by omega)

/-- Without a closing delimiter no zero is written. -/
theorem unquoteLoop_open (hq : q ≠ 0) : ∀ (s : Bytes) (fuel i j : Nat) (z : Bytes), 0 ∉ z → j < i →
    z.drop i = double q s → s.length ≤ fuel →
    (unquoteLoop q fuel z i j).length = z.length ∧ 0 ∉ unquoteLoop q fuel z i j := by
  have hset : ∀ {z : Bytes} {j : Nat} {c : UInt8}, 0 ∉ z → c ≠ 0 → 0 ∉ z.set j c := by
    intro z j c hz hc hmem
    rcases List.mem_or_eq_of_mem_set hmem with h | h
    · exact hz h
    · exact hc h.symm
  intro s
  induction s with
  | nil =>
    intro fuel i j z h0 _ hz _
    cases fuel with
    | zero => exact ⟨rfl, h0⟩
    | succ fuel =>
      rw [unquoteLoop, if_pos (byteAt_of_drop_nil hz)]
      exact ⟨rfl, h0⟩
  | cons c s ih =>
    intro fuel i j z h0 hj hz hfuel
    rw [List.length_cons] at hfuel
    obtain ⟨fuel, rfl⟩ : ∃ k, fuel = k + 1 := ⟨fuel - 1, by omega⟩
    have hmem : ∀ b, b ∈ z.drop i → b ≠ 0 := fun b hb hb0 => h0 (hb0 ▸ List.mem_of_mem_drop hb)
    have hgo : ∀ i', j + 1 < i' → z.drop i' = double q s → c ≠ 0 →
        (unquoteLoop q fuel (z.set j c) i' (j + 1)).length = z.length ∧
          0 ∉ unquoteLoop q fuel (z.set j c) i' (j + 1) := by
      intro i' hi' hrest hc
      have h := ih fuel i' (j + 1) (z.set j c) (hset h0 hc) hi'
        ((drop_set_lt (by omega) c).trans hrest) (by omega)
      rwa [List.length_set] at h
    rw [double_cons] at hz
    by_cases hc : c = q
    · subst hc
      rw [if_pos rfl] at hz
      obtain ⟨hi, hnext⟩ := byteAt_of_drop hz
      obtain ⟨hi', hrest⟩ := byteAt_of_drop hnext
      rw [unquoteLoop, if_neg (by rw [hi]; exact hq), if_pos hi, if_pos hi']
      exact hgo (i + 2) (by omega) hrest hq
    · rw [if_neg hc] at hz
      obtain ⟨hi, hrest⟩ := byteAt_of_drop hz
      have hc0 : c ≠ 0 := hmem c (hz ▸ List.mem_cons_self)
      rw [unquoteLoop, if_neg (by rw [hi]; exact hc0), if_neg (by rw [hi]; exact hc), hi]
      exact hgo (i + 1) (by omega) hrest hc0

end

theorem takeWhile_eq_self {α : Type} {p : α → Bool} {l : List α} (h : ∀ a ∈ l, p a = true) :
    l.takeWhile p = l := by
  have := @List.takeWhile_append_of_pos _ p l [] h
  simpa using this

/-! ## Tokens -/

/-- The delimiters that begin a quoted text. -/
def Delim (q : UInt8) : Prop := q = 39 ∨ q = 34 ∨ q = 91

section
variable {q : UInt8}

theorem Delim.closing_ne (h : Delim q) : closing q ≠ 0 := by
  rcases h with rfl | rfl | rfl <;> decide

theorem Delim.strUnquote (h : Delim q) (z : Bytes) :
    Parse.strUnquote (q :: z) = cstr (unquoteLoop (closing q) (q :: z).length (q :: z) 1 0) := by
  rcases h with rfl | rfl | rfl <;> rfl

/-- A closed text leaves its content. -/
theorem strUnquote_closed (h : Delim q) {s : Bytes}
    (h0 : 0 ∉ q :: (double (closing q) s ++ [closing q])) :
    strUnquote (q :: (double (closing q) s ++ [closing q])) = s := by
  have hs : 0 ∉ s := fun hmem =>
    h0 (List.mem_cons_of_mem q (List.mem_append_left _ (mem_double hmem)))
  have hlen := double_length (q := closing q) s
  obtain ⟨rest, hr⟩ := unquoteLoop_closed h.closing_ne s
    (q :: (double (closing q) s ++ [closing q])).length 1 0
      (q :: (double (closing q) s ++ [closing q]))
    hs Nat.zero_lt_one rfl (by rw [List.length_cons, List.length_append]; omega)
  have hne : ∀ b ∈ s, decide (b ≠ 0) = true := fun b hb =>
    decide_eq_true fun hb0 => hs (hb0 ▸ hb)
  rw [h.strUnquote, hr, List.take_zero, List.nil_append, cstr, List.takeWhile_append_of_pos hne]
  simp

/-- A text that is not closed stays as long as it was. -/
theorem strUnquote_open (h : Delim q) {s : Bytes} (h0 : 0 ∉ q :: double (closing q) s) :
    (strUnquote (q :: double (closing q) s)).length = (q :: double (closing q) s).length := by
  have hlen := double_length (q := closing q) s
  obtain ⟨hl, hz⟩ := unquoteLoop_open h.closing_ne s (q :: double (closing q) s).length 1 0
    (q :: double (closing q) s) h0 Nat.zero_lt_one rfl (by rw [List.length_cons]; omega)
  have hself : cstr (unquoteLoop (closing q) (q :: double (closing q) s).length
    (q :: double (closing q) s) 1 0) =
      unquoteLoop (closing q) (q :: double (closing q) s).length (q :: double (closing q) s) 1 0 :=
    takeWhile_eq_self fun b hb => decide_eq_true fun hb0 => hz (hb0 ▸ hb)
  rw [h.strUnquote, hself, hl]

/-- The scanner of strings goes to a delimiter that is not doubled, or to the end. -/
theorem stringLoop_cases (d : UInt8) (z : Bytes) : ∃ s,
    z.take (stringLoop d z) = double d s ++ [d] ∨ z.take (stringLoop d z) = double d s := by
  induction z using stringLoop.induct d with
  | case1 => exact ⟨[], .inr rfl⟩
  | case2 c =>
    by_cases hc : c = d
    · exact ⟨[], .inl (congrArg (· :: []) hc)⟩
    · refine ⟨[c], .inr ?_⟩
      rw [double_cons, if_neg hc]
      rfl
  | case3 z ih =>
    obtain ⟨s, h⟩ := ih
    refine ⟨d :: s, ?_⟩
    rw [stringLoop, if_pos rfl, if_pos rfl, Nat.add_comm 2, List.take_succ_cons,
      List.take_succ_cons, double_cons,
      if_pos rfl]
    exact h.imp (congrArg (d :: d :: ·)) (congrArg (d :: d :: ·))
  | case4 c' z h =>
    refine ⟨[], .inl ?_⟩
    rw [stringLoop, if_pos rfl, if_neg h]
    rfl
  | case5 c c' z h ih =>
    obtain ⟨s, h'⟩ := ih
    refine ⟨c :: s, ?_⟩
    rw [stringLoop, if_neg h, Nat.add_comm 1, List.take_succ_cons, double_cons, if_neg h]
    exact h'.imp (congrArg (c :: ·)) (congrArg (c :: ·))

/-- The scanner of names in brackets goes to the first closing bracket, or to the end. -/
theorem bracketLoop_cases (z : Bytes) : ∀ p : UInt8, p ≠ 93 → ∃ s, 93 ∉ s ∧
    (z.take (bracketLoop p z) = s ++ [93] ∨ z.take (bracketLoop p z) = s) := by
  induction z with
  | nil => exact fun _ _ => ⟨[], nofun, .inr rfl⟩
  | cons c z ih =>
    intro p hp
    rw [bracketLoop, if_neg hp, Nat.add_comm 1, List.take_succ_cons]
    by_cases hc : c = 93
    · refine ⟨[], nofun, .inl ?_⟩
      have hzero : bracketLoop c z = 0 := by
        cases z with
        | nil => rfl
        | cons c' z => rw [bracketLoop, if_pos hc]
      rw [hzero, hc]
      rfl
    · obtain ⟨s, hs, h⟩ := ih c hc
      refine ⟨c :: s, ?_, h.imp (congrArg (c :: ·)) (congrArg (c :: ·))⟩
      rw [List.mem_cons, not_or]
      exact ⟨Ne.symm hc, hs⟩

end

section
variable {z : Bytes}

theorem getToken_bracket (z : Bytes) : getToken (91 :: z) = (.id, 1 + bracketLoop 91 z) := rfl

theorem getToken_quote {q : UInt8} (h : q = 39 ∨ q = 34) (z : Bytes) :
    getToken (q :: z) = (.string, 1 + stringLoop q z) := by
  rcases h with rfl | rfl <;> rfl

theorem getKeywordCode_ne_string (z : Bytes) (n : Nat) : getKeywordCode z n ≠ .string :=
  getKeywordCode_ne (by decide) (by decide) z n

theorem oneByte_ne_string {c : UInt8} {tk : Tk} (h : oneByte c = some tk) : tk ≠ .string := by
  unfold oneByte at h
  split at h <;> cases h <;> nofun

/-- A token of type `TK_STRING` begins with a quote. -/
theorem quote_of_string (h : (getToken z).1 = .string) : byteAt z 0 = 39 ∨ byteAt z 0 = 34 := by
  by_contra hq
  suffices hP : ∀ P : Tk × Nat → Prop, (∀ tk n, tk ≠ .string → P (tk, n)) → P (getToken z) from
    hP (fun t => t.1 ≠ .string) (fun _ _ h => h) h
  intro P hP
  have hnumber : P (getNumber z) := by
    unfold getNumber
    dsimp only
    repeat' refine iteInduction (fun _ => ?_) fun _ => ?_
    all_goals exact hP _ _ nofun
  unfold getToken
  dsimp only
  repeat' refine iteInduction (fun _ => ?_) fun _ => ?_
  all_goals first
    | exact hnumber
    | exact absurd ‹_› hq
    | (refine hP _ _ fun h => ?_; cases h)
    | skip
  cases htk : oneByte (byteAt z 0) with
  | some tk => exact hP _ _ (oneByte_ne_string htk)
  | none => exact iteInduction (fun _ => hP _ _ nofun) fun _ => hP _ _ (getKeywordCode_ne_string z _)

/-- **The token of a quoted text** is closed, or goes to the end. -/
theorem quotedToken_cases (h : QuotedToken z) : ∃ q s, Delim q ∧
    (tokenText z = q :: (double (closing q) s ++ [closing q]) ∨ tokenText z =
      q :: double (closing q) s) := by
  rcases h with h | h
  · have hq' := quote_of_string h
    obtain ⟨q, z', hq, rfl⟩ : ∃ q z', (q = 39 ∨ q = 34) ∧ z = q :: z' := by
      cases z with
      | nil => exact absurd hq' (by decide)
      | cons q z' => exact ⟨q, z', hq', rfl⟩
    obtain ⟨s, hs⟩ := stringLoop_cases q z'
    have hclose : closing q = q := by rcases hq with rfl | rfl <;> rfl
    refine ⟨q, s, hq.elim .inl fun h => .inr (.inl h), ?_⟩
    rw [tokenText, getToken_quote hq, Nat.add_comm 1, List.take_succ_cons, hclose]
    exact hs.imp (congrArg (q :: ·)) (congrArg (q :: ·))
  · obtain ⟨z', rfl⟩ : ∃ z', z = 91 :: z' := by
      cases z with
      | nil => exact absurd h (by decide)
      | cons c z' => exact ⟨z', congrArg (· :: z') (show c = 91 from h)⟩
    obtain ⟨s, hs, hcases⟩ := bracketLoop_cases z' 91 (by decide)
    refine ⟨91, s, .inr (.inr rfl), ?_⟩
    rw [tokenText, getToken_bracket, Nat.add_comm 1, List.take_succ_cons, show closing 91 =
      93 from rfl,
      double_of_not_mem hs]
    exact hcases.imp (congrArg (91 :: ·)) (congrArg (91 :: ·))

/-- **`__str_unquote` leaves the content of a quoted token** exactly if the token is closed. -/
theorem strUnquote_content_iff (h0 : 0 ∉ z) (h : QuotedToken z) :
    LeavesContent (tokenText z) ↔ Closed (tokenText z) := by
  have hw0 : 0 ∉ tokenText z := fun hmem => h0 (List.mem_of_mem_take hmem)
  obtain ⟨q, s, hq, hcases⟩ := quotedToken_cases h
  have hhead : ∀ {q' rest}, tokenText z = q' :: rest → Delim q' := by
    intro q' rest heq
    rcases hcases with hw | hw
    · exact (List.cons.inj (hw.symm.trans heq)).1 ▸ hq
    · exact (List.cons.inj (hw.symm.trans heq)).1 ▸ hq
  constructor
  · intro hl
    rcases hcases with hw | hw
    · exact ⟨q, s, hw⟩
    · have hlen := strUnquote_open hq (hw ▸ hw0)
      have hd := double_length (q := closing q) s
      rw [← hw] at hlen
      rcases hl.unclosed q s hw with hs | hs
      · rw [hs, hw, List.length_cons] at hlen
        omega
      · rw [hs, hw, List.length_cons] at hlen
        omega
  · rintro ⟨q', s', hw'⟩
    refine ⟨fun q₁ s₁ hw₁ => ?_, fun q₁ s₁ hw₁ => ?_⟩
    · rw [hw₁]
      exact strUnquote_closed (hhead hw₁) (hw₁ ▸ hw0)
    · -- it is not unclosed as well: its length changes
      have hlen := strUnquote_open (hhead hw₁) (hw₁ ▸ hw0)
      rw [← hw₁, hw', strUnquote_closed (hhead hw') (hw' ▸ hw0), List.length_cons,
        List.length_append] at hlen
      have := double_length (q := closing q') s'
      omega

theorem strUnquote_content_iff_doubled : LeavesContent (tokenText (ascii "'it''s' x")) ↔
    Closed (tokenText (ascii "'it''s' x")) :=
  strUnquote_content_iff (by decide) (.inl (by decide))

/-- `'a` becomes `aa`. -/
theorem strUnquote_keeps_end : ¬ ∀ z : Bytes, 0 ∉ z → QuotedToken z → LeavesContent (tokenText z) := by
  intro h
  have hl := (h [39, 97] (by decide) (.inl (by decide))).unclosed 39 [97] (by decide)
  revert hl
  decide

end
end Dbsql.L5.Parse
