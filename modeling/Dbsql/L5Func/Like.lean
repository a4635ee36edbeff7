import Dbsql.Core.Wildcard
import Dbsql.L1Encoding.IndexKey
import Dbsql.L5Func.Chars
/-!
# The LIKE operator (str.c:518-580)

The code goes along the pattern and the string byte by byte, and by whole characters for `_` and behind a
`%`. A run of `%` and `_` is read to its end first; then the string is searched for the next byte of the
pattern, and the rest of both is compared from each place where it stands.

Results:
* `strLikeCmp_text`: on the texts of an encoding the answer is that of the wildcard pattern.
* `strLikeCmp_iff`: the same for UTF-8, on characters.
-/
namespace Dbsql.L5.Func.Like
open Dbsql.L1 Dbsql.Core.Wildcard Chars
open Dbsql.L2.HashTable (strUpperToLower strUpperToLower_eq_zero)

/-! ## The code -/

/-- The loop over a run of `%` and `_` (str.c:540-547), from behind the first `%`: what follows in the
pattern and in the string, or `none` if the string ends under a `_`. -/
def likeRun (enc : Encoding) : Bytes → Bytes → Option (Bytes × Bytes)
  | [], string => some ([], string)
  | c :: pattern, string =>
    if c = 37 then likeRun enc pattern string
    else if c = 95 then
      if peek string = 0 then none else likeRun enc pattern (nextChar enc string)
    else some (c :: pattern, string)

theorem nextChar_length_lt (enc : Encoding) (b : UInt8) (z : Bytes) :
    (nextChar enc (b :: z)).length < (b :: z).length := by
  have := (List.dropWhile_sublist enc.cont (l := z)).length_le
  rw [nextChar, List.drop_one, List.tail_cons, List.length_cons]
  omega

/-- The search behind a run (str.c:551-562); `more` is the call for what follows in the pattern. -/
def likeSearch (enc : Encoding) (more : Bytes → Bool) (c : UInt8) (string : Bytes) : Bool :=
  match _h : string.dropWhile fun b => strUpperToLower b != 0 && strUpperToLower b != c with
  | [] => false
  | b :: string' =>
    if strUpperToLower b = 0 then false
    else if more (b :: string') then true
    else likeSearch enc more c (nextChar enc (b :: string'))
termination_by string.length
decreasing_by
  have hle := (List.dropWhile_sublist (fun b => strUpperToLower b != 0 && strUpperToLower b != c) (l := string)).length_le
  rw [_h] at hle
  exact (nextChar_length_lt enc b string').trans_le hle

theorem likeRun_length {enc : Encoding} {p s rest s' : Bytes} (h : likeRun enc p s = some (rest, s')) :
    rest.length ≤ p.length := by
  induction p generalizing s with
  | nil =>
    cases h
    exact le_rfl
  | cons c p ih =>
    rw [likeRun] at h
    rw [List.length_cons]
    split at h
    · have := ih h
      omega
    split at h
    · split at h
      · cases h
      · have := ih h
        omega
    · cases h
      exact le_rfl

/-- `__str_like_cmp` (str.c:529-580). -/
def strLikeCmp (enc : Encoding) (pattern string : Bytes) : Bool :=
  match pattern with
  | [] => peek string == 0
  | b :: pattern' =>
    let c := strUpperToLower b
    if c = 0 then peek string == 0
    else if c = 37 then
      match _h : likeRun enc pattern' string with
      | none => false
      | some ([], _) => true
      | some (c :: pattern, string) =>
        if c = 0 then true
        else likeSearch enc (strLikeCmp enc (c :: pattern)) (strUpperToLower c) string
    else if c = 95 then
      if peek string = 0 then false else strLikeCmp enc pattern' (nextChar enc string)
    else if c ≠ strUpperToLower (peek string) then false
    else strLikeCmp enc pattern' (string.drop 1)
termination_by pattern.length
decreasing_by
  · exact Nat.lt_succ_of_le (likeRun_length _h)
  · exact Nat.lt_succ_self _
  · exact Nat.lt_succ_self _

/-! ## Texts -/

section
variable {enc : Encoding} {α : Type} (code : CharCode enc α)

/-- What a character of a pattern stands for. -/
def likeItem (c : α) : Item α :=
  if code.lead c = 37 then .star else if code.lead c = 95 then .any else .one (code.same c)

@[simp] theorem peek_nil : peek [] = 0 := rfl

@[simp] theorem peek_cons (b : UInt8) (z : Bytes) : peek (b :: z) = b := rfl

theorem peek_text {cs : List α} : peek (code.text cs) = 0 ↔ cs = [] := by
  cases cs with
  | nil => simp
  | cons c cs => simp [code.lead_ne]

theorem strUpperToLower_iff (b : UInt8) : (strUpperToLower b = 37 ↔ b = 37) ∧ (strUpperToLower b = 95 ↔ b = 95) := by
  simp only [← UInt8.toNat_inj, toNat_strUpperToLower, UInt8.reduceToNat]
  constructor <;> split <;> omega

variable {code}

theorem trail_wild {c : α} (h : code.lead c = 37 ∨ code.lead c = 95) : code.trail c = [] := by
  apply code.trail_ascii
  cases h with
  | inl h => simp [h]
  | inr h => simp [h]

/-- What a run leaves: nothing if the string cannot match, and else as much as a star stands before. -/
def AfterRun (code : CharCode enc α) (ps cs : List α) : Option (Bytes × Bytes) → Prop
  | none => ¬Matches (.star :: ps.map (likeItem code)) cs
  | some (rest, string) => ∃ qs ds, rest = code.text qs ∧ string = code.text ds ∧ qs.length ≤ ps.length ∧
      (∀ q ∈ qs.head?, code.lead q ≠ 37 ∧ code.lead q ≠ 95) ∧
      (Matches (.star :: ps.map (likeItem code)) cs ↔ Matches (.star :: qs.map (likeItem code)) ds)

theorem AfterRun.cons {p : α} {ps cs ds : List α} {r : Option (Bytes × Bytes)} (h : AfterRun code ps ds r)
    (heq : Matches (.star :: (p :: ps).map (likeItem code)) cs ↔ Matches (.star :: ps.map (likeItem code)) ds) :
    AfterRun code (p :: ps) cs r := by
  cases r with
  | none => exact fun hm => h (heq.1 hm)
  | some r =>
    obtain ⟨qs, es, hrest, hstring, hlen, hhead, hm⟩ := h
    exact ⟨qs, es, hrest, hstring, hlen.trans (Nat.le_succ _), hhead, heq.trans hm⟩

/-- A run is a star and as many characters as it has `_`. -/
theorem likeRun_text (ps cs : List α) : AfterRun code ps cs (likeRun enc (code.text ps) (code.text cs)) := by
  induction ps generalizing cs with
  | nil => exact ⟨[], cs, rfl, rfl, le_rfl, by simp, Iff.rfl⟩
  | cons p ps ih =>
    rw [CharCode.text_cons, likeRun]
    by_cases h37 : code.lead p = 37
    · -- a second star
      have hitem : likeItem code p = .star := by simp [likeItem, h37]
      rw [if_pos h37, trail_wild (.inl h37), List.nil_append]
      apply (ih cs).cons
      rw [List.map_cons, hitem, matches_star_star]
    rw [if_neg h37]
    by_cases h95 : code.lead p = 95
    · -- one character, which may as well be taken before the star
      have hitem : likeItem code p = .any := by simp [likeItem, h95]
      rw [if_pos h95, trail_wild (.inr h95), List.nil_append]
      cases cs with
      | nil =>
        rw [if_pos (by simp)]
        show ¬_
        rw [List.map_cons, hitem, matches_star_nil, Item.any]
        exact matches_one_nil
      | cons c cs =>
        rw [if_neg (by simp [code.lead_ne]), code.nextChar_text]
        apply (ih cs).cons
        rw [List.map_cons, hitem, matches_star_any, Item.any, matches_one_cons]
        simp
    · rw [if_neg h95, ← CharCode.text_cons]
      exact ⟨p :: ps, cs, rfl, rfl, le_rfl, by simp [h37, h95], Iff.rfl⟩

/-- One turn of the search. -/
theorem likeSearch_eq (more : Bytes → Bool) (c : UInt8) (s : Bytes) :
    likeSearch enc more c s = match s.dropWhile fun b => strUpperToLower b != 0 && strUpperToLower b != c with
      | [] => false
      | b :: s' =>
        if strUpperToLower b = 0 then false
        else if more (b :: s') then true
        else likeSearch enc more c (nextChar enc (b :: s')) := by
  rw [likeSearch]
  split
  · rename_i h
    rw [h]
  · rename_i h
    rw [h]

/-- The search tries the characters that begin with the byte, and these only. -/
theorem likeSearch_text {more : Bytes → Bool} {c : UInt8} (hc : enc.cont c = false) (cs : List α) :
    likeSearch enc more c (code.text cs) = true ↔
      ∃ n d ds, cs.drop n = d :: ds ∧ strUpperToLower (code.lead d) = c ∧ more (code.text (d :: ds)) = true := by
  induction cs with
  | nil =>
    rw [likeSearch]
    simp
  | cons d ds ih =>
    have hne : strUpperToLower (code.lead d) ≠ 0 := fun h => code.lead_ne d ((strUpperToLower_eq_zero _).1 h)
    have hsplit : (∃ n e es, (d :: ds).drop n = e :: es ∧ strUpperToLower (code.lead e) = c ∧
        more (code.text (e :: es)) = true) ↔
        (strUpperToLower (code.lead d) = c ∧ more (code.text (d :: ds)) = true) ∨
          ∃ n e es, ds.drop n = e :: es ∧ strUpperToLower (code.lead e) = c ∧
            more (code.text (e :: es)) = true := by
      constructor
      · intro h
        obtain ⟨n, e, es, hdrop, h⟩ := h
        cases n with
        | zero =>
          cases hdrop
          exact .inl h
        | succ n => exact .inr ⟨n, e, es, hdrop, h⟩
      · intro h
        cases h with
        | inl h => exact ⟨0, d, ds, rfl, h⟩
        | inr h =>
          obtain ⟨n, h⟩ := h
          exact ⟨n + 1, h⟩
    rw [hsplit, ← ih]
    by_cases hd : strUpperToLower (code.lead d) = c
    · have hnext := code.nextChar_text d ds
      rw [CharCode.text_cons] at *
      rw [likeSearch_eq, List.dropWhile_cons_of_neg (by simp [hd])]
      dsimp only
      rw [if_neg hne, hnext]
      simp only [hd, true_and]
      cases more (code.lead d :: (code.trail d ++ code.text ds)) <;> simp
    · -- none of its bytes is the one that is looked for
      have htrail : ∀ b ∈ code.trail d, (strUpperToLower b != 0 && strUpperToLower b != c) = true := by
        intro b hb
        have hcont := code.trail_cont d b hb
        have hb0 : b ≠ 0 := code.trail_ne hb
        have hbc : strUpperToLower b ≠ c := by
          intro h
          rw [← cont_strUpperToLower, h, hc] at hcont
          cases hcont
        simpa [hbc, strUpperToLower_eq_zero] using hb0
      have hskip : likeSearch enc more c (code.text (d :: ds)) = likeSearch enc more c (code.text ds) := by
        rw [likeSearch_eq, likeSearch_eq, CharCode.text_cons, List.dropWhile_cons_of_pos (by simp [hd, hne]),
          List.dropWhile_append_of_pos htrail]
      rw [hskip]
      simp [hd]

/-- A `%` and the run it begins. -/
theorem strLikeCmp_percent (p s : Bytes) : strLikeCmp enc (37 :: p) s = match likeRun enc p s with
    | none => false
    | some ([], _) => true
    | some (c :: p', s') =>
      if c = 0 then true else likeSearch enc (strLikeCmp enc (c :: p')) (strUpperToLower c) s' := by
  have h37 : strUpperToLower 37 = 37 := rfl
  rw [strLikeCmp]
  simp only [h37, if_true]
  rw [if_neg (by decide)]
  split <;> rename_i h <;> rw [h]

/-- Bytes that are no wildcards are compared one by one. -/
theorem strLikeCmp_literal {t p : Bytes} (ht : ∀ b ∈ t, b ≠ 0 ∧ b ≠ 37 ∧ b ≠ 95) (s : Bytes) :
    strLikeCmp enc (t ++ p) s = true ↔ ∃ t' s', s = t' ++ s' ∧
      t'.map strUpperToLower = t.map strUpperToLower ∧ strLikeCmp enc p s' = true := by
  induction t generalizing s with
  | nil => simp
  | cons b t ih =>
    obtain ⟨hb, ht⟩ := List.forall_mem_cons.1 ht
    have hwild : strUpperToLower b ≠ 0 ∧ strUpperToLower b ≠ 37 ∧ strUpperToLower b ≠ 95 := by
      simpa [strUpperToLower_iff, strUpperToLower_eq_zero] using hb
    rw [List.cons_append, strLikeCmp]
    simp only [hwild.1, hwild.2.1, hwild.2.2, if_false]
    cases s with
    | nil =>
      have h0 : strUpperToLower 0 = 0 := rfl
      simp [h0, hwild.1]
    | cons c s =>
      simp only [peek_cons, List.drop_one, List.tail_cons]
      by_cases hc : strUpperToLower b = strUpperToLower c
      · rw [if_neg (not_not.2 hc), ih ht]
        constructor
        · intro h
          obtain ⟨t', s', rfl, hmap, h⟩ := h
          exact ⟨c :: t', s', rfl, by simp [hc, hmap], h⟩
        · intro h
          obtain ⟨t', s', hs, hmap, h⟩ := h
          cases t' with
          | nil => simp at hmap
          | cons c' t' =>
            simp only [List.cons_append, List.cons.injEq, List.map_cons] at hs hmap
            exact ⟨t', s', hs.2, hmap.2, h⟩
      · rw [if_pos hc]
        simp only [Bool.false_eq_true, false_iff, not_exists, not_and]
        intro t' s' hs hmap
        cases t' with
        | nil => simp at hmap
        | cons c' t' =>
          simp only [List.cons_append, List.cons.injEq, List.map_cons] at hs hmap
          exact absurd (hs.1 ▸ hmap.1).symm hc

/-- A character that is no wildcard matches itself. -/
theorem strLikeCmp_char {p : α} (hp : code.lead p ≠ 37 ∧ code.lead p ≠ 95) (ps cs : List α) :
    strLikeCmp enc (code.text (p :: ps)) (code.text cs) = true ↔
      ∃ c cs', cs = c :: cs' ∧ code.same p c = true ∧ strLikeCmp enc (code.text ps) (code.text cs') = true := by
  have hbytes : ∀ b ∈ code.bytes p, b ≠ 0 ∧ b ≠ 37 ∧ b ≠ 95 := by
    intro b hb
    cases hb with
    | head => exact ⟨code.lead_ne p, hp⟩
    | tail _ hb =>
      have h128 := toNat_of_cont (code.trail_cont p b hb)
      exact ⟨code.trail_ne hb, by rintro rfl; simp at h128, by rintro rfl; simp at h128⟩
  have htext : code.text (p :: ps) = code.bytes p ++ code.text ps := rfl
  rw [htext, strLikeCmp_literal hbytes]
  constructor
  · intro h
    obtain ⟨t', s', hs, hmap, hrest⟩ := h
    cases t' with
    | nil => simp [CharCode.bytes] at hmap
    | cons b t' =>
      simp only [CharCode.bytes, List.map_cons, List.cons.injEq] at hmap
      cases cs with
      | nil => simp at hs
      | cons c cs =>
        simp only [CharCode.text_cons, List.cons_append, List.cons.injEq] at hs
        obtain ⟨rfl, hs⟩ := hs
        -- the leading bytes tell that the characters have one length
        have hlen : (code.trail c).length = t'.length := by
          have := congrArg List.length hmap.2
          simp only [List.length_map] at this
          rw [this]
          exact code.trail_length hmap.1
        obtain ⟨rfl, rfl⟩ := List.append_inj hs hlen
        exact ⟨c, cs, rfl, code.same_iff.2 ⟨hmap.1.symm, hmap.2.symm⟩, hrest⟩
  · intro h
    obtain ⟨c, cs', rfl, hsame, hrest⟩ := h
    have hsame := code.same_iff.1 hsame
    exact ⟨code.bytes c, code.text cs', rfl, by simp [CharCode.bytes, hsame.1, hsame.2], hrest⟩

/-- **On the texts of an encoding the answer is that of the wildcard pattern.** -/
theorem strLikeCmp_text (ps cs : List α) :
    strLikeCmp enc (code.text ps) (code.text cs) = true ↔ Matches (ps.map (likeItem code)) cs := by
  induction hn : ps.length using Nat.strong_induction_on generalizing ps cs with
  | _ n ih =>
    cases ps with
    | nil =>
      rw [CharCode.text_nil, strLikeCmp]
      simp [peek_text]
    | cons p ps =>
      rw [List.length_cons] at hn
      by_cases h37 : code.lead p = 37
      · have hitem : likeItem code p = .star := by simp [likeItem, h37]
        rw [List.map_cons, hitem, CharCode.text_cons, trail_wild (.inl h37), List.nil_append, h37,
          strLikeCmp_percent]
        have hrun := @likeRun_text enc α code ps cs
        cases hr : likeRun enc (code.text ps) (code.text cs) with
        | none =>
          rw [hr] at hrun
          exact iff_of_false Bool.false_ne_true hrun
        | some r =>
          rw [hr] at hrun
          obtain ⟨qs, ds, hrest, hstring, hlen, hhead, hm⟩ := hrun
          obtain ⟨rest, string⟩ := r
          dsimp only at hrest hstring
          subst hrest hstring
          rw [hm]
          cases qs with
          | nil => simp [matches_star_end]
          | cons q qs =>
            have hq := hhead q rfl
            rw [List.length_cons] at hlen
            have hcont : enc.cont (strUpperToLower (code.lead q)) = false := by
              rw [cont_strUpperToLower, code.lead_cont]
            have hsearch := @likeSearch_text enc α code (strLikeCmp enc (code.text (q :: qs))) _ hcont ds
            have hitem : likeItem code q = .one (code.same q) := by simp [likeItem, hq.1, hq.2]
            rw [CharCode.text_cons] at hsearch ⊢
            dsimp only
            rw [if_neg (code.lead_ne q), hsearch, ← CharCode.text_cons, List.map_cons, hitem, matches_star]
            refine exists_congr fun k => ?_
            constructor
            · intro h
              obtain ⟨d, ds', hdrop, -, h⟩ := h
              rw [hdrop, ← hitem, ← List.map_cons]
              exact (ih _ (by simp; omega) (q :: qs) _ rfl).1 h
            · intro h
              obtain ⟨d, ds', hdrop⟩ : ∃ d ds', ds.drop k = d :: ds' := by
                cases hd : ds.drop k with
                | nil =>
                  rw [hd] at h
                  exact absurd h matches_one_nil
                | cons d ds' => exact ⟨d, ds', rfl⟩
              rw [hdrop] at h
              have hlead := (code.same_iff.1 (matches_one_cons.1 h).1).1
              refine ⟨d, ds', hdrop, hlead.symm, ?_⟩
              rw [← hitem, ← List.map_cons] at h
              exact (ih _ (by simp; omega) (q :: qs) _ rfl).2 h
      by_cases h95 : code.lead p = 95
      · have hitem : likeItem code p = .any := by simp [likeItem, h95]
        have hlow : strUpperToLower 95 = 95 := rfl
        rw [List.map_cons, hitem, CharCode.text_cons, trail_wild (.inr h95), List.nil_append, h95, strLikeCmp]
        simp only [hlow]
        rw [if_neg (by decide), if_neg (by decide), if_pos trivial]
        cases cs with
        | nil => simp [Item.any]
        | cons c cs =>
          rw [if_neg (by simp [code.lead_ne]), code.nextChar_text, ih _ (by omega) ps cs rfl, Item.any,
            matches_one_cons]
          simp
      · have hitem : likeItem code p = .one (code.same p) := by simp [likeItem, h37, h95]
        rw [strLikeCmp_char ⟨h37, h95⟩, List.map_cons, hitem]
        cases cs with
        | nil => simp
        | cons c cs =>
          rw [matches_one_cons, ← ih _ (by omega) ps cs rfl]
          simp

end

/-! ## The two builds -/

/-- What a character of a LIKE pattern stands for. -/
def likeChar (c : Letter) : Item Letter :=
  if c.1 = '%' then .star else if c.1 = '_' then .any else .one fun d => c.1.toLower == d.1.toLower

theorem likeItem_utf8 : likeItem utf8 = likeChar := by
  funext c
  have hpercent : utf8.lead c = 37 ↔ c.1 = '%' := by
    rw [lead_utf8_iff c (by decide), ← Char.toNat_inj]
    rfl
  have hunder : utf8.lead c = 95 ↔ c.1 = '_' := by
    rw [lead_utf8_iff c (by decide), ← Char.toNat_inj]
    rfl
  simp only [likeItem, likeChar, hpercent, hunder]
  rfl

/-- **LIKE**: `%` is any characters, `_` is one, and every other character is itself but for the case of
ASCII. The characters are those of UTF-8, or bytes if the library is built for ISO 8859. -/
theorem strLikeCmp_iff :
    (∀ pattern string : List Letter, strLikeCmp .utf8 (utf8.text pattern) (utf8.text string) = true ↔
      Matches (pattern.map likeChar) string) ∧
    ∀ pattern string : List Byte, strLikeCmp .iso8859 (iso8859.text pattern) (iso8859.text string) = true ↔
      Matches (pattern.map (likeItem iso8859)) string := by
  constructor
  · intro pattern string
    rw [strLikeCmp_text, likeItem_utf8]
  · intro pattern string
    exact strLikeCmp_text pattern string

end Dbsql.L5.Func.Like
