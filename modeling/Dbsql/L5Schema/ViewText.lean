import Dbsql.L5Parse.CutText
/-!
# The text of a view (cg_build.c:1335-1400)

`__create_view` stores the text of its statement. It looks for the end from the last token of the
scanner backwards: from the semicolon, or from the end of the input. The loop should skip white
space and semicolons, but its test is the wrong way round: it skips what is not one, and stops at
the last byte that is. The text ends there.

So the last word of the statement is lost unless white space follows it. Where there is no such
byte at all the length comes out as 0 or -1, and the text is all of the input from CREATE on.

Results:
* `viewText_eq`: what is stored.
* `viewText_iff`: when that is the text of the statement, and when it has its tokens.
-/
namespace Dbsql.L5.Parse
open Dbsql.L1

/-! ## The code -/

/-- The loop, at `z`. -/
def endLoop (mem : Int → UInt8) (begin_ : Int) : Nat → Int → Int
  | 0, z => z
  | fuel + 1, z =>
    if begin_ ≤ z then
      if isStop (mem (z - 1)) then z - 1 else endLoop mem begin_ fuel (z - 1)
    else z - 1

/-- The end of the text (cg_build.c:1383-1394); the last token is at `zLast` and `nLast` bytes long. -/
def createViewEnd (mem : Int → UInt8) (begin_ : Int) (zLast nLast : Nat) : Int :=
  let z : Int := if mem zLast ≠ 0 ∧ mem zLast ≠ 59 then zLast + nLast else zLast
  endLoop mem begin_ (z - begin_ + 2).toNat z

/-- The bytes from `sql` on; `out` is the one in front of it. -/
def memoryOf (out : UInt8) (sql : Bytes) (i : Int) : UInt8 := if i < 0 then out else byteAt sql i.toNat

/-- The text (cg_build.c:1283-1285): `__vdbe_change_p3` takes a length of 0 for that of the string,
and one of -1 for `P3_DYNAMIC`, with the string itself as the text. -/
def createViewText (out : UInt8) (sql : Bytes) (begin_ zLast nLast : Nat) : Bytes :=
  let n := createViewEnd (memoryOf out sql) begin_ zLast nLast - begin_ + 1
  if n ≤ 0 then sql.drop begin_ else (sql.drop begin_).take n.toNat

/-! ## The statement -/

/-- The texts of tokens. -/
def textOf (ts : List (Tk × Bytes)) : Bytes := (ts.map Prod.snd).flatten

/-- A CREATE VIEW statement in a string: `body` from CREATE to the last token of its SELECT, then a
gap up to the semicolon or the end. The parser takes no semicolon as part of it. -/
structure ViewSql where
  out : UInt8
  pre : Bytes
  tb : List (Tk × Bytes)
  tg : List (Tk × Bytes)
  tr : List (Tk × Bytes)
  scan : tokens (textOf (tb ++ tg ++ tr)) = tb ++ tg ++ tr
  nulFree : 0 ∉ textOf (tb ++ tg ++ tr)
  last : ∃ t, tb.getLast? = some t ∧ skipped t.1 = false
  noSemi : ∀ t ∈ tb, t.1 ≠ .semi
  gap : ∀ t ∈ tg, skipped t.1 = true
  semi : ∀ t, tr.head? = some t → t.1 = .semi

namespace ViewSql

def body (v : ViewSql) : Bytes := textOf v.tb

/-- The string. -/
def sql (v : ViewSql) : Bytes := v.pre ++ textOf (v.tb ++ v.tg ++ v.tr)

/-- `sLastToken`: the semicolon, or at the end of the string the last token of any kind. -/
def lastToken (v : ViewSql) : Nat × Nat :=
  match v.tr with
  | t :: _ => ((v.pre ++ textOf (v.tb ++ v.tg)).length, t.2.length)
  | [] =>
    let n := (((v.tb ++ v.tg).getLast?.map Prod.snd).getD []).length
    (v.sql.length - n, n)

/-- What is stored for the view. -/
def stored (v : ViewSql) : Bytes := createViewText v.out v.sql v.pre.length v.lastToken.1 v.lastToken.2

end ViewSql

/-! ## The loop -/

/-- The loop comes to the last stop of a text, or to a place before it. -/
theorem endLoop_spec {mem : Int → UInt8} {begin_ : Int} (w : Bytes) : ∀ (fuel : Nat),
    (∀ (i : Nat) c, w[i]? = some c → mem (begin_ + i) = c) → w.length + 2 ≤ fuel →
    (∀ a c b, w = a ++ c :: b → isStop c = true → (∀ x ∈ b, isStop x = false) →
      endLoop mem begin_ fuel (begin_ + w.length) = begin_ + a.length) ∧
    ((∀ x ∈ w, isStop x = false) → endLoop mem begin_ fuel (begin_ + w.length) < begin_) := by
  induction w using List.reverseRecOn with
  | nil =>
    intro fuel _ hfuel
    obtain ⟨fuel, rfl⟩ : ∃ k, fuel = k + 2 := ⟨fuel - 2, by simp at hfuel; omega⟩
    refine ⟨fun a c b h => by simp at h, fun _ => ?_⟩
    rw [List.length_nil, Nat.cast_zero, Int.add_zero, endLoop, if_pos le_rfl]
    split
    · omega
    · rw [endLoop, if_neg (by omega)]
      omega
  | append_singleton w x ih =>
    intro fuel hmem hfuel
    rw [List.length_append, List.length_singleton] at hfuel
    obtain ⟨fuel, rfl⟩ : ∃ k, fuel = k + 1 := ⟨fuel - 1, by omega⟩
    have hx : mem (begin_ + (w ++ [x]).length - 1) = x := by
      have h := hmem w.length x (by simp)
      rw [← h, List.length_append, List.length_singleton]
      congr 1
      omega
    have hz : begin_ + ((w ++ [x]).length : Int) - 1 = begin_ + w.length := by
      rw [List.length_append, List.length_singleton]
      omega
    rw [endLoop, if_pos (by omega), hx, hz]
    obtain ⟨hstop, hnone⟩ := ih fuel (fun i c h => hmem i c (by
      rw [List.getElem?_append_left (List.getElem?_eq_some_iff.1 h).1, h])) (by omega)
    cases hc : isStop x with
    | true =>
      rw [if_pos rfl]
      constructor
      · intro a c b h _ hb
        obtain rfl | ⟨b', y, rfl⟩ := b.eq_nil_or_concat
        · rw [(List.append_inj' h rfl).1]
        · rw [List.concat_eq_append, ← List.cons_append, ← List.append_assoc] at h
          obtain ⟨-, hxy⟩ := List.append_inj' h rfl
          rw [List.cons.inj hxy |>.1, hb y (by simp)] at hc
          cases hc
      · intro h
        rw [h x (by simp)] at hc
        cases hc
    | false =>
      rw [if_neg Bool.false_ne_true]
      constructor
      · intro a c b h hsc hb
        obtain rfl | ⟨b', y, rfl⟩ := b.eq_nil_or_concat
        · obtain ⟨-, hxc⟩ := List.append_inj' h rfl
          rw [List.cons.inj hxc |>.1, hsc] at hc
          cases hc
        · rw [List.concat_eq_append, ← List.cons_append, ← List.append_assoc] at h
          obtain ⟨hw, -⟩ := List.append_inj' h rfl
          exact hstop a c b' hw hsc fun z hz => hb z (by simp [hz])
      · exact fun h => hnone fun y hy => h y (List.mem_append_left _ hy)

/-! ## What is stored -/

theorem textOf_append (ts us : List (Tk × Bytes)) : textOf (ts ++ us) = textOf ts ++ textOf us := by
  rw [textOf, List.map_append, List.flatten_append]
  rfl

theorem textOf_cons (t : Tk × Bytes) (ts : List (Tk × Bytes)) : textOf (t :: ts) = t.2 ++ textOf ts := rfl

namespace ViewSql
variable (v : ViewSql)

/-- The statement and the gap: what the loop goes over. -/
def scanned : Bytes := textOf (v.tb ++ v.tg)

theorem mem_scan {t : Tk × Bytes} (h : t ∈ v.tb ++ v.tg ++ v.tr) : ∃ c w, t.2 = c :: w ∧ (t.1 = .semi ↔ c = 59) :=
  mem_tokens (v.scan ▸ h)

/-- A byte of the statement or of what is behind it. -/
theorem memory_text {i : Nat} {c : UInt8} (h : (textOf (v.tb ++ v.tg ++ v.tr))[i]? = some c) :
    memoryOf v.out v.sql (v.pre.length + i) = c := by
  rw [memoryOf, if_neg (by omega)]
  have hnat : ((v.pre.length : Int) + (i : Int)).toNat = v.pre.length + i := by omega
  rw [hnat, byteAt, List.getD_eq_getElem?_getD, sql, List.getElem?_append_right (Nat.le_add_right _ _),
    Nat.add_sub_cancel_left, h, Option.getD_some]

/-- The loop starts at the end of the gap. -/
theorem start_eq : (if memoryOf v.out v.sql v.lastToken.1 ≠ 0 ∧ memoryOf v.out v.sql v.lastToken.1 ≠ 59 then
    ((v.lastToken.1 : Int) + v.lastToken.2) else v.lastToken.1) = v.pre.length + v.scanned.length := by
  cases htr : v.tr with
  | cons t ts =>
    have hlast : v.lastToken = ((v.pre ++ v.scanned).length, t.2.length) := by
      rw [lastToken, htr]
      rfl
    obtain ⟨c, w, hw, hc⟩ := v.mem_scan (t := t) (by rw [htr]; simp)
    have hbyte : memoryOf v.out v.sql (v.pre.length + v.scanned.length) = 59 := by
      rw [← hc.1 (v.semi t (by rw [htr]; rfl))]
      refine v.memory_text ?_
      rw [textOf_append, htr, textOf_cons, hw]
      exact (List.getElem?_append_right le_rfl).trans (by rw [Nat.sub_self]; rfl)
    rw [hlast, List.length_append, Nat.cast_add, hbyte, if_neg (by simp)]
  | nil =>
    obtain ⟨ts, u, hts⟩ : ∃ ts u, v.tb ++ v.tg = ts ++ [u] := by
      obtain ⟨t, ht, -⟩ := v.last
      obtain hnil | ⟨ts, u, hu⟩ := (v.tb ++ v.tg).eq_nil_or_concat
      · rw [(List.append_eq_nil_iff.1 hnil).1] at ht
        cases ht
      · exact ⟨ts, u, hu.trans List.concat_eq_append⟩
    have hmem : u ∈ v.tb ++ v.tg := hts ▸ List.mem_append_right _ (List.mem_singleton_self u)
    have htext : textOf (v.tb ++ v.tg ++ v.tr) = textOf ts ++ u.2 := by
      rw [htr, List.append_nil, hts, textOf_append, textOf_cons]
      exact congrArg _ (List.append_nil _)
    have hscanned : v.scanned = textOf ts ++ u.2 := by
      rw [← htext, scanned, htr, List.append_nil]
    have hlen : v.sql.length - u.2.length = v.pre.length + (textOf ts).length := by
      rw [sql, htext, List.length_append, List.length_append]
      omega
    have hlast : v.lastToken = (v.pre.length + (textOf ts).length, u.2.length) := by
      rw [lastToken, htr, hts, List.getLast?_concat, ← hlen]
      rfl
    obtain ⟨c, w, hw, hc⟩ := v.mem_scan (List.mem_append_left _ hmem)
    have hbyte : memoryOf v.out v.sql (v.pre.length + (textOf ts).length) = c := by
      refine v.memory_text ?_
      rw [htext, List.getElem?_append_right le_rfl, Nat.sub_self, hw]
      rfl
    have h0 : c ≠ 0 := by
      rintro rfl
      exact v.nulFree (by rw [htext, hw]; simp)
    have hsemi : c ≠ 59 := by
      refine fun h => ?_
      rcases List.mem_append.1 hmem with hu | hu
      · exact v.noSemi u hu (hc.2 h)
      · have hskip := v.gap u hu
        rw [hc.2 h] at hskip
        cases hskip
    rw [hlast, Nat.cast_add, hbyte, if_pos ⟨h0, hsemi⟩, hscanned, List.length_append, Nat.cast_add, Int.add_assoc]

theorem createViewEnd_eq : createViewEnd (memoryOf v.out v.sql) v.pre.length v.lastToken.1 v.lastToken.2 =
    endLoop (memoryOf v.out v.sql) v.pre.length (v.scanned.length + 2) (v.pre.length + v.scanned.length) := by
  rw [createViewEnd, v.start_eq]
  congr 1
  omega

/-- **What is stored**: the text up to its last stop, or all of the input. -/
theorem stored_eq : (∀ a c b, v.scanned = a ++ c :: b → isStop c = true → (∀ x ∈ b, isStop x = false) →
      v.stored = a ++ [c]) ∧
    ((∀ x ∈ v.scanned, isStop x = false) → v.stored = textOf (v.tb ++ v.tg ++ v.tr)) := by
  have htext : textOf (v.tb ++ v.tg ++ v.tr) = v.scanned ++ textOf v.tr := textOf_append _ _
  have hdrop : v.sql.drop v.pre.length = textOf (v.tb ++ v.tg ++ v.tr) := List.drop_left
  obtain ⟨hstop, hnone⟩ := endLoop_spec v.scanned (v.scanned.length + 2) (fun i c h =>
    v.memory_text (by rw [htext, List.getElem?_append_left (List.getElem?_eq_some_iff.1 h).1, h])) le_rfl
  rw [stored, createViewText, v.createViewEnd_eq]
  constructor
  · intro a c b h hc hb
    rw [hstop a c b h hc hb, if_neg (by omega), hdrop, htext, h]
    have hn : ((v.pre.length : Int) + a.length - v.pre.length + 1).toNat = (a ++ [c]).length := by
      rw [List.length_append, List.length_singleton]
      omega
    have hsplit : a ++ c :: b ++ textOf v.tr = (a ++ [c]) ++ (b ++ textOf v.tr) := by simp
    rw [hn, hsplit, List.take_left]
  · intro h
    have := hnone h
    rw [if_pos (by omega), hdrop]

end ViewSql

/-! ## Its tokens -/

/-- Tokens that a cut leaves whole. -/
theorem cutTokens_append (us : List (Tk × Bytes)) (ts : List (Tk × Bytes)) : ∀ {m : Nat},
    (∀ t ∈ ts, t.2 ≠ []) → (textOf ts).length ≤ m →
    cutTokens (ts ++ us) m = ts ++ cutTokens us (m - (textOf ts).length) := by
  induction ts with
  | nil => exact fun _ _ => rfl
  | cons t ts ih =>
    intro m hne hle
    have hpos := List.length_pos_of_ne_nil (hne t List.mem_cons_self)
    rw [textOf_cons, List.length_append] at hle
    rw [List.cons_append, cutTokens_cons (by omega), ih (fun u hu => hne u (List.mem_cons_of_mem _ hu)) (by omega),
      List.take_of_length_le (by omega), textOf_cons, List.length_append, Nat.sub_sub]
    rfl

/-- A cut within the first tokens. -/
theorem cutTokens_left (us : List (Tk × Bytes)) (ts : List (Tk × Bytes)) : ∀ {m : Nat},
    m ≤ (textOf ts).length → cutTokens (ts ++ us) m = cutTokens ts m := by
  induction ts with
  | nil =>
    intro m hle
    obtain rfl : m = 0 := Nat.le_zero.1 hle
    rw [cutTokens_zero, cutTokens_zero]
  | cons t ts ih =>
    intro m hle
    rw [textOf_cons, List.length_append] at hle
    cases m with
    | zero => rw [cutTokens_zero, cutTokens_zero]
    | succ m =>
      rw [List.cons_append, cutTokens_cons (by omega), cutTokens_cons (by omega), ih (by omega)]

/-- A cut makes no token of another type. -/
theorem mem_cutTokens {t : Tk × Bytes} (ts : List (Tk × Bytes)) : ∀ {m : Nat}, t ∈ cutTokens ts m →
    ∃ u ∈ ts, u.1 = t.1 := by
  induction ts with
  | nil => exact fun h => absurd h List.not_mem_nil
  | cons u ts ih =>
    intro m h
    cases m with
    | zero => exact absurd h List.not_mem_nil
    | succ m =>
      rw [cutTokens_cons (by omega)] at h
      rcases List.mem_cons.1 h with rfl | h
      · exact ⟨u, List.mem_cons_self, rfl⟩
      · obtain ⟨u', hu', heq⟩ := ih h
        exact ⟨u', List.mem_cons_of_mem _ hu', heq⟩

/-- The bytes of the tokens that the parser gets. -/
def weight (ts : List (Tk × Bytes)) : Nat := (textOf (parsed ts)).length

theorem weight_cons (t : Tk × Bytes) (ts : List (Tk × Bytes)) :
    weight (t :: ts) = (if skipped t.1 then 0 else t.2.length) + weight ts := by
  rw [weight, parsed_cons]
  split
  · exact (Nat.zero_add _).symm
  · rw [textOf_cons, List.length_append]
    rfl

/-- Tokens that end with one for the parser have bytes for it. -/
theorem weight_pos {t : Tk × Bytes} (ts : List (Tk × Bytes)) (hlast : ts.getLast? = some t) (ht : skipped t.1 = false)
    (hne : t.2 ≠ []) : 0 < weight ts := by
  have hmem : t ∈ parsed ts := List.mem_filter.2 ⟨List.mem_of_getLast? hlast, by rw [ht]; rfl⟩
  obtain ⟨as, bs, h⟩ := List.append_of_mem hmem
  have hpos := List.length_pos_of_ne_nil hne
  rw [weight, h, textOf_append, textOf_cons, List.length_append, List.length_append]
  omega

/-- A cut takes bytes from the parser. By induction on the tokens. -/
theorem weight_cutTokens {t : Tk × Bytes} (ht : skipped t.1 = false) (ts : List (Tk × Bytes)) : ∀ {m : Nat},
    ts.getLast? = some t → (∀ u ∈ ts, u.2 ≠ []) → m < (textOf ts).length →
    weight (cutTokens ts m) < weight ts := by
  induction ts with
  | nil => exact fun h => nomatch h
  | cons u ts ih =>
    intro m hlast hne hm
    have hpos := weight_pos (u :: ts) hlast ht (hne t (List.mem_of_getLast? hlast))
    rcases Nat.eq_zero_or_pos m with rfl | hm0
    · rw [cutTokens_zero]
      exact hpos
    rw [cutTokens_cons hm0, weight_cons, weight_cons]
    rw [textOf_cons, List.length_append] at hm
    dsimp only
    rw [List.length_take]
    rcases Nat.lt_or_ge m u.2.length with hlt | hge
    · have hsub : m - u.2.length = 0 := by omega
      rw [hsub, cutTokens_zero]
      have hzero : weight [] = 0 := rfl
      rw [weight_cons] at hpos
      rw [hzero]
      split
      · rename_i hskip
        rw [if_pos hskip] at hpos
        omega
      · omega
    · have hts : ts ≠ [] := by
        rintro rfl
        have hnil : (textOf []).length = 0 := rfl
        omega
      have hlast' : ts.getLast? = some t := by
        rwa [List.getLast?_cons_of_ne_nil hts] at hlast
      have hcut : weight (cutTokens ts (m - u.2.length)) < weight ts :=
        ih hlast' (fun v hv => hne v (List.mem_cons_of_mem _ hv)) (by omega)
      rw [Nat.min_eq_right hge]
      omega

/-! ## When the text is kept -/

/-- A text without a stop, or with a last one. -/
theorem lastStop_cases (w : Bytes) : (∀ x ∈ w, isStop x = false) ∨
    ∃ a c b, w = a ++ c :: b ∧ isStop c = true ∧ ∀ x ∈ b, isStop x = false := by
  induction w with
  | nil => exact .inl (List.forall_mem_nil _)
  | cons x w ih =>
    rcases ih with hnone | ⟨a, c, b, rfl, hc, hb⟩
    · cases hx : isStop x with
      | true => exact .inr ⟨[], x, w, rfl, hx, hnone⟩
      | false =>
        refine .inl fun y hy => ?_
        rcases List.mem_cons.1 hy with rfl | hy
        · exact hx
        · exact hnone y hy
    · exact .inr ⟨x :: a, c, b, rfl, hc, hb⟩

namespace ViewSql
variable (v : ViewSql)

/-- The last byte of the statement is a stop: it ends in a string, or a name in brackets, that
nothing closes. -/
def endsOpen : Prop := ∃ c, v.body.getLast? = some c ∧ isStop c = true

/-- There is a stop in the gap. -/
def gapStop : Prop := ∃ c ∈ textOf v.tg, isStop c = true

/-- There is none from CREATE to the end of the gap. -/
def noStop : Prop := ∀ c ∈ v.scanned, isStop c = false

theorem scanned_eq : v.scanned = v.body ++ textOf v.tg := textOf_append _ _

theorem text_ne_nil {t : Tk × Bytes} (h : t ∈ v.tb ++ v.tg ++ v.tr) : t.2 ≠ [] := by
  obtain ⟨c, w, hw, -⟩ := v.mem_scan h
  rw [hw]
  exact List.cons_ne_nil c w

/-- The tokens of a text that ends at a stop. -/
theorem tokens_stop {a b : Bytes} {c : UInt8} (h : v.scanned = a ++ c :: b) (hc : isStop c = true) :
    tokens (a ++ [c]) = cutTokens (v.tb ++ v.tg ++ v.tr) (a.length + 1) := by
  have htext : textOf (v.tb ++ v.tg ++ v.tr) = a ++ c :: (b ++ textOf v.tr) := by
    rw [textOf_append]
    change v.scanned ++ _ = _
    rw [h, List.append_assoc, List.cons_append]
  have htake : a ++ [c] = (textOf (v.tb ++ v.tg ++ v.tr)).take (a.length + 1) := by
    rw [htext, List.take_append, List.take_of_length_le (Nat.le_succ _), Nat.add_sub_cancel_left]
    rfl
  have hbyte : byteAt (textOf (v.tb ++ v.tg ++ v.tr)) (a.length + 1 - 1) = c := by
    rw [htext, byteAt, Nat.add_sub_cancel, List.getD_eq_getElem?_getD, List.getElem?_append_right le_rfl, Nat.sub_self]
    rfl
  rw [htake, tokens_take (Nat.succ_pos _) (hbyte ▸ hc), v.scan]

/-- The last stop is in the gap, or in the statement and there is none in the gap. -/
theorem split_cases {a b : Bytes} {c : UInt8} (h : v.scanned = a ++ c :: b) :
    (∃ g, a = v.body ++ g ∧ textOf v.tg = g ++ c :: b) ∨ ∃ b', v.body = a ++ c :: b' ∧ b = b' ++ textOf v.tg := by
  rw [v.scanned_eq] at h
  rcases List.append_eq_append_iff.1 h with ⟨g, ha, hg⟩ | ⟨w, hbody, hw⟩
  · exact .inl ⟨g, ha, hg⟩
  · cases w with
    | nil => exact .inl ⟨[], by rw [hbody, List.append_nil, List.append_nil], hw.symm⟩
    | cons x w =>
      obtain ⟨rfl, hb⟩ := List.cons.inj hw
      exact .inr ⟨w, hbody, hb⟩

/-- The last byte of a text with a last stop. -/
theorem endsOpen_iff {a b : Bytes} {c : UInt8} (h : v.body = a ++ c :: b) (hc : isStop c = true)
    (hb : ∀ x ∈ b, isStop x = false) : v.endsOpen ↔ b = [] := by
  constructor
  · rintro ⟨x, hx, hstop⟩
    obtain rfl | ⟨b', y, rfl⟩ := b.eq_nil_or_concat
    · rfl
    · rw [h, List.concat_eq_append, ← List.cons_append, ← List.append_assoc, List.getLast?_concat,
        Option.some.injEq] at hx
      subst hx
      rw [hb y (by simp)] at hstop
      cases hstop
  · rintro rfl
    exact ⟨c, by rw [h, List.getLast?_concat], hc⟩

/-- No stop, none in the gap and none at the end. -/
theorem noStop_none (h : v.noStop) : ¬ v.gapStop ∧ ¬ v.endsOpen := by
  constructor
  · rintro ⟨x, hx, hs⟩
    rw [h x (by rw [v.scanned_eq]; exact List.mem_append_right _ hx)] at hs
    cases hs
  · rintro ⟨x, hx, hs⟩
    rw [h x (by rw [v.scanned_eq]; exact List.mem_append_left _ (List.mem_of_getLast? hx))] at hs
    cases hs

/-- The text that is stored is the text of the statement. -/
theorem stored_body_iff : v.stored = v.body ↔
    v.endsOpen ∧ ¬ v.gapStop ∨ textOf (v.tg ++ v.tr) = [] ∧ v.noStop := by
  obtain ⟨hstop, hnone⟩ := v.stored_eq
  rcases lastStop_cases v.scanned with hno | ⟨a, c, b, h, hc, hb⟩
  · obtain ⟨-, hopen⟩ := v.noStop_none hno
    have htext : textOf (v.tb ++ v.tg ++ v.tr) = v.body ++ textOf (v.tg ++ v.tr) := by
      rw [List.append_assoc, textOf_append]
      rfl
    rw [hnone hno, htext, or_iff_right fun h => hopen h.1, List.append_right_eq_self, iff_self_and]
    exact fun _ => hno
  · have hsome : ¬ v.noStop := by
      intro hno
      rw [hno c (by rw [h]; simp)] at hc
      cases hc
    rw [hstop a c b h hc hb, or_iff_left fun h => hsome h.2]
    rcases v.split_cases h with ⟨g, ha, hg⟩ | ⟨b', hbody, rfl⟩
    · have hgap : v.gapStop := ⟨c, by rw [hg]; simp, hc⟩
      refine iff_of_false (fun heq => ?_) fun h => h.2 hgap
      have hlen := congrArg List.length heq
      rw [ha, List.length_append, List.length_append, List.length_singleton] at hlen
      omega
    · have hgap : ¬ v.gapStop := by
        rintro ⟨x, hx, hs⟩
        rw [hb x (List.mem_append_right _ hx)] at hs
        cases hs
      rw [and_iff_left hgap, v.endsOpen_iff hbody hc fun x hx => hb x (List.mem_append_left _ hx), hbody,
        List.append_cancel_left_eq, List.cons.injEq]
      exact ⟨fun h => h.2.symm, fun h => ⟨rfl, h.symm⟩⟩

/-- The tokens of all the input are those of the statement when it ends with the gap. -/
theorem parsed_all_iff : parsed (v.tb ++ v.tg ++ v.tr) = parsed v.tb ↔ v.tr = [] := by
  rw [parsed_append, parsed_append, parsed_eq_nil v.gap, List.append_nil, List.append_right_eq_self]
  cases htr : v.tr with
  | nil => exact iff_of_true rfl rfl
  | cons t ts =>
    have hsemi : skipped t.1 = false := by
      rw [v.semi t (by rw [htr]; rfl)]
      rfl
    refine iff_of_false (fun h => ?_) (List.cons_ne_nil t ts)
    rw [parsed_cons, hsemi, if_neg Bool.false_ne_true] at h
    exact List.cons_ne_nil _ _ h

/-- The text that is stored has the tokens of the statement. -/
theorem stored_parsed_iff : parsed (tokens v.stored) = parsed v.tb ↔
    v.gapStop ∨ v.endsOpen ∨ v.tr = [] ∧ v.noStop := by
  obtain ⟨hstop, hnone⟩ := v.stored_eq
  have hne : ∀ t ∈ v.tb, t.2 ≠ [] := fun t ht => v.text_ne_nil (List.mem_append_left _ (List.mem_append_left _ ht))
  rcases lastStop_cases v.scanned with hno | ⟨a, c, b, h, hc, hb⟩
  · obtain ⟨hgap, hopen⟩ := v.noStop_none hno
    rw [hnone hno, v.scan, v.parsed_all_iff, or_iff_right hgap, or_iff_right hopen, iff_self_and]
    exact fun _ => hno
  · have hsome : ¬ v.noStop := by
      intro hno
      rw [hno c (by rw [h]; simp)] at hc
      cases hc
    have hcond : v.gapStop ∨ v.endsOpen ∨ v.tr = [] ∧ v.noStop ↔ v.gapStop ∨ v.endsOpen := by
      rw [← or_assoc, or_iff_left fun h => hsome h.2]
    rw [hstop a c b h hc hb, v.tokens_stop h hc, List.append_assoc, hcond]
    rcases v.split_cases h with ⟨g, ha, hg⟩ | ⟨b', hbody, rfl⟩
    · -- the cut is in the gap, of which the parser gets nothing
      have hlen : a.length = v.body.length + g.length := by
        rw [ha, List.length_append]
      have hin : a.length + 1 - (textOf v.tb).length ≤ (textOf v.tg).length := by
        change a.length + 1 - v.body.length ≤ _
        rw [hg, List.length_append, List.length_cons]
        omega
      have hle : (textOf v.tb).length ≤ a.length + 1 := by
        change v.body.length ≤ _
        omega
      have hnil : parsed (cutTokens v.tg (a.length + 1 - (textOf v.tb).length)) = [] := by
        refine parsed_eq_nil fun t ht => ?_
        obtain ⟨u, hu, heq⟩ := mem_cutTokens _ ht
        rw [← heq]
        exact v.gap u hu
      refine iff_of_true ?_ (.inl ⟨c, by rw [hg]; simp, hc⟩)
      rw [cutTokens_append _ _ hne hle, cutTokens_left _ _ hin, parsed_append, hnil, List.append_nil]
    · -- the cut is in the statement
      have hgap : ¬ v.gapStop := by
        rintro ⟨x, hx, hs⟩
        rw [hb x (List.mem_append_right _ hx)] at hs
        cases hs
      have hlen : (textOf v.tb).length = a.length + 1 + b'.length := by
        change v.body.length = _
        rw [hbody, List.length_append, List.length_cons]
        omega
      rw [or_iff_right hgap, v.endsOpen_iff hbody hc fun x hx => hb x (List.mem_append_left _ hx),
        cutTokens_left _ _ (by omega)]
      constructor
      · intro heq
        by_contra hb'
        have hpos := List.length_pos_of_ne_nil hb'
        obtain ⟨t, ht, hskip⟩ := v.last
        have hlt : weight (cutTokens v.tb (a.length + 1)) < weight v.tb :=
          weight_cutTokens hskip v.tb ht hne (by omega)
        rw [weight, heq] at hlt
        exact lt_irrefl _ hlt
      · rintro rfl
        have hall := cutTokens_append [] v.tb hne (m := a.length + 1) (by rw [hlen]; exact le_rfl)
        rw [List.append_nil] at hall
        rw [hall]
        exact congrArg parsed (List.append_nil _)

end ViewSql

/-- `CREATE VIEW v AS SELECT 1;` -/
def oneRowView : ViewSql where
  out := 0
  pre := []
  tb := [(.create, ascii "CREATE"), (.space, ascii " "), (.view, ascii "VIEW"), (.space, ascii " "),
    (.id, ascii "v"), (.space, ascii " "), (.as_, ascii "AS"), (.space, ascii " "), (.select, ascii "SELECT"),
    (.space, ascii " "), (.integer, ascii "1")]
  tg := []
  tr := [(.semi, ascii ";")]
  scan := by decide +kernel
  nulFree := by decide
  last := ⟨_, rfl, rfl⟩
  noSemi := by decide
  gap := nofun
  semi t h := by
    cases h
    rfl

end Dbsql.L5.Parse
