import Dbsql.L3Vdbe.Compare
/-!
# Sort keys (vdbe.c:4051-4093, common/str.c:788-888)

`OP_SortMakeKey` writes each ORDER BY term as a letter, its text and a NUL, and a NULL as `N`
and a NUL; one more NUL ends the key. The letter says how the term sorts: `+` and `-` as
numbers, `A` and `D` as texts, `-` and `D` in descending order. `__str_cmp` walks two keys of
one list of letters field by field.

`colCmp` and `rowCmp` are the order meant: each column in its own direction, NULL smallest,
numbers and texts by the `rank` that `__str_numeric_cmp` gives them.

Results:
* `strCmp_sortKey`: the sign of `__str_cmp` is the order of the rows.
* `keyOrder_iff`: when that is a total preorder; a text that reads as a NaN (`0e9999`) is equal
  to every number.
-/
namespace Dbsql.L3
open Dbsql.Core Dbsql.L1
open List (compareLex)

/-! ## The code -/

/-- The loop of `OP_SortMakeKey` over the letters of P3 and the entries. -/
def sortFields : Bytes → List Val → Bytes
  | c :: p3, v :: fields =>
    (if v.isNull then [78, 0] else c :: (v.text.dropLast ++ [0])) ++ sortFields p3 fields
  | _, _ => []

/-- `OP_SortMakeKey` (vdbe.c:4051-4093): the `nByte` bytes of the key. For each entry with a text
`nByte` counts one more than is written. -/
def opSortMakeKey (p3 : Bytes) (fields : List Val) : Bytes :=
  sortFields p3 fields ++ [0] ++ List.replicate (fields.countP fun v => !v.isNull) 0

section
variable {L : Type} (ar : Arith L)

/-- The texts of two `+` or `-` fields; 0 to go on. -/
def numericField (a b : Bytes) : CInt :=
  let aNumeric := strIsNumeric (cstr a)
  let bNumeric := strIsNumeric (cstr b)
  if aNumeric then
    if !bNumeric then -1
    else
      let rA := dbsqlAtof ar.ld a
      let rB := dbsqlAtof ar.ld b
      if Double.lt rA rB then -1 else if Double.lt rB rA then 1 else 0
  else if bNumeric then 1
  else strcmp a b

/-- The loop of `__str_cmp`: `res` and `dir`. The keys must have the same letter at a field of two
texts. -/
def strCmpLoop (dir : UInt8) (a b : Bytes) : Option (CInt × UInt8) :=
  if h : peek a = 0 ∨ peek b = 0 then some (0, dir)
  else if peek a = 78 ∨ peek b = 78 then
    if peek a = peek b then strCmpLoop dir (a.drop 2) (b.drop 2)
    else if peek a = 78 then some (-1, peek b)
    else some (1, peek a)
  else if peek a ≠ peek b then none
  else
    let dir := peek a
    let res := if dir = 65 ∨ dir = 68 then strcmp a.tail b.tail else numericField ar a.tail b.tail
    if res ≠ 0 then some (res, dir)
    else
      strCmpLoop dir (a.drop ((cstr a.tail).length + 2)) (b.drop ((cstr b.tail).length + 2))
termination_by a.length
decreasing_by
  all_goals
    have : a ≠ [] := fun h' => h (.inl (by rw [h']; rfl))
    have := List.length_pos_iff.2 this
    rw [List.length_drop]
    omega

/-- `__str_cmp` (str.c:824-888). -/
def strCmp (a b : Bytes) : Option CInt :=
  (strCmpLoop ar 0 a b).map fun (res, dir) => if dir = 45 ∨ dir = 68 then -res else res

end

/-! ## The order of the rows -/

/-- How a term of ORDER BY sorts. -/
inductive SortDir | numAsc | numDesc | textAsc | textDesc
  deriving DecidableEq, Repr

/-- `+`, `-`, `A` and `D`. -/
def SortDir.letter : SortDir → UInt8
  | .numAsc => 43
  | .numDesc => 45
  | .textAsc => 65
  | .textDesc => 68

def SortDir.numeric : SortDir → Bool
  | .numAsc | .numDesc => true
  | .textAsc | .textDesc => false

def SortDir.desc : SortDir → Bool
  | .numDesc | .textDesc => true
  | .numAsc | .textAsc => false

/-- A text without NULs but its terminator, or NULL. -/
def Val.Plain (v : Val) : Prop := v.isNull = true ∨ Terminated v.text

section
variable {L : Type} (ar : Arith L)

/-- Numbers by value, before the texts that are none. -/
def Rank.cmp (x y : Rank) : Ordering := if x.lt y then .lt else if y.lt x then .gt else .eq

/-- Two values of a column in ascending order. -/
def ascCmp (numeric : Bool) (x y : Val) : Ordering :=
  if x.isNull then if y.isNull then .eq else .lt
  else if y.isNull then .gt
  else if numeric then (rank ar x.text).cmp (rank ar y.text)
  else compareLex compare (cstr x.text) (cstr y.text)

/-- Two values of a column in its own direction. -/
def colCmp (d : SortDir) (x y : Val) : Ordering :=
  if d.desc then (ascCmp ar d.numeric x y).swap else ascCmp ar d.numeric x y

/-- Two rows: by the first column in which they differ. -/
def rowCmp : List SortDir → List Val → List Val → Ordering
  | d :: dirs, x :: xs, y :: ys => (colCmp ar d x y).then (rowCmp dirs xs ys)
  | _, _, _ => .eq

end

/-- The key of a row. -/
def sortKey (dirs : List SortDir) (row : List Val) : Bytes :=
  opSortMakeKey (dirs.map SortDir.letter) row

/-! ## Reading up to the NUL -/

/-- The same text before the NUL, whatever follows it. -/
def SameText (z z' : Bytes) : Prop := ∃ s r r', 0 ∉ s ∧ z = s ++ 0 :: r ∧ z' = s ++ 0 :: r'

section
variable {z z' : Bytes}

theorem SameText.cases (h : SameText z z') : (peek z = 0 ∧ peek z' = 0) ∨
    ∃ c t t', c ≠ 0 ∧ z = c :: t ∧ z' = c :: t' ∧ SameText t t' := by
  obtain ⟨s, r, r', h0, rfl, rfl⟩ := h
  cases s with
  | nil => exact .inl ⟨rfl, rfl⟩
  | cons c s =>
    rw [List.mem_cons, not_or] at h0
    exact .inr ⟨c, _, _, Ne.symm h0.1, rfl, rfl, s, r, r', h0.2, rfl, rfl⟩

theorem SameText.peek_eq (h : SameText z z') : peek z = peek z' := by
  obtain ⟨hz, hz'⟩ | ⟨c, t, t', -, rfl, rfl, -⟩ := h.cases
  · rw [hz, hz']
  · rfl

theorem SameText.tail (h : SameText z z') (hp : peek z ≠ 0) : SameText z.tail z'.tail := by
  obtain ⟨hz, -⟩ | ⟨c, t, t', -, rfl, rfl, ht⟩ := h.cases
  · exact absurd hz hp
  · exact ht

theorem SameText.skipSign (h : SameText z z') : SameText (skipSign z) (skipSign z') := by
  unfold L1.skipSign
  rw [← h.peek_eq]
  split
  · rename_i hs
    refine h.tail fun h0 => ?_
    rw [h0] at hs
    exact absurd hs (by decide)
  · exact h

theorem SameText.cstr_eq (h : SameText z z') : cstr z = cstr z' := by
  obtain ⟨s, r, r', h0, rfl, rfl⟩ := h
  rw [cstr, cstr, List.takeWhile_append_of_pos, List.takeWhile_append_of_pos]
  · rfl
  all_goals exact fun c hc => decide_eq_true fun h => h0 (h ▸ hc)

theorem SameText.digits (h : SameText z z') : z.takeWhile isdigit = z'.takeWhile isdigit ∧
    SameText (skipDigits z) (skipDigits z') := by
  obtain ⟨s, r, r', h0, rfl, rfl⟩ := h
  induction s with
  | nil => exact ⟨rfl, [], r, r', h0, rfl, rfl⟩
  | cons c s ih =>
    obtain ⟨htake, hskip⟩ := ih fun hs => h0 (List.mem_cons_of_mem c hs)
    by_cases hc : isdigit c = true
    · simp only [skipDigits, List.cons_append, List.takeWhile_cons, List.dropWhile_cons, hc] at *
      exact ⟨congrArg (c :: ·) htake, hskip⟩
    · simp only [skipDigits, List.cons_append, List.takeWhile_cons, List.dropWhile_cons, hc] at *
      exact ⟨rfl, c :: s, r, r', h0, rfl, rfl⟩

/-- `__dbsql_atof` reads no further than the NUL. -/
theorem SameText.atof {L : Type} (fp : LongDouble L) (h : SameText z z') :
    dbsqlAtof fp z = dbsqlAtof fp z' := by
  -- the number before the exponent, and where it ends
  have hnum (v : L) : ∀ {y y' : Bytes}, SameText y y' →
      ∃ (w : L) (x x' : Bytes), SameText x x' ∧
        (if peek y = 46 then (fp.div (readDigits fp v y.tail)
          (mulTimes fp (fp.lit 10) (fp.lit 1) (y.tail.takeWhile isdigit).length), skipDigits y.tail)
          else (v, y)) = (w, x) ∧
        (if peek y' = 46 then (fp.div (readDigits fp v y'.tail)
          (mulTimes fp (fp.lit 10) (fp.lit 1) (y'.tail.takeWhile isdigit).length), skipDigits y'.tail)
          else (v, y')) = (w, x') := by
    intro y y' hy
    rw [← hy.peek_eq]
    split
    · rename_i hdot
      have ht := (hy.tail (by rw [hdot]; decide)).digits
      exact ⟨_, _, _, ht.2, rfl, by rw [readDigits, readDigits, ht.1]⟩
    · exact ⟨_, _, _, hy, rfl, rfl⟩
  have hs := h.skipSign.digits
  obtain ⟨w, x, x', hx, he, he'⟩ := hnum (readDigits fp (fp.lit 0) (L1.skipSign z)) hs.2
  have hread : readDigits fp (fp.lit 0) (L1.skipSign z') = readDigits fp (fp.lit 0) (L1.skipSign z) := by
    rw [readDigits, readDigits, hs.1]
  unfold dbsqlAtof
  simp only [hread, he, he', h.peek_eq, hx.peek_eq]
  by_cases hexp : peek x' = 101 ∨ peek x' = 69
  · have ht := hx.tail (by rw [hx.peek_eq]; rcases hexp with h | h <;> rw [h] <;> decide)
    simp only [if_pos hexp, ht.peek_eq, ht.skipSign.digits.1]
  · simp only [if_neg hexp]

theorem SameText.rank_eq {L : Type} (ar : Arith L) (h : SameText z z') : rank ar z = rank ar z' := by
  rw [rank, rank, h.cstr_eq, h.atof]

end

/-! ## One field -/

/-- The result of a comparison. -/
def ofOrdering (o : Ordering) : CInt := BitVec.ofInt 32 (ordInt o)

theorem neg_ofOrdering (o : Ordering) : -ofOrdering o = ofOrdering o.swap := by cases o <;> rfl

theorem ofOrdering_eq_zero {o : Ordering} : ofOrdering o = 0 ↔ o = .eq := by
  cases o <;> decide

theorem toInt_ofOrdering (o : Ordering) : (ofOrdering o).toInt = ordInt o := toInt_ordInt o

theorem Rank.cmp_text (a b : Bytes) : (Rank.text ⟨a⟩).cmp (.text ⟨b⟩) = compareLex compare a b := by
  have hlt : Rank.lt (.text ⟨a⟩) (.text ⟨b⟩) = true ↔ compareLex compare a b = .lt :=
    decide_eq_true_iff.trans Dbt.lt_iff
  have hgt : Rank.lt (.text ⟨b⟩) (.text ⟨a⟩) = true ↔ compareLex compare b a = .lt :=
    decide_eq_true_iff.trans Dbt.lt_iff
  have hswap : compareLex compare b a = (compareLex compare a b).swap :=
    @Std.OrientedCmp.eq_swap _ (compareLex compare) _ _ _
  rw [hswap] at hgt
  unfold Rank.cmp
  simp only [hlt, hgt]
  cases compareLex compare a b <;> rfl

section
variable {L : Type} (ar : Arith L)

theorem numericField_eq (a b : Bytes) :
    numericField ar a b = ofOrdering ((rank ar a).cmp (rank ar b)) := by
  unfold numericField rank
  cases strIsNumeric (cstr a) with
  | true =>
    cases strIsNumeric (cstr b) with
    | true =>
      simp only [if_true, Bool.not_true, Bool.false_eq_true, if_false, Rank.cmp, Rank.lt]
      split
      · rfl
      · split
        · rfl
        · rfl
    | false => rfl
  | false =>
    cases strIsNumeric (cstr b) with
    | true => rfl
    | false =>
      simp only [Bool.false_eq_true, if_false, Rank.cmp_text]
      rfl

/-- The comparison of two fields of texts, before the direction. -/
theorem field_eq (d : SortDir) {a b : Bytes} {x y : Val} (hx : x.isNull = false)
    (hy : y.isNull = false) (ha : SameText a x.text) (hb : SameText b y.text) :
    (if d.letter = 65 ∨ d.letter = 68 then strcmp a b else numericField ar a b) =
      ofOrdering (ascCmp ar d.numeric x y) := by
  have htext : strcmp a b = ofOrdering (compareLex compare (cstr x.text) (cstr y.text)) := by
    rw [strcmp, ha.cstr_eq, hb.cstr_eq]
    rfl
  have hnum : numericField ar a b = ofOrdering ((rank ar x.text).cmp (rank ar y.text)) := by
    rw [numericField_eq, ha.rank_eq, hb.rank_eq]
  unfold ascCmp
  cases d with
  | numAsc | numDesc => simpa [SortDir.letter, SortDir.numeric, hx, hy] using hnum
  | textAsc | textDesc => simpa [SortDir.letter, SortDir.numeric, hx, hy] using htext

/-- The direction at the end of `__str_cmp`. -/
def directed (res : CInt × UInt8) : CInt := if res.2 = 45 ∨ res.2 = 68 then -res.1 else res.1

theorem directed_letter (d : SortDir) (o : Ordering) :
    directed (ofOrdering o, d.letter) = ofOrdering (if d.desc then o.swap else o) := by
  cases d with
  | numAsc | textAsc => rfl
  | numDesc | textDesc => exact neg_ofOrdering o

theorem SortDir.letter_ne (d : SortDir) : d.letter ≠ 0 ∧ d.letter ≠ 78 := by
  cases d <;> decide

/-! ## Two keys -/

theorem sortFields_null {c : UInt8} {p3 : Bytes} {v : Val} {fields : List Val} (h : v.isNull = true) :
    sortFields (c :: p3) (v :: fields) = 78 :: 0 :: sortFields p3 fields := by
  rw [sortFields, if_pos h]
  rfl

theorem sortFields_text {c : UInt8} {p3 : Bytes} {v : Val} {fields : List Val} {s : Bytes}
    (h : v.isNull = false) (ht : v.text = s ++ [0]) :
    sortFields (c :: p3) (v :: fields) = c :: (s ++ 0 :: sortFields p3 fields) := by
  rw [sortFields, h, if_neg Bool.false_ne_true, ht, List.dropLast_concat]
  simp

/-- The field behind a text. -/
theorem drop_field (c : UInt8) {s : Bytes} (h0 : 0 ∉ s) (rest : Bytes) :
    (c :: (s ++ 0 :: rest)).drop ((cstr (s ++ 0 :: rest)).length + 2) = rest := by
  have hc : cstr (s ++ 0 :: rest) = s := by
    have h : SameText (s ++ 0 :: rest) (s ++ [0]) := ⟨s, rest, [], h0, rfl, rfl⟩
    rw [h.cstr_eq, cstr_terminated h0]
  rw [hc, List.drop_succ_cons, show s ++ 0 :: rest = (s ++ [0]) ++ rest by simp]
  exact List.drop_left' (by simp)

section
variable {dir c : UInt8} {a b s t : Bytes}

theorem strCmpLoop_nulls :
    strCmpLoop ar dir (78 :: 0 :: a) (78 :: 0 :: b) = strCmpLoop ar dir a b := by
  rw [strCmpLoop, dif_neg (by simp [peek]), if_pos (.inl rfl)]
  exact if_pos rfl

theorem strCmpLoop_nullLeft (h0 : c ≠ 0) (h78 : c ≠ 78) :
    strCmpLoop ar dir (78 :: a) (c :: b) = some (-1, c) := by
  rw [strCmpLoop, dif_neg (by simp [peek, h0]), if_pos (.inl rfl), if_neg fun h => h78 h.symm]
  rfl

theorem strCmpLoop_nullRight (h0 : c ≠ 0) (h78 : c ≠ 78) :
    strCmpLoop ar dir (c :: a) (78 :: b) = some (1, c) := by
  rw [strCmpLoop, dif_neg (by simp [peek, h0]), if_pos (.inr rfl)]
  exact (if_neg h78).trans (if_neg h78)

theorem strCmpLoop_texts (h0 : c ≠ 0) (h78 : c ≠ 78) (hs : 0 ∉ s) (ht : 0 ∉ t) {res : CInt}
    (hres : (if c = 65 ∨ c = 68 then strcmp (s ++ 0 :: a) (t ++ 0 :: b)
      else numericField ar (s ++ 0 :: a) (t ++ 0 :: b)) = res) :
    strCmpLoop ar dir (c :: (s ++ 0 :: a)) (c :: (t ++ 0 :: b)) =
      if res ≠ 0 then some (res, c) else strCmpLoop ar c a b := by
  rw [strCmpLoop, dif_neg (by simp [peek, h0]), if_neg (by simp [peek, h78]), if_neg (by simp [peek])]
  subst hres
  change (if _ then _ else strCmpLoop ar c ((c :: (s ++ 0 :: a)).drop ((cstr (s ++ 0 :: a)).length + 2))
    ((c :: (t ++ 0 :: b)).drop ((cstr (t ++ 0 :: b)).length + 2))) = _
  rw [drop_field c hs, drop_field c ht]
  rfl

end

/-- A field that differs decides. -/
theorem then_of_ne {d : SortDir} {x y : Val} (h : ascCmp ar d.numeric x y ≠ .eq) (o : Ordering) :
    (colCmp ar d x y).then o = if d.desc then (ascCmp ar d.numeric x y).swap
      else ascCmp ar d.numeric x y := by
  unfold colCmp
  cases hcmp : ascCmp ar d.numeric x y with
  | eq => exact absurd hcmp h
  | lt | gt => cases d.desc <;> rfl

/-- One field after the other: the loop ends with the order of the rows. -/
theorem strCmpLoop_fields (ta tb : Bytes) : ∀ (dirs : List SortDir) (xs ys : List Val) (dir : UInt8),
    xs.length = dirs.length → ys.length = dirs.length → (∀ x ∈ xs, x.Plain) → (∀ y ∈ ys, y.Plain) →
    (strCmpLoop ar dir (sortFields (dirs.map SortDir.letter) xs ++ 0 :: ta)
      (sortFields (dirs.map SortDir.letter) ys ++ 0 :: tb)).map directed =
      some (ofOrdering (rowCmp ar dirs xs ys)) := by
  intro dirs
  induction dirs with
  | nil =>
    intro xs ys dir hx hy hxs hys
    rw [List.length_eq_zero_iff.1 hx, List.length_eq_zero_iff.1 hy, strCmpLoop, dif_pos (.inl rfl)]
    simp [directed, rowCmp, ofOrdering, ordInt]
  | cons d dirs ih =>
    intro xs ys dir hx hy hxs hys
    obtain ⟨x, xs, rfl⟩ := List.exists_cons_of_length_eq_add_one hx
    obtain ⟨y, ys, rfl⟩ := List.exists_cons_of_length_eq_add_one hy
    obtain ⟨hpx, hxs⟩ := List.forall_mem_cons.1 hxs
    obtain ⟨hpy, hys⟩ := List.forall_mem_cons.1 hys
    have ih := fun dir => ih xs ys dir (Nat.succ.inj hx) (Nat.succ.inj hy) hxs hys
    obtain ⟨hl0, hl78⟩ := d.letter_ne
    rw [List.map_cons, rowCmp]
    cases hnx : x.isNull with
    | true =>
      rw [sortFields_null hnx]
      cases hny : y.isNull with
      | true =>
        have hcol : colCmp ar d x y = .eq := by simp [colCmp, ascCmp, hnx, hny]
        rw [sortFields_null hny, hcol]
        exact (congrArg _ (strCmpLoop_nulls ar)).trans (ih dir)
      | false =>
        obtain ⟨t, -, ht⟩ := hpy.resolve_left (by simp [hny])
        have hasc : ascCmp ar d.numeric x y = .lt := by simp [ascCmp, hnx, hny]
        rw [sortFields_text hny ht, then_of_ne ar (by simp [hasc]), hasc, ← directed_letter]
        exact congrArg _ (strCmpLoop_nullLeft ar hl0 hl78)
    | false =>
      obtain ⟨s, hs0, hs⟩ := hpx.resolve_left (by simp [hnx])
      rw [sortFields_text hnx hs]
      cases hny : y.isNull with
      | true =>
        have hasc : ascCmp ar d.numeric x y = .gt := by simp [ascCmp, hnx, hny]
        rw [sortFields_null hny, then_of_ne ar (by simp [hasc]), hasc, ← directed_letter]
        exact congrArg _ (strCmpLoop_nullRight ar hl0 hl78)
      | false =>
        obtain ⟨t, ht0, ht⟩ := hpy.resolve_left (by simp [hny])
        have hfield := field_eq ar d hnx hny
          ⟨s, sortFields (dirs.map SortDir.letter) xs ++ 0 :: ta, [], hs0, rfl, hs⟩
          ⟨t, sortFields (dirs.map SortDir.letter) ys ++ 0 :: tb, [], ht0, rfl, ht⟩
        rw [sortFields_text hny ht, List.cons_append, List.append_assoc, List.cons_append,
          List.cons_append, List.append_assoc, List.cons_append,
          strCmpLoop_texts ar hl0 hl78 hs0 ht0 hfield]
        by_cases hasc : ascCmp ar d.numeric x y = .eq
        · have hcol : colCmp ar d x y = .eq := by simp [colCmp, hasc]
          rw [if_neg (not_not.2 (ofOrdering_eq_zero.2 hasc)), hcol]
          exact ih d.letter
        · rw [if_pos fun h => hasc (ofOrdering_eq_zero.1 h), then_of_ne ar hasc, ← directed_letter]
          rfl

/-- A row for the terms of ORDER BY. -/
structure SortRow (dirs : List SortDir) (row : List Val) : Prop where
  length : row.length = dirs.length
  plain : ∀ v ∈ row, v.Plain

/-- **`__str_cmp` of two sort keys is the order of their rows.** -/
theorem strCmp_sortKey {dirs : List SortDir} {xs ys : List Val} (hx : SortRow dirs xs)
    (hy : SortRow dirs ys) :
    strCmp ar (sortKey dirs xs) (sortKey dirs ys) = some (ofOrdering (rowCmp ar dirs xs ys)) := by
  have h := strCmpLoop_fields ar (List.replicate (xs.countP fun v => !v.isNull) 0)
    (List.replicate (ys.countP fun v => !v.isNull) 0) dirs xs ys 0 hx.length hy.length hx.plain
    hy.plain
  rw [strCmp, sortKey, sortKey, opSortMakeKey, opSortMakeKey, List.append_assoc, List.append_assoc]
  exact h

/-! ## A total preorder -/

/-- The rows that have each value from the set of its column. -/
def Rows (cols : List (SortDir × Set Val)) : Set (List Val) :=
  {row | List.Forall₂ (fun c v => v ∈ c.2) cols row}

/-- `__str_cmp` is at most 0. -/
def KeyLe (a b : Bytes) : Prop := ∃ c, strCmp ar a b = some c ∧ c.toInt ≤ 0

/-- The keys of rows compare column by column, and that is a total preorder. -/
structure KeyOrder (cols : List (SortDir × Set Val)) : Prop where
  sign : ∀ xs ∈ Rows cols, ∀ ys ∈ Rows cols,
    ∃ c, strCmp ar (sortKey (cols.map Prod.fst) xs) (sortKey (cols.map Prod.fst) ys) = some c ∧
      c.toInt.sign = ordInt (rowCmp ar (cols.map Prod.fst) xs ys)
  total : ∀ xs ∈ Rows cols, ∀ ys ∈ Rows cols,
    KeyLe ar (sortKey (cols.map Prod.fst) xs) (sortKey (cols.map Prod.fst) ys) ∨
      KeyLe ar (sortKey (cols.map Prod.fst) ys) (sortKey (cols.map Prod.fst) xs)
  trans : ∀ xs ∈ Rows cols, ∀ ys ∈ Rows cols, ∀ zs ∈ Rows cols,
    KeyLe ar (sortKey (cols.map Prod.fst) xs) (sortKey (cols.map Prod.fst) ys) →
    KeyLe ar (sortKey (cols.map Prod.fst) ys) (sortKey (cols.map Prod.fst) zs) →
    KeyLe ar (sortKey (cols.map Prod.fst) xs) (sortKey (cols.map Prod.fst) zs)

/-- The values of the columns, some for each. -/
structure SortCols (cols : List (SortDir × Set Val)) : Prop where
  plain : ∀ c ∈ cols, ∀ v ∈ c.2, v.Plain
  nonempty : ∀ c ∈ cols, c.2.Nonempty

variable {ar}

theorem Rank.cmp_swap (x y : Rank) : y.cmp x = (x.cmp y).swap := by
  unfold Rank.cmp
  by_cases hxy : x.lt y = true
  · simp [hxy, Rank.lt_asymm hxy]
  · rw [if_neg hxy]
    split <;> rfl

theorem Rank.cmp_ne_gt {x y : Rank} : x.cmp y ≠ .gt ↔ y.lt x = false := by
  unfold Rank.cmp
  by_cases hxy : x.lt y = true
  · simp [hxy, Rank.lt_asymm hxy]
  · simp [hxy]

theorem ascCmp_swap (numeric : Bool) (x y : Val) :
    ascCmp ar numeric y x = (ascCmp ar numeric x y).swap := by
  unfold ascCmp
  cases x.isNull with
  | true => cases y.isNull <;> rfl
  | false =>
    cases y.isNull with
    | true => rfl
    | false =>
      cases numeric with
      | true => exact Rank.cmp_swap _ _
      | false => exact @Std.OrientedCmp.eq_swap _ (compareLex compare) _ _ _

theorem colCmp_swap (d : SortDir) (x y : Val) : colCmp ar d y x = (colCmp ar d x y).swap := by
  unfold colCmp
  rw [ascCmp_swap d.numeric x y]
  split <;> rfl

theorem colCmp_self (d : SortDir) (x : Val) : colCmp ar d x x = .eq := by
  have h : colCmp ar d x x = (colCmp ar d x x).swap := colCmp_swap d x x
  revert h
  cases colCmp ar d x x <;> decide

theorem rowCmp_swap : ∀ (dirs : List SortDir) (xs ys : List Val),
    rowCmp ar dirs ys xs = (rowCmp ar dirs xs ys).swap
  | d :: dirs, x :: xs, y :: ys => by
    rw [rowCmp, rowCmp, Ordering.swap_then, colCmp_swap d x y, rowCmp_swap dirs xs ys]
  | [], _, _ | _ :: _, [], [] | _ :: _, [], _ :: _ | _ :: _, _ :: _, [] => rfl

/-- `cmp` is transitive on a set. -/
def TransOn {α : Type} (cmp : α → α → Ordering) (S : Set α) : Prop :=
  ∀ x ∈ S, ∀ y ∈ S, ∀ z ∈ S, cmp x y ≠ .gt → cmp y z ≠ .gt → cmp x z ≠ .gt

theorem ascCmp_trans {numeric : Bool} {S : Set Val} (hnan : numeric = true → NoNan ar S) :
    TransOn (ascCmp ar numeric) S := by
  intro x hx y hy z hz
  unfold ascCmp
  cases x.isNull with
  | true => cases z.isNull <;> simp
  | false =>
    cases y.isNull with
    | true => simp
    | false =>
      cases z.isNull with
      | true => simp
      | false =>
        cases numeric with
        | true =>
          simp only [Bool.false_eq_true, if_false, if_true, Rank.cmp_ne_gt]
          exact rank_trans (hnan rfl) hx hy hz
        | false =>
          simp only [Bool.false_eq_true, if_false, ← Ordering.isLE_iff_ne_gt]
          exact Std.TransCmp.isLE_trans

theorem colCmp_trans {d : SortDir} {S : Set Val} (hnan : d.numeric = true → NoNan ar S) :
    TransOn (colCmp ar d) S := by
  intro x hx y hy z hz
  have h := ascCmp_trans hnan
  unfold colCmp
  cases d.desc with
  | false => exact h x hx y hy z hz
  | true =>
    simp only [if_true, ← ascCmp_swap]
    exact fun hxy hyz => h z hz y hy x hx hyz hxy

/-- A column that decides, decides with any column at most equal before or behind it. -/
theorem TransOn.lt_of {α : Type} {cmp : α → α → Ordering} {S : Set α} (h : TransOn cmp S)
    (hswap : ∀ x y, cmp y x = (cmp x y).swap) {x y z : α} (hx : x ∈ S) (hy : y ∈ S) (hz : z ∈ S)
    (hxy : cmp x y ≠ .gt) (hyz : cmp y z ≠ .gt) (hlt : cmp x y = .lt ∨ cmp y z = .lt) :
    cmp x z = .lt := by
  have hle := h x hx y hy z hz hxy hyz
  cases hxz : cmp x z with
  | lt => rfl
  | gt => exact absurd hxz hle
  | eq =>
    have hzx : cmp z x ≠ .gt := by simp [hswap x z, hxz]
    rcases hlt with hlt | hlt
    · exact absurd (by simp [hswap x y, hlt]) (h y hy z hz x hx hyz hzx)
    · exact absurd (by simp [hswap y z, hlt]) (h z hz x hx y hy hzx hxy)

/-- Rows are transitive if their columns are. -/
theorem rowCmp_trans : ∀ (cols : List (SortDir × Set Val)),
    (∀ c ∈ cols, c.1.numeric = true → NoNan ar c.2) →
    TransOn (rowCmp ar (cols.map Prod.fst)) (Rows cols)
  | [], _ => fun xs _ ys _ zs _ _ _ => by simp [rowCmp]
  | c :: cols, h => by
    obtain ⟨hc, hcols⟩ := List.forall_mem_cons.1 h
    have hcol := colCmp_trans hc
    rintro _ (_ | ⟨hx, hxs⟩) _ (_ | ⟨hy, hys⟩) _ (_ | ⟨hz, hzs⟩) hxy hyz
    rename_i x xs y ys z zs
    rw [List.map_cons, rowCmp, Ne, Ordering.then_eq_gt] at hxy hyz ⊢
    have hxy' : colCmp ar c.1 x y ≠ .gt := fun h => hxy (.inl h)
    have hyz' : colCmp ar c.1 y z ≠ .gt := fun h => hyz (.inl h)
    rintro (hgt | ⟨heq, hgt⟩)
    · exact hcol x hx y hy z hz hxy' hyz' hgt
    · by_cases hlt : colCmp ar c.1 x y = .lt ∨ colCmp ar c.1 y z = .lt
      · rw [hcol.lt_of (colCmp_swap c.1) hx hy hz hxy' hyz' hlt] at heq
        cases heq
      · obtain ⟨hxy'', hyz''⟩ := not_or.1 hlt
        have heq₁ : colCmp ar c.1 x y = .eq := by
          cases h : colCmp ar c.1 x y with
          | lt => exact absurd h hxy''
          | eq => rfl
          | gt => exact absurd h hxy'
        have heq₂ : colCmp ar c.1 y z = .eq := by
          cases h : colCmp ar c.1 y z with
          | lt => exact absurd h hyz''
          | eq => rfl
          | gt => exact absurd h hyz'
        exact rowCmp_trans cols hcols xs hxs ys hys zs hzs (fun h => hxy (.inr ⟨heq₁, h⟩))
          (fun h => hyz (.inr ⟨heq₂, h⟩)) hgt

/-! ## When it is one -/

theorem SortCols.sortRow {cols : List (SortDir × Set Val)} (h : SortCols cols) {row : List Val}
    (hrow : row ∈ Rows cols) : SortRow (cols.map Prod.fst) row := by
  change List.Forall₂ _ _ _ at hrow
  refine ⟨by rw [List.length_map, hrow.length_eq], ?_⟩
  have hplain := h.plain
  clear h
  induction hrow with
  | nil => simp
  | cons hv _ ih =>
    obtain ⟨hc, hcols⟩ := List.forall_mem_cons.1 hplain
    exact List.forall_mem_cons.2 ⟨hc _ hv, ih hcols⟩

/-- `__str_cmp` is at most 0 when the row is not above the other. -/
theorem keyLe_iff {dirs : List SortDir} {xs ys : List Val} (hx : SortRow dirs xs)
    (hy : SortRow dirs ys) :
    KeyLe ar (sortKey dirs xs) (sortKey dirs ys) ↔ rowCmp ar dirs xs ys ≠ .gt := by
  unfold KeyLe
  rw [strCmp_sortKey ar hx hy]
  simp only [Option.some.injEq, exists_eq_left', toInt_ofOrdering]
  cases rowCmp ar dirs xs ys <;> decide

theorem rowCmp_self : ∀ (dirs : List SortDir) (xs : List Val), rowCmp ar dirs xs xs = .eq
  | d :: dirs, x :: xs => by rw [rowCmp, colCmp_self, rowCmp_self dirs xs]; rfl
  | [], _ | _ :: _, [] => rfl

/-- Rows that differ in one column compare as the column. -/
theorem rowCmp_one (d : SortDir) (x y : Val) (post : List SortDir) (ws : List Val) :
    ∀ (pre : List SortDir) (us : List Val), us.length = pre.length →
      rowCmp ar (pre ++ d :: post) (us ++ x :: ws) (us ++ y :: ws) = colCmp ar d x y
  | [], us, h => by
    rw [List.length_eq_zero_iff.1 h, List.nil_append, List.nil_append, List.nil_append, rowCmp,
      rowCmp_self, Ordering.then_eq]
  | e :: pre, us, h => by
    obtain ⟨u, us, rfl⟩ := List.exists_cons_of_length_eq_add_one h
    rw [List.cons_append, List.cons_append, List.cons_append, rowCmp, colCmp_self,
      rowCmp_one d x y post ws pre us (Nat.succ.inj h)]
    rfl

theorem exists_row : ∀ cols : List (SortDir × Set Val), (∀ c ∈ cols, c.2.Nonempty) →
    ∃ row, row ∈ Rows cols
  | [], _ => ⟨[], .nil⟩
  | c :: cols, h => by
    obtain ⟨⟨v, hv⟩, hcols⟩ := List.forall_mem_cons.1 h
    obtain ⟨row, hrow⟩ := exists_row cols hcols
    exact ⟨v :: row, .cons hv hrow⟩

/-- A NaN beside two numbers that differ is at most each and at least each. -/
theorem noNan_of_keyOrder {cols : List (SortDir × Set Val)} (hcols : SortCols cols)
    (h : KeyOrder ar cols) : ∀ c ∈ cols, c.1.numeric = true → NoNan ar c.2 := by
  rintro c hc hnum ⟨v, hv, hnan⟩ x hx y hy r r' hr hr'
  obtain ⟨pre, post, rfl⟩ := List.append_of_mem hc
  obtain ⟨us, hus⟩ := exists_row pre fun c hc => hcols.nonempty c (by simp [hc])
  obtain ⟨ws, hws⟩ := exists_row post fun c hc => hcols.nonempty c (by simp [hc])
  have hmem : ∀ w ∈ c.2, us ++ w :: ws ∈ Rows (pre ++ c :: post) :=
    fun w hw => List.rel_append hus (.cons hw hws)
  have hlen : us.length = (pre.map Prod.fst).length := by rw [List.length_map, List.Forall₂.length_eq hus]
  -- the rows that differ in the column only
  have hle : ∀ a ∈ c.2, ∀ b ∈ c.2, KeyLe ar
      (sortKey ((pre ++ c :: post).map Prod.fst) (us ++ a :: ws))
      (sortKey ((pre ++ c :: post).map Prod.fst) (us ++ b :: ws)) ↔ colCmp ar c.1 a b ≠ .gt := by
    intro a ha b hb
    rw [keyLe_iff (hcols.sortRow (hmem a ha)) (hcols.sortRow (hmem b hb)), List.map_append,
      List.map_cons, rowCmp_one _ _ _ _ _ _ _ hlen]
  have htrans : ∀ a ∈ c.2, ∀ b ∈ c.2, colCmp ar c.1 a v ≠ .gt → colCmp ar c.1 v b ≠ .gt →
      colCmp ar c.1 a b ≠ .gt := fun a ha b hb hav hvb =>
    (hle a ha b hb).1 (h.trans _ (hmem a ha) _ (hmem v hv) _ (hmem b hb) ((hle a ha v hv).2 hav)
      ((hle v hv b hb).2 hvb))
  -- none of the three is NULL
  have hnull : ∀ {w : Val} {s : Double}, rank ar w.text = .num s → w.isNull = false := by
    intro w s hw
    cases w with
    | null => cases hw
    | int | real | str => rfl
  have hcol : ∀ {a b : Val}, a.isNull = false → b.isNull = false → colCmp ar c.1 a b =
      if c.1.desc then ((rank ar a.text).cmp (rank ar b.text)).swap
      else (rank ar a.text).cmp (rank ar b.text) := by
    intro a b ha hb
    simp [colCmp, ascCmp, ha, hb, hnum]
  have hnanl : ∀ s, Rank.cmp (.num .nan) (.num s) = .eq := by
    intro s
    cases s <;> rfl
  have hnanr : ∀ s, Rank.cmp (.num s) (.num .nan) = .eq := by
    intro s
    cases s <;> rfl
  have hnv := hnull hnan
  have hnx := hnull hr
  have hny := hnull hr'
  have hxv : colCmp ar c.1 x v = .eq := by simp [hcol hnx hnv, hr, hnan, hnanr]
  have hvx : colCmp ar c.1 v x = .eq := by simp [hcol hnv hnx, hr, hnan, hnanl]
  have hyv : colCmp ar c.1 y v = .eq := by simp [hcol hny hnv, hr', hnan, hnanr]
  have hvy : colCmp ar c.1 v y = .eq := by simp [hcol hnv hny, hr', hnan, hnanl]
  have hxy := htrans x hx y hy (by simp [hxv]) (by simp [hvy])
  have hyx := htrans y hy x hx (by simp [hyv]) (by simp [hvx])
  rw [Bool.eq_false_iff]
  intro hlt
  have hcmp : (rank ar x.text).cmp (rank ar y.text) = .lt := by
    rw [hr, hr']
    exact if_pos hlt
  rw [colCmp_swap, hcol hnx hny, hcmp] at hyx
  rw [hcol hnx hny, hcmp] at hxy
  revert hxy hyx
  cases c.1.desc <;> decide

/-- Without a NaN the keys of the rows are in the order of the rows. -/
theorem keyOrder_of_noNan {cols : List (SortDir × Set Val)} (hcols : SortCols cols)
    (h : ∀ c ∈ cols, c.1.numeric = true → NoNan ar c.2) : KeyOrder ar cols := by
  have hrow := fun xs (hxs : xs ∈ Rows cols) => hcols.sortRow hxs
  have htrans := rowCmp_trans cols h
  constructor
  · intro xs hxs ys hys
    refine ⟨_, strCmp_sortKey ar (hrow xs hxs) (hrow ys hys), ?_⟩
    rw [toInt_ofOrdering]
    cases rowCmp ar (cols.map Prod.fst) xs ys <;> rfl
  · intro xs hxs ys hys
    rw [keyLe_iff (hrow xs hxs) (hrow ys hys), keyLe_iff (hrow ys hys) (hrow xs hxs),
      rowCmp_swap _ xs ys]
    cases rowCmp ar (cols.map Prod.fst) xs ys <;> simp
  · intro xs hxs ys hys zs hzs
    rw [keyLe_iff (hrow xs hxs) (hrow ys hys), keyLe_iff (hrow ys hys) (hrow zs hzs),
      keyLe_iff (hrow xs hxs) (hrow zs hzs)]
    exact htrans xs hxs ys hys zs hzs

/-- **`__str_cmp` orders the rows, and is a total preorder** on their keys exactly when no column
that sorts as numbers has a NaN beside different numbers. -/
theorem keyOrder_iff {cols : List (SortDir × Set Val)} (hcols : SortCols cols) :
    KeyOrder ar cols ↔ ∀ c ∈ cols, c.1.numeric = true → NoNan ar c.2 :=
  ⟨noNan_of_keyOrder hcols, keyOrder_of_noNan hcols⟩

/-- Two terms, a number or a text and a NULL. -/
theorem sortCols_two : SortCols [(.numAsc, {.int 1 none, .str [120, 0]}), (.textDesc, {.null})] where
  plain := by
    simp only [List.forall_mem_cons, Set.mem_insert_iff, Set.mem_singleton_iff, forall_eq_or_imp,
      forall_eq, List.not_mem_nil, false_imp_iff, implies_true, and_true]
    exact ⟨⟨.inr ⟨[49], by decide, rfl⟩, .inr ⟨[120], by decide, rfl⟩⟩, .inl rfl⟩
  nonempty := by simp

theorem keyOrder_iff_two :
    KeyOrder exactMachine [(.numAsc, {.int 1 none, .str [120, 0]}), (.textDesc, {.null})] ↔
      ∀ c ∈ [(SortDir.numAsc, ({.int 1 none, .str [120, 0]} : Set Val)), (.textDesc, {.null})],
        c.1.numeric = true → NoNan exactMachine c.2 := keyOrder_iff sortCols_two

end

/-! ## A text that reads as a NaN -/

/-- `q` in the range of an 80-bit `long double`. -/
def inRange (q : ℚ) : Double :=
  if q ≤ -2 ^ 16384 then .inf true else if 2 ^ 16384 ≤ q then .inf false else .fin q

/-- A product; 0 times an infinity is a NaN. -/
def rangedMul : Double → Double → Double
  | .nan, _ | _, .nan => .nan
  | .inf neg, r | r, .inf neg =>
    if Double.isZero r then .nan else .inf (neg != Double.lt r (.fin 0))
  | r, r' => inRange (r.toRat.getD 0 * r'.toRat.getD 0)

/-- A machine that does not round, with the range of an 80-bit `long double`. -/
def rangedMachine : Arith Double where
  ld :=
    { lit := inRange
      add := fun r r' => ranged (· + ·) r r'
      mul := rangedMul
      div := fun r r' => ranged (· / ·) r r'
      neg := Double.neg
      toDouble := id }
  fadd := exactMachine.fadd
  fsub := exactMachine.fsub
  fmul := exactMachine.fmul
  fdiv := exactMachine.fdiv
  toInt := exactMachine.toInt
  shl := exactMachine.shl
  shr := exactMachine.shr
where
  /-- On finite values only. -/
  ranged (op : ℚ → ℚ → ℚ) (r r' : Double) : Double :=
    match r.toRat, r'.toRat with
    | some q, some q' => inRange (op q q')
    | _, _ => .nan

theorem rank_rangedMachine {z : Bytes} {r : Double} (hz : strIsNumeric (cstr z) = true)
    (hr : dbsqlAtof rangedMachine.ld z = r) : rank rangedMachine z = .num r := by
  rw [rank, if_pos hz, hr]

-- the exponent wraps to 0
example : dbsqlAtof rangedMachine.ld (ascii "0e4294967296" ++ [0]) = .fin 0 := by decide +kernel

/-- `0e9999`, `1` and `2`: the first is equal to both others. -/
theorem keyOrder_fails : ¬ ∀ {L : Type} (ar : Arith L) (cols : List (SortDir × Set Val)),
    SortCols cols → KeyOrder ar cols := by
  intro h
  let zs : List Bytes := [ascii "0e9999" ++ [0], ascii "1" ++ [0], ascii "2" ++ [0]]
  have hcols : SortCols [(SortDir.numAsc, {v | ∃ z ∈ zs, v = .str z})] := by
    refine ⟨List.forall_mem_singleton.2 ?_, List.forall_mem_singleton.2 ⟨_, _, List.mem_cons_self, rfl⟩⟩
    rintro _ ⟨z, hz, rfl⟩
    refine .inr ⟨z.dropLast, ?_⟩
    revert z
    decide
  have hnan : rank rangedMachine (ascii "0e9999" ++ [0]) = .num .nan :=
    rank_rangedMachine (by decide) (by decide +kernel)
  have hone : rank rangedMachine (ascii "1" ++ [0]) = .num (.fin 1) :=
    rank_rangedMachine (by decide) (by decide +kernel)
  have htwo : rank rangedMachine (ascii "2" ++ [0]) = .num (.fin 2) :=
    rank_rangedMachine (by decide) (by decide +kernel)
  have hlt := noNan_of_keyOrder hcols (h rangedMachine _ hcols) _ List.mem_cons_self rfl
    ⟨.str _, ⟨_, List.mem_cons_self, rfl⟩, hnan⟩ (.str (ascii "1" ++ [0])) ⟨_, by simp [zs], rfl⟩
    (.str (ascii "2" ++ [0])) ⟨_, by simp [zs], rfl⟩ _ _ hone htwo
  revert hlt
  decide +kernel

end Dbsql.L3
