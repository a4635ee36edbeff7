import Dbsql.L1Encoding.RealKey
/-!
# Index keys (vdbe.c:2188-2285, common/str.c:290-332, common/dbsql_atof.c)

`OP_MakeKey` writes each field as a letter, a text and a NUL: `a` for NULL, `b` and the
sortable text of a number, `c` and the text itself. In a text column (`t` in P3) every value
is a text; in the others a string that looks like a number is one. `OP_MakeIdxKey` appends
the key of a rowid.

`Col` is the value of a column in SQL terms, with the SQL order `Col.cmp`. The value of a
numeric string is what `__dbsql_atof` computes in `long_double_t`; nothing is assumed of
that arithmetic, which is a parameter.

Results:
* `keyCode`: the fields form an `OrderedCode`, so keys compare column by column.
* `makeKey_order`: the order of `OP_MakeKey` and `OP_MakeIdxKey` keys.
* `sortExact_int`: every `int` is in the range where the keys of numbers are exact.
-/
namespace Dbsql.L1
open Dbsql.Core
open List (compareLex)

/-! ## Numeric strings -/

def isdigit (c : UInt8) : Bool := 48 ≤ c && c ≤ 57

/-- `*z`; a string ends with a NUL. -/
def peek (z : Bytes) : UInt8 := z.headD 0

def skipSign (z : Bytes) : Bytes := if peek z = 45 ∨ peek z = 43 then z.tail else z

def skipDigits (z : Bytes) : Bytes := z.dropWhile isdigit

/-- `.` and digits, if there is a `.`. -/
def skipFraction (z : Bytes) : Option Bytes :=
  if peek z = 46 then if isdigit (peek z.tail) then some (skipDigits z.tail) else none else some z

/-- `e`, a sign and digits, if there is an `e`. -/
def skipExponent (z : Bytes) : Option Bytes :=
  if peek z = 101 ∨ peek z = 69 then
    if isdigit (peek (skipSign z.tail)) then some (skipDigits (skipSign z.tail)) else none
  else some z

/-- `__str_is_numeric` (str.c:297-332). -/
def strIsNumeric (z : Bytes) : Bool :=
  let z := skipSign z
  if isdigit (peek z) then
    match (skipFraction (skipDigits z)).bind skipExponent with
    | some z => peek z = 0
    | none => false
  else false

/-- The arithmetic of `long_double_t`. -/
structure LongDouble (L : Type) where
  lit : ℚ → L
  add : L → L → L
  mul : L → L → L
  div : L → L → L
  neg : L → L
  toDouble : L → Double

/-- The loop `v1 = v1 * 10.0 + (*z - '0')`. -/
def readDigits {L : Type} (fp : LongDouble L) (v1 : L) (z : Bytes) : L :=
  (z.takeWhile isdigit).foldl
    (fun v c => fp.add (fp.mul v (fp.lit 10)) (fp.lit ((c.toNat : ℚ) - 48))) v1

/-- `x` multiplied `k` times by `c`. -/
def mulTimes {L : Type} (fp : LongDouble L) (c x : L) : Nat → L
  | 0 => x
  | k + 1 => mulTimes fp c (fp.mul x c) k

/-- Digits read into an `int`, which wraps. -/
def readInt (ds : Bytes) : CInt :=
  ds.foldl (fun v c => v * 10 + BitVec.ofNat 32 c.toNat - 48) 0

/-- The four loops that build `scale` from the exponent; none runs on one that is not positive. -/
def scaleOf {L : Type} (fp : LongDouble L) (eval : CInt) : L :=
  let eval := eval.toInt.toNat
  let scale := mulTimes fp (fp.lit (10 ^ 64)) (fp.lit 1) (eval / 64)
  let scale := mulTimes fp (fp.lit (10 ^ 16)) scale (eval % 64 / 16)
  let scale := mulTimes fp (fp.lit (10 ^ 4)) scale (eval % 16 / 4)
  mulTimes fp (fp.lit 10) scale (eval % 4)

/-- `__dbsql_atof` (dbsql_atof.c:39-96). -/
def dbsqlAtof {L : Type} (fp : LongDouble L) (z : Bytes) : Double :=
  let neg := peek z = 45
  let z := skipSign z
  let v1 := readDigits fp (fp.lit 0) z
  let z := skipDigits z
  let (v1, z) :=
    if peek z = 46 then
      let z := z.tail
      let divisor := mulTimes fp (fp.lit 10) (fp.lit 1) (z.takeWhile isdigit).length
      (fp.div (readDigits fp v1 z) divisor, skipDigits z)
    else (v1, z)
  let v1 :=
    if peek z = 101 ∨ peek z = 69 then
      let z := z.tail
      let eval := readInt ((skipSign z).takeWhile isdigit)
      if peek z = 45 then fp.div v1 (scaleOf fp eval) else fp.mul v1 (scaleOf fp eval)
    else v1
  fp.toDouble (if neg then fp.neg v1 else v1)

/-! ## `OP_MakeKey` and `OP_MakeIdxKey` -/

section
variable {L : Type} (fp : LongDouble L)

/-- `pOp->p3 && pOp->p3[j] == 't'`. -/
def isTextCol (p3 : Option Bytes) (j : Nat) : Bool :=
  match p3 with
  | none => false
  | some z => z.getD j 0 = 116

/-- The first loop: a field as a number in sortable form, or as it is. -/
def keyPrep (text : Bool) (pRec : Mem) : Mem :=
  if pRec.flags.null then pRec
  else if text then
    let pRec := pRec.asString
    { pRec with flags := { pRec.flags with int := false, real := false } }
  else if pRec.flags.real ∨ pRec.flags.int ∨ strIsNumeric pRec.z then
    let r :=
      if pRec.flags.real then pRec.r
      else if pRec.flags.int then .fin pRec.i.toInt
      else dbsqlAtof fp pRec.z
    -- the text stands in `zShort`
    { pRec with r := r, z := strRealAsSortable r ++ [0], flags := { real := true } }
  else pRec

/-- The second loop: the bytes of one field. -/
def keyField (pRec : Mem) : Bytes :=
  if pRec.flags.null then [97, 0]
  else if pRec.flags = { real := true } then 98 :: pRec.z
  else 99 :: pRec.z

def keyPrepAll (p3 : Option Bytes) (fields : List Mem) : List Mem :=
  fields.mapIdx fun j pRec => keyPrep fp (isTextCol p3 j) pRec

/-- The bytes of the key of `fields`. -/
def makeKey (p3 : Option Bytes) (fields : List Mem) : Bytes :=
  (keyPrepAll fp p3 fields).flatMap keyField

/-- `OP_MakeKey` (vdbe.c:2188-2285): what is left of `fields` on the stack, and the key above
it. -/
def opMakeKey (p2 : Int) (p3 : Option Bytes) (fields : List Mem) : List Mem × Mem :=
  (if p2 = 0 then [] else keyPrepAll fp p3 fields, .ofBytes (makeKey fp p3 fields))

/-- The bytes of the key of `fields` with the rowid. -/
def makeIdxKey (p3 : Option Bytes) (fields : List Mem) (rowid : CInt) : Bytes :=
  makeKey fp p3 fields ++ rowidKey rowid

/-- `OP_MakeIdxKey` (vdbe.c:2188-2285): the key, and whether to jump to P2. -/
def opMakeIdxKey (p2 : Int) (p3 : Option Bytes) (fields : List Mem) (rowid : CInt) : Mem × Bool :=
  (.ofBytes (makeIdxKey fp p3 fields rowid), p2 ≠ 0 ∧ fields.any (·.flags.null))

/-! ## Columns -/

/-- The value of a column. -/
inductive Col
  | null
  | num (r : Double)
  | text (s : Bytes)
  deriving DecidableEq, Repr

/-- The rational value of a double, if it has one. -/
def Double.toRat : Double → Option ℚ
  | .fin q => some q
  | .negZero => some 0
  | _ => none

/-- A text without NULs, or no text. -/
def Col.NulFree : Col → Prop
  | .text s => 0 ∉ s
  | _ => True

/-- A number in the range where `__str_real_as_sortable` is exact, or no number. -/
def Col.Exact : Col → Prop
  | .num r => ∃ q, r.toRat = some q ∧ SortExact q
  | _ => True

/-- The place of a double on the line: the infinities at its ends, a NaN beyond. -/
def Double.place : Double → Int × ℚ
  | .inf true => (-1, 0)
  | .inf false => (1, 0)
  | .nan => (2, 0)
  | r => (0, r.toRat.getD 0)

def Double.cmp (r r' : Double) : Ordering :=
  (compare r.place.1 r'.place.1).then (compare r.place.2 r'.place.2)

theorem Double.place_of_toRat {r : Double} {q : ℚ} (h : r.toRat = some q) : r.place = (0, q) := by
  cases r with
  | fin q' => cases h; rfl
  | negZero => cases h; rfl
  | inf | nan => cases h

/-- The SQL order: NULL, numbers by value, texts by bytes. -/
def Col.cmp : Col → Col → Ordering
  | .null, .null => .eq
  | .null, _ => .lt
  | _, .null => .gt
  | .num r, .num r' => r.cmp r'
  | .num _, .text _ => .lt
  | .text _, .num _ => .gt
  | .text s, .text s' => compareLex compare s s'

/-- The order of the fields of keys: as `Col.cmp`, with numbers in the order of their sortable
texts. -/
def Col.keyCmp : Col → Col → Ordering
  | .num r, .num r' => compareLex compare (strRealAsSortable r) (strRealAsSortable r')
  | c, d => c.cmp d

/-- The value of a stack entry in a text or another column. -/
def colOf (text : Bool) (pRec : Mem) : Col :=
  if pRec.flags.null then .null
  else if text then .text pRec.text.dropLast
  else if pRec.flags.real then .num pRec.r
  else if pRec.flags.int then .num (.fin pRec.i.toInt)
  else if strIsNumeric pRec.z then .num (dbsqlAtof fp pRec.z)
  else .text pRec.text.dropLast

/-- The columns of the key of `vs`. -/
def colsOf (p3 : Option Bytes) (vs : List StackVal) : List Col :=
  vs.mapIdx fun j v => colOf fp (isTextCol p3 j) v.toMem

end

/-! ## Order of the keys -/

/-- A column before its NUL. -/
def Col.body : Col → Bytes
  | .null => [97]
  | .num r => 98 :: strRealAsSortable r
  | .text s => 99 :: s

theorem Col.compare_body (c d : Col) : compareLex compare c.body d.body = c.keyCmp d := by
  cases c with
  | null => cases d <;> rfl
  | num r =>
    cases d with
    | null | text s => rfl
    | num r' => exact Lex.compareLex_cons_self _ _ _
  | text s =>
    cases d with
    | null | num r => rfl
    | text s' => exact Lex.compareLex_cons_self _ _ _

theorem strRealAsSortable_eq {r : Double} {q : ℚ} (h : r.toRat = some q) :
    strRealAsSortable r = sortableRat q := by
  cases r with
  | fin q' => cases h; rfl
  | negZero => cases h; rfl
  | inf | nan => cases h

/-- On exact numbers the order of the fields is the SQL order. -/
theorem Col.keyCmp_eq {c d : Col} (hc : c.Exact) (hd : d.Exact) : c.keyCmp d = c.cmp d := by
  cases c with
  | null | text => rfl
  | num r =>
    cases d with
    | null | text => rfl
    | num r' =>
      obtain ⟨q, hq, he⟩ := hc
      obtain ⟨q', hq', he'⟩ := hd
      rw [keyCmp, strRealAsSortable_eq hq, strRealAsSortable_eq hq',
        compare_sortableRat he.double he'.double, cmp, Double.cmp, Double.place_of_toRat hq,
        Double.place_of_toRat hq']
      rfl

theorem Col.body_pos {c : Col} (hc : c.NulFree) : ∀ b ∈ c.body, compare 0 b = .lt := by
  intro b hb
  rw [compare_byte_lt_iff]
  cases c with
  | null =>
    rw [List.mem_singleton.1 hb]
    decide
  | num r =>
    rcases List.mem_cons.1 hb with rfl | hb
    · decide
    · exact strRealAsSortable_pos r b hb
  | text s =>
    rcases List.mem_cons.1 hb with rfl | hb
    · decide
    · have : b ≠ 0 := fun h => hc (h ▸ hb)
      rw [UInt8.lt_iff_toNat_lt]
      exact Nat.pos_of_ne_zero fun h => this (UInt8.toNat_inj.1 h)

/-- A column that a key can hold. -/
abbrev KeyCol := {c : Col // c.NulFree}

/-- A field as `OP_MakeKey` writes it. -/
def KeyCol.enc (c : KeyCol) : Bytes := c.1.body ++ [0]

/-- The fields of keys are ordered whatever follows them, and raising the NUL that ends a key
bounds all its extensions. -/
theorem keyCode :
    Lex.OrderedCode (fun c d : KeyCol => c.1.keyCmp d.1) compare KeyCol.enc (· + 1) := by
  refine .of_terminated (fun c => c.1.body_pos c.2) rfl ?_ fun c d => Col.compare_body c.1 d.1
  intro b hb hne
  rw [compare_byte_lt_iff, UInt8.lt_iff_toNat_lt] at *
  have h1 : b.toNat ≠ 1 := fun h => hne (UInt8.toNat_inj.1 h)
  have h0 : (0 : UInt8).toNat = 0 := rfl
  have h0' : (0 + 1 : UInt8).toNat = 1 := rfl
  omega

section
variable {L : Type} (fp : LongDouble L)

theorem StackVal.text_dropLast (v : StackVal) : v.toMem.text = v.toMem.text.dropLast ++ [0] := by
  obtain ⟨s, hs⟩ := v.text_terminated
  rw [hs, List.dropLast_concat]

theorem asString_flags (m : Mem) : m.asString.flags.str = true ∧
    (m.flags.null = false → m.asString.flags.null = false) := by
  unfold Mem.asString
  split
  · rename_i h
    exact ⟨h, id⟩
  · exact ⟨rfl, fun _ => rfl⟩

/-- The bytes of a field are its column and a NUL. -/
theorem keyField_keyPrep (text : Bool) (v : StackVal) :
    keyField (keyPrep fp text v.toMem) = (colOf fp text v.toMem).body ++ [0] := by
  unfold keyPrep colOf
  by_cases hnull : v.flags.null = true
  · rw [if_pos hnull, if_pos hnull, keyField, if_pos hnull]
    rfl
  rw [if_neg hnull, if_neg hnull]
  by_cases htext : text = true
  · obtain ⟨hstr, hn⟩ := asString_flags v.toMem
    have hn := hn (by simpa using hnull)
    rw [if_pos htext, if_pos htext, keyField, if_neg (by simp [hn]), if_neg (by
      intro h
      have := congrArg Flags.str h
      simp [hstr] at this)]
    exact congrArg (99 :: ·) v.text_dropLast
  rw [if_neg htext, if_neg htext]
  by_cases hreal : v.flags.real = true
  · simp [hreal, keyField, Col.body]
  by_cases hint : v.flags.int = true
  · simp [hreal, hint, keyField, Col.body]
  have hstr : v.flags.str = true := by
    rcases v.kind with h | h | h | h
    · exact absurd h hnull
    · exact h
    · exact absurd h hint
    · exact absurd h hreal
  by_cases hnum : strIsNumeric v.z = true
  · simp [hreal, hint, hnum, keyField, Col.body]
  · have hne : v.flags ≠ { real := true } := fun h => hreal (by rw [h])
    rw [if_neg (by simp [hreal, hint, hnum]), if_neg hreal, if_neg hint, if_neg hnum, keyField,
      if_neg hnull, if_neg hne, ← Mem.text_of_str hstr]
    exact congrArg (99 :: ·) v.text_dropLast

theorem makeKey_eq (p3 : Option Bytes) (vs : List StackVal) :
    makeKey fp p3 (vs.map (·.toMem)) = (colsOf fp p3 vs).flatMap fun c => c.body ++ [0] := by
  have hfields : (keyPrepAll fp p3 (vs.map (·.toMem))).map keyField =
      (colsOf fp p3 vs).map fun c => c.body ++ [0] := by
    apply List.ext_getElem?
    intro i
    simp only [keyPrepAll, colsOf, List.getElem?_map, List.getElem?_mapIdx, Option.map_map,
      Function.comp_def, keyField_keyPrep]
  rw [makeKey, List.flatMap_def, hfields, ← List.flatMap_def]

/-- The columns of `vs`, their texts without NULs. -/
def NulFree (p3 : Option Bytes) (vs : List StackVal) : Prop := ∀ c ∈ colsOf fp p3 vs, c.NulFree

/-- The columns of `vs`, their numbers in the range of exact keys. -/
def ExactNums (p3 : Option Bytes) (vs : List StackVal) : Prop := ∀ c ∈ colsOf fp p3 vs, c.Exact

theorem colsOf_length (p3 : Option Bytes) (vs : List StackVal) : (colsOf fp p3 vs).length = vs.length :=
  List.length_mapIdx

variable {fp}

/-- The columns of a key, each with its well-formedness. -/
theorem NulFree.cols {p3 : Option Bytes} {vs : List StackVal} (h : NulFree fp p3 vs) :
    ∃ cs : List KeyCol, cs.length = vs.length ∧ colsOf fp p3 vs = cs.map Subtype.val ∧
      makeKey fp p3 (vs.map (·.toMem)) = cs.flatMap KeyCol.enc := by
  obtain ⟨cs, hcs⟩ : ∃ cs : List KeyCol, cs.map Subtype.val = colsOf fp p3 vs :=
    ⟨(colsOf fp p3 vs).attachWith Col.NulFree h, List.attachWith_map_subtype_val _⟩
  have hlen := congrArg List.length hcs
  rw [List.length_map, colsOf_length] at hlen
  refine ⟨cs, hlen, hcs.symm, ?_⟩
  rw [makeKey_eq, ← hcs, List.flatMap_map]
  rfl

/-- On exact numbers lists of columns compare in SQL order. -/
theorem compare_cols {cs ds : List Col} (hc : ∀ c ∈ cs, c.Exact) (hd : ∀ d ∈ ds, d.Exact) :
    compareLex Col.keyCmp cs ds = compareLex Col.cmp cs ds := by
  have := @Lex.compareLex_map _ _ Col.keyCmp _ id cs ds fun c hc' d hd' =>
    Col.keyCmp_eq (hc c hc') (hd d hd')
  rwa [List.map_id, List.map_id] at this

/-- Keys compare column by column, then by what follows them. -/
theorem compare_makeKey {p3 : Option Bytes} {vs ws : List StackVal} (hlen : vs.length = ws.length)
    (hv : NulFree fp p3 vs) (hw : NulFree fp p3 ws) (x y : Bytes) :
    compareLex compare (makeKey fp p3 (vs.map (·.toMem)) ++ x) (makeKey fp p3 (ws.map (·.toMem)) ++ y) =
      (compareLex Col.keyCmp (colsOf fp p3 vs) (colsOf fp p3 ws)).then (compareLex compare x y) := by
  obtain ⟨cs, hlen', hcs, hkey⟩ := hv.cols
  obtain ⟨ds, hlen'', hds, hkey'⟩ := hw.cols
  rw [hkey, hkey', hcs, hds, keyCode.concat cs ds (by omega),
    Lex.compareLex_map Subtype.val cs ds fun _ _ _ _ => rfl]

theorem opMakeKey_z (p2 : Int) (p3 : Option Bytes) (fields : List Mem) :
    (opMakeKey fp p2 p3 fields).2.z = makeKey fp p3 fields := rfl

theorem opMakeIdxKey_z (p2 : Int) (p3 : Option Bytes) (fields : List Mem) (rowid : CInt) :
    (opMakeIdxKey fp p2 p3 fields rowid).1.z = makeIdxKey fp p3 fields rowid := rfl

/-- What the order of index keys promises, whatever the P2 of each opcode. -/
structure KeyOrder (fp : LongDouble L) (p3 : Option Bytes) (vs ws : List StackVal) : Prop where
  order : ∀ p2 p2', smCmpValues (opMakeKey fp p2 p3 (vs.map (·.toMem))).2.z
      (opMakeKey fp p2' p3 (ws.map (·.toMem))).2.z =
    ordInt (compareLex Col.cmp (colsOf fp p3 vs) (colsOf fp p3 ws))
  equal : ∀ p2 p2', (opMakeKey fp p2 p3 (vs.map (·.toMem))).2.z =
      (opMakeKey fp p2' p3 (ws.map (·.toMem))).2.z ↔
    List.Forall₂ (fun c d => Col.cmp c d = .eq) (colsOf fp p3 vs) (colsOf fp p3 ws)
  rowid : ∀ p2 p2' r r', smCmpValues (opMakeIdxKey fp p2 p3 (vs.map (·.toMem)) r).1.z
      (opMakeIdxKey fp p2' p3 (ws.map (·.toMem)) r').1.z =
    ordInt ((compareLex Col.cmp (colsOf fp p3 vs) (colsOf fp p3 ws)).then (compare r.toInt r'.toInt))
  text : ∀ j, isTextCol p3 j = true → ∀ r, (colsOf fp p3 vs)[j]? ≠ some (.num r)

theorem colOf_text (m : Mem) (r : Double) : colOf fp true m ≠ .num r := by
  unfold colOf
  split
  · exact fun h => by cases h
  · rw [if_pos rfl]
    exact fun h => by cases h

/-- **Keys sort in SQL order.** Keys of equally many fields compare column by column, NULL
before numbers by value before texts by bytes, with no text column read as a number; they are
equal exactly when every column is; and entries with equal fields are ordered by rowid. -/
theorem makeKey_order (fp : LongDouble L) (p3 : Option Bytes) (vs ws : List StackVal)
    (hlen : vs.length = ws.length) (hv : NulFree fp p3 vs) (hw : NulFree fp p3 ws)
    (hv' : ExactNums fp p3 vs) (hw' : ExactNums fp p3 ws) : KeyOrder fp p3 vs ws := by
  have hcmp := compare_makeKey hlen hv hw [] []
  rw [List.append_nil, List.append_nil, List.compareLex_nil_nil, Ordering.then_eq,
    compare_cols hv' hw'] at hcmp
  have horder : smCmpValues (makeKey fp p3 (vs.map (·.toMem))) (makeKey fp p3 (ws.map (·.toMem))) =
      ordInt (compareLex Col.cmp (colsOf fp p3 vs) (colsOf fp p3 ws)) := by
    rw [smCmpValues_eq, hcmp]
  refine ⟨fun p2 p2' => ?_, fun p2 p2' => ?_, fun p2 p2' r r' => ?_, fun j hj r => ?_⟩
  · rw [opMakeKey_z, opMakeKey_z, horder]
  · rw [opMakeKey_z, opMakeKey_z, ← smCmpValues_eq_zero, horder, ordInt_eq, Lex.compareLex_eq_iff]
  · rw [opMakeIdxKey_z, opMakeIdxKey_z, smCmpValues_eq, makeIdxKey, makeIdxKey,
      compare_makeKey hlen hv hw, compare_rowidKey,
      compare_cols hv' hw']
  · rw [colsOf, List.getElem?_mapIdx, hj]
    intro h
    obtain ⟨v, -, hv⟩ := Option.map_eq_some_iff.1 h
    exact colOf_text _ _ hv

/-- An `int` is always in the range of exact keys. -/
theorem Col.exact_int (i : CInt) : (Col.num (.fin i.toInt)).Exact := by
  have hi := i.isLt
  refine ⟨i.toInt, rfl, sortExact_int ?_⟩
  rw [BitVec.toInt_eq_toNat_cond]
  split <;> omega

/-- Arithmetic without rounding. -/
def exactArith : LongDouble ℚ :=
  ⟨id, (· + ·), (· * ·), (· / ·), (- ·), .fin⟩

/-- An integer on the stack. -/
def intVal (i : CInt) : StackVal where
  i := i
  flags := { int := true }
  r := .nan
  z := []
  kind := .inr (.inr (.inl rfl))
  terminated h := by cases h

theorem colsOf_ints (fp : LongDouble L) (is : List CInt) {c : Col}
    (hc : c ∈ colsOf fp none (is.map intVal)) : ∃ i : CInt, c = .num (.fin i.toInt) := by
  obtain ⟨j, hj, rfl⟩ := List.mem_mapIdx.1 hc
  rw [List.length_map] at hj
  rw [List.getElem_map]
  exact ⟨is[j], rfl⟩

theorem nulFree_ints {fp : LongDouble L} (is : List CInt) : NulFree fp none (is.map intVal) := by
  intro c hc
  obtain ⟨i, rfl⟩ := colsOf_ints fp is hc
  trivial

theorem nullField_kind : true = true ∨ false = true ∨ false = true ∨ false = true := .inl rfl

theorem nullField_terminated (h : false = true) : ∃ s, ([] : Bytes) = s ++ [0] := by cases h

/-- A NULL on the stack. -/
def nullField : StackVal where
  i := 0
  flags := { null := true }
  r := .nan
  z := []
  kind := nullField_kind
  terminated := nullField_terminated

/-- A text on the stack. -/
def textVal (s : Bytes) : StackVal where
  i := 0
  flags := { str := true }
  r := .nan
  z := s ++ [0]
  kind := .inr (.inl rfl)
  terminated _ := ⟨s, rfl⟩

/-- A NULL, `ab` and the text `10` come before a NULL, `abc` and 9; the number 10 is equal to the
text, and the rowid decides. -/
theorem makeKey_order_mixed :
    let p3 := some (ascii "ntn")
    let row := [nullField, textVal (ascii "ab"), textVal (ascii "10")]
    let longer := [nullField, textVal (ascii "abc"), intVal 9]
    let equal := [nullField, textVal (ascii "ab"), intVal 10]
    smCmpValues (opMakeKey exactArith 0 p3 (row.map (·.toMem))).2.z
        (opMakeKey exactArith 0 p3 (longer.map (·.toMem))).2.z = -1 ∧
      (opMakeKey exactArith 0 p3 (row.map (·.toMem))).2.z =
        (opMakeKey exactArith 0 p3 (equal.map (·.toMem))).2.z ∧
      smCmpValues (opMakeIdxKey exactArith 0 p3 (row.map (·.toMem)) 3).1.z
        (opMakeIdxKey exactArith 0 p3 (equal.map (·.toMem)) (-2)).1.z = 1 := by
  intro p3 row longer equal
  have hrow : colsOf exactArith p3 row =
      [.null, .text (ascii "ab"), .num (.fin (10 : CInt).toInt)] := by decide +kernel
  have hlonger : colsOf exactArith p3 longer =
      [.null, .text (ascii "abc"), .num (.fin (9 : CInt).toInt)] := by decide +kernel
  have hequal : colsOf exactArith p3 equal =
      [.null, .text (ascii "ab"), .num (.fin (10 : CInt).toInt)] := by decide +kernel
  -- the columns have no NUL and are exact
  have hok (vs : List StackVal) (s : Bytes) (i : CInt) (hs : 0 ∉ s)
      (h : colsOf exactArith p3 vs = [.null, .text s, .num (.fin i.toInt)]) :
      NulFree exactArith p3 vs ∧ ExactNums exactArith p3 vs := by
    simp only [NulFree, ExactNums, h, List.forall_mem_cons, List.not_mem_nil, false_imp_iff,
      implies_true, and_true]
    exact ⟨⟨trivial, hs, trivial⟩, trivial, trivial, Col.exact_int i⟩
  have h₁ := hok row _ _ (by decide) hrow
  have h₂ := hok longer _ _ (by decide) hlonger
  have h₃ := hok equal _ _ (by decide) hequal
  have hl := makeKey_order exactArith p3 row longer rfl h₁.1 h₂.1 h₁.2 h₂.2
  have he := makeKey_order exactArith p3 row equal rfl h₁.1 h₃.1 h₁.2 h₃.2
  refine ⟨(hl.order 0 0).trans ?_, (he.equal 0 0).2 ?_, (he.rowid 0 0 3 (-2)).trans ?_⟩
  · rw [hrow, hlonger]
    decide +kernel
  · rw [hrow, hequal]
    decide +kernel
  · rw [hrow, hequal]
    decide +kernel

end
end Dbsql.L1
