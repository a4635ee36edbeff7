import Dbsql.L1Encoding.Record
import Dbsql.L3Vdbe.Decimal
/-!
# What `OP_MakeKey` leaves of the entries (vdbe.c:2116-2130, 2188-2285)

With P2 the entries stay on the stack below the key, but the first loop has normalised them in
place: in a column that is not a text, an integer or a text that looks like a number is a
`MEM_Real` from then on, and a later opcode prints it with `%.15g`. A number prints as before; a
text or the literal of an integer only if it was spelled as `%.15g` spells it.

Results:
* `fmtG15_int`: `%.15g` prints an `int` like `%d`.
* `makeKey_frame`: when later opcodes see the same texts.
-/
namespace Dbsql.L3
open Dbsql.Core Dbsql.L1

/-! ## `%.15g` of an `int` -/

theorem digits_mul_ten {n : Nat} (hn : 0 < n) : digits (10 * n) = digits n ++ [48] := by
  have h := Nat.toDigits_append_toDigits (b := 10) (n := n) (d := 0) (by decide) hn (by decide)
  rw [Nat.add_zero] at h
  rw [digits, digits, ← h, List.map_append]
  rfl

theorem digits_mul_pow {n : Nat} (hn : 0 < n) (k : Nat) :
    digits (n * 10 ^ k) = digits n ++ List.replicate k 48 := by
  induction k with
  | zero => simp
  | succ k ih =>
    have hpos : 0 < n * 10 ^ k := Nat.mul_pos hn (Nat.pow_pos (by decide))
    rw [show n * 10 ^ (k + 1) = 10 * (n * 10 ^ k) by ring, digits_mul_ten hpos, ih,
      List.replicate_succ', List.append_assoc]

theorem length_digits {n : Nat} (hn : 0 < n) : (digits n).length = Nat.log 10 n + 1 := by
  have hle : ∀ k, 0 < k → ((digits n).length ≤ k ↔ n < 10 ^ k) := fun k hk => by
    rw [digits, List.length_map]
    exact Nat.length_toDigits_le_iff (by decide) hk
  have hub := (hle (Nat.log 10 n + 1) (by omega)).2 (Nat.lt_pow_succ_log_self (by decide) n)
  have hpos : 0 < (digits n).length := List.length_pos_iff.2 (digits_ne_nil n)
  have hlog : 10 ^ Nat.log 10 n ≤ n := Nat.pow_log_le_self 10 (by omega)
  by_contra hne
  have hlt := (hle (Nat.log 10 n) (by omega)).1 (by omega)
  omega

theorem roundEven_nat (n : Nat) : roundEven n = n := by
  simp [roundEven]

/-- A natural number of at most 15 digits. -/
theorem fmtPos_nat {n : Nat} (hn : 0 < n) (hlt : n < 10 ^ 15) : fmtPos n = digits n := by
  have hlog : Nat.log 10 n < 15 := Nat.log_lt_of_lt_pow (by omega) hlt
  obtain ⟨k, hk⟩ : ∃ k, k + Nat.log 10 n = 14 := ⟨14 - Nat.log 10 n, by omega⟩
  have hscale : (n : ℚ) / 10 ^ ((Nat.log 10 n : Int) - 14) = ((n * 10 ^ k : Nat) : ℚ) := by
    rw [show (Nat.log 10 n : Int) - 14 = -(k : Int) by omega, zpow_neg, div_inv_eq_mul, zpow_natCast]
    push_cast
    rfl
  have hsmall : n * 10 ^ k ≠ 10 ^ 15 := by
    have h1 : n < 10 ^ (Nat.log 10 n + 1) := Nat.lt_pow_succ_log_self (by decide) n
    have h2 : n * 10 ^ k < 10 ^ (Nat.log 10 n + 1) * 10 ^ k :=
      Nat.mul_lt_mul_of_pos_right h1 (Nat.pow_pos (by decide))
    rw [← Nat.pow_add, show Nat.log 10 n + 1 + k = 15 by omega] at h2
    omega
  have hsig : sig15 n = (n * 10 ^ k, (Nat.log 10 n : Int)) := by
    unfold sig15
    rw [Int.log_natCast]
    dsimp only
    rw [hscale, roundEven_nat, if_neg hsmall]
  have htext : ascii (toString (n * 10 ^ k)) = digits n ++ List.replicate k 48 := by
    rw [← digits_mul_pow hn, ascii, digits, Nat.toString_eq_ofList_toDigits, String.toList_ofList]
  unfold fmtPos
  rw [hsig]
  dsimp only
  rw [htext, if_pos (by omega), if_pos (by omega), Int.toNat_natCast, ← length_digits hn,
    List.take_left, List.drop_left]
  have hfrac : fracPart (List.replicate k 48) = [] := by
    simp [fracPart, L1.stripZeros]
  rw [hfrac, List.append_nil]

/-- **`%.15g` prints an `int` like `%d`.** -/
theorem fmtG15_int (i : CInt) : fmtG15 (.fin i.toInt) = fmtD i := by
  have hlo := i.le_toInt
  have hhi := i.toInt_lt
  rw [fmtD_eq, fmtG15]
  by_cases h0 : i.toInt = 0
  · rw [h0]
    rfl
  · have hq : (i.toInt : ℚ) ≠ 0 := by exact_mod_cast h0
    rw [if_neg hq]
    by_cases hneg : i.toInt < 0
    · obtain ⟨n, hn⟩ : ∃ n : Nat, -i.toInt = n := ⟨(-i.toInt).toNat, by omega⟩
      have hcast : -(i.toInt : ℚ) = n := by exact_mod_cast hn
      rw [if_pos (by exact_mod_cast hneg), if_neg (by omega), hcast, fmtPos_nat (by omega) (by omega), hn]
      rfl
    · obtain ⟨n, hn⟩ : ∃ n : Nat, i.toInt = n := ⟨i.toInt.toNat, by omega⟩
      have hcast : (i.toInt : ℚ) = n := by exact_mod_cast hn
      rw [if_neg (by exact_mod_cast hneg), if_pos (by omega), hcast, fmtPos_nat (by omega) (by omega), hn]
      rfl

/-! ## Later opcodes -/

/-- `azArgv[i]` in `OP_Callback` (vdbe.c:957-964). -/
def callbackArg (pCol : Mem) : Option Bytes := if pCol.flags.null then none else some pCol.text

/-- What later opcodes make of `new` is what they make of `old`: each as a text, all as a record,
and as the arguments of the callback. -/
structure SameTexts (old new : List Mem) : Prop where
  text : new.map Mem.text = old.map Mem.text
  record : ∀ e p2 uniqueCnt, opMakeRecord e p2 uniqueCnt new = opMakeRecord e p2 uniqueCnt old
  callback : new.map callbackArg = old.map callbackArg

/-- A value of a numeric column that `OP_MakeKey` spells as it is spelled: a text that is no number
or the `%.15g` of the number it reads as, an integer that has no text or has its `%d`. -/
def Val.Canonical {L : Type} (fp : LongDouble L) : Val → Prop
  | .int i (some z) => z = fmtD i ++ [0]
  | .str z => strIsNumeric z = true → z = fmtG15 (dbsqlAtof fp z) ++ [0]
  | .null | .int _ none | .real _ => True

section
variable {L : Type} {fp : LongDouble L}

theorem text_keyPrep_text (v : Val) : (keyPrep fp true v.toMem).text = v.text := by
  cases v with
  | null | real | str => rfl
  | int i z => cases z <;> rfl

/-- The text of an entry of a numeric column afterwards. -/
theorem text_keyPrep (v : Val) : (keyPrep fp false v.toMem).text = v.text ↔ v.Canonical fp := by
  cases v with
  | null | real => exact iff_of_true rfl trivial
  | int i z =>
    have hreal : (keyPrep fp false (Val.int i z).toMem).text = fmtG15 (.fin i.toInt) ++ [0] := by
      cases z <;> rfl
    rw [hreal, fmtG15_int]
    cases z with
    | none => exact iff_of_true rfl trivial
    | some z => exact eq_comm
  | str z =>
    by_cases hz : strIsNumeric z = true
    · have hreal : (keyPrep fp false (Val.str z).toMem).text = fmtG15 (dbsqlAtof fp z) ++ [0] := by
        simp [keyPrep, Val.toMem, hz, Mem.text, Mem.asString]
      rw [hreal]
      exact eq_comm.trans ⟨fun h _ => h, fun h => h hz⟩
    · have hsame : keyPrep fp false (Val.str z).toMem = (Val.str z).toMem := by
        simp [keyPrep, Val.toMem, hz]
      rw [hsame]
      exact iff_of_true rfl fun h => absurd h hz

theorem null_keyPrep (text : Bool) (v : Val) :
    (keyPrep fp text v.toMem).flags.null = v.toMem.flags.null := by
  cases v with
  | null => rfl
  | real => cases text <;> rfl
  | int i z => cases text <;> cases z <;> rfl
  | str z =>
    cases text with
    | true => rfl
    | false => by_cases hz : strIsNumeric z = true <;> simp [keyPrep, Val.toMem, hz]

/-- Two entries of one text, or two NULLs, are the same to a record. -/
theorem fieldData_eq {m m' : Mem} (hn : m.flags.null = m'.flags.null) (ht : m.text = m'.text) :
    fieldData (recordField m) = fieldData (recordField m') ∧
      (recordField m).flags.null = (recordField m').flags.null := by
  have hfield : ∀ m : Mem, fieldData (recordField m) = (if m.flags.null then [] else m.text) ∧
      (recordField m).flags.null = m.flags.null := by
    intro m
    unfold fieldData recordField
    cases hnull : m.flags.null with
    | true => simp [hnull]
    | false =>
      have hstr : m.asString.flags.null = false := by
        unfold Mem.asString
        split
        · exact hnull
        · rfl
      simp [hstr, Mem.text]
  rw [(hfield m).1, (hfield m').1, (hfield m).2, (hfield m').2, hn, ht]
  exact ⟨rfl, rfl⟩

theorem putHeader_congr (w : Nat) {fields fields' : List Mem}
    (h : fields.map fieldData = fields'.map fieldData) (addr : CInt) :
    putHeader w addr fields = putHeader w addr fields' := by
  induction fields generalizing fields' addr with
  | nil =>
    cases fields' with
    | nil => rfl
    | cons m' fields' => cases h
  | cons m fields ih =>
    cases fields' with
    | nil => cases h
    | cons m' fields' =>
      rw [List.map_cons, List.map_cons, List.cons.injEq] at h
      rw [putHeader, putHeader, h.1, ih h.2]

theorem opMakeRecord_congr (e : Endian) (p2 : Int) (uniqueCnt : CInt) {old new : List Mem}
    (hdata : new.map (fieldData ∘ recordField) = old.map (fieldData ∘ recordField))
    (hnull : new.map ((·.flags.null) ∘ recordField) = old.map ((·.flags.null) ∘ recordField)) :
    opMakeRecord e p2 uniqueCnt new = opMakeRecord e p2 uniqueCnt old := by
  have hlen : new.length = old.length := by simpa using congrArg List.length hdata
  have hmap : (new.map recordField).map fieldData = (old.map recordField).map fieldData := by
    simpa using hdata
  have hany : (new.map recordField).any (·.flags.null) = (old.map recordField).any (·.flags.null) := by
    have h : ∀ l : List Mem, (l.map recordField).any (·.flags.null) =
        (l.map ((·.flags.null) ∘ recordField)).any id := fun l => by simp [Function.comp_def]
    rw [h, h, hnull]
  have hput : putData (new.map recordField) = putData (old.map recordField) := by
    rw [putData, putData, List.flatMap_def, List.flatMap_def, hmap]
  unfold opMakeRecord
  simp only [List.length_map, hlen, hany, hput, putHeader_congr _ hmap]

/-- **With P2 the entries read as before** exactly when the values of the numeric columns are spelled
as `%.15g` or `%d` spell them. -/
theorem makeKey_frame {p2 : Int} (hp2 : p2 ≠ 0) (p3 : Option Bytes) (vs : List Val) :
    SameTexts (vs.map Val.toMem) (opMakeKey fp p2 p3 (vs.map Val.toMem)).1 ↔
      ∀ j v, vs[j]? = some v → isTextCol p3 j = false → v.Canonical fp := by
  have hprep : (opMakeKey fp p2 p3 (vs.map Val.toMem)).1 =
      (vs.map Val.toMem).mapIdx fun j pRec => keyPrep fp (isTextCol p3 j) pRec := by
    rw [opMakeKey, if_neg hp2, keyPrepAll]
  have hpoint {β : Type} (f : Mem → β) : ((opMakeKey fp p2 p3 (vs.map Val.toMem)).1).map f =
      (vs.map Val.toMem).map f ↔
      ∀ j v, vs[j]? = some v → f (keyPrep fp (isTextCol p3 j) v.toMem) = f v.toMem := by
    rw [hprep, List.ext_getElem?_iff]
    refine forall_congr' fun j => ?_
    simp only [List.getElem?_map, List.getElem?_mapIdx]
    cases vs[j]? with
    | none => simp
    | some v => simp
  constructor
  · intro h j v hv htext
    have hj := (hpoint Mem.text).1 h.text j v hv
    rw [htext] at hj
    exact (text_keyPrep v).1 hj
  · intro h
    have htext : ∀ j v, vs[j]? = some v →
        (keyPrep fp (isTextCol p3 j) v.toMem).text = v.toMem.text := by
      intro j v hv
      cases hcol : isTextCol p3 j with
      | true => exact text_keyPrep_text v
      | false => exact (text_keyPrep v).2 (h j v hv hcol)
    have hdata : ∀ j v, vs[j]? = some v → _ := fun j v hv =>
      fieldData_eq (null_keyPrep (isTextCol p3 j) v) (htext j v hv)
    refine ⟨(hpoint Mem.text).2 htext, fun e p2 uniqueCnt => ?_, (hpoint callbackArg).2 ?_⟩
    · exact opMakeRecord_congr e p2 uniqueCnt ((hpoint _).2 fun j v hv => (hdata j v hv).1)
        ((hpoint _).2 fun j v hv => (hdata j v hv).2)
    · intro j v hv
      rw [callbackArg, callbackArg, null_keyPrep, htext j v hv]

/-- A NULL, an integer and the text `1.5`. -/
theorem makeKey_frame_three :
    SameTexts ([.null, .int 7 none, .str [49, 46, 53, 0]].map Val.toMem)
        (opMakeKey exactArith 1 (some [110, 110, 116]) ([.null, .int 7 none, .str [49, 46, 53, 0]].map
          Val.toMem)).1 ↔
      ∀ j v, [Val.null, .int 7 none, .str [49, 46, 53, 0]][j]? = some v →
        isTextCol (some [110, 110, 116]) j = false → v.Canonical exactArith :=
  makeKey_frame (by decide) (some [110, 110, 116]) [.null, .int 7 none, .str [49, 46, 53, 0]]

/-- `007` comes back as `7`. -/
theorem makeKey_frame_fails : ¬ SameTexts ([.str (ascii "007" ++ [0])].map Val.toMem)
    (opMakeKey exactArith 1 (some [110]) ([.str (ascii "007" ++ [0])].map Val.toMem)).1 := by
  intro h
  have hread : dbsqlAtof exactArith (ascii "007" ++ [0]) = .fin (7 : CInt).toInt := by decide +kernel
  have htext : (keyPrep exactArith false (Val.str (ascii "007" ++ [0])).toMem).text = fmtD 7 ++ [0] := by
    rw [← fmtG15_int, ← hread]
    rfl
  have hsame : [(keyPrep exactArith false (Val.str (ascii "007" ++ [0])).toMem).text] =
      [ascii "007" ++ [0]] := h.text
  rw [htext] at hsame
  revert hsame
  decide

end

end Dbsql.L3
