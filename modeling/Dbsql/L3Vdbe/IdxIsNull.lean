import Dbsql.L1Encoding.IndexKey
/-!
# NULL fields of an index entry (vdbe.c:3741-3772)

`OP_IdxIsNull` looks for the letter of NULL at the beginning of each of the first P1 fields. A field
begins behind the NUL that ends the one before. The texts have no NUL inside, so the scan is at a
field in each round, and it stops before it comes to the rowid.

Results:
* `nullScan_fields`: the scan of fields.
* `opIdxIsNull_iff`: on a key of `OP_MakeIdxKey` it finds the NULL fields.
-/
namespace Dbsql.L3
open Dbsql.L1

/-- The loop, from the place that `k` is at (vdbe.c:3760-3769). -/
def nullScan : Nat → Bytes → Bool
  | 0, _ => false
  | _ + 1, [] => false
  | i + 1, c :: z => if c = 97 then true else nullScan i (((c :: z).dropWhile (· ≠ 0)).drop 1)

/-- `OP_IdxIsNull` (vdbe.c:3750-3772): whether it jumps to P2. It pops the key. -/
def opIdxIsNull (p1 : Int) (pTos : Mem) : Bool := nullScan p1.toNat pTos.z

/-! ## The fields of a key -/

theorem enc_head (c : KeyCol) : ∃ l s, c.enc = l :: s ∧ (l = 97 ↔ c.1 = .null) := by
  obtain ⟨c, hc⟩ := c
  cases c <;> simp [KeyCol.enc, Col.body]

/-- Behind the NUL of a field the next one begins. -/
theorem enc_next (c : KeyCol) (rest : Bytes) : ((c.enc ++ rest).dropWhile (· ≠ 0)).drop 1 = rest := by
  have hpos : ∀ b ∈ c.1.body, b ≠ 0 := by
    intro b hb h
    have := c.1.body_pos c.2 b hb
    rw [compare_byte_lt_iff, h] at this
    exact absurd this (by decide)
  have hbody : (c.1.body ++ ([0] ++ rest)).dropWhile (· ≠ 0) = ([0] ++ rest).dropWhile (· ≠ 0) := by
    apply List.dropWhile_append_of_pos
    simpa using hpos
  rw [KeyCol.enc, List.append_assoc, hbody]
  simp

/-- The scan of the fields `cs`, with as many rounds as there are fields or fewer. -/
theorem nullScan_fields (cs : List KeyCol) (rest : Bytes) : ∀ {i : Nat}, i ≤ cs.length →
    (nullScan i (cs.flatMap KeyCol.enc ++ rest) = true ↔ ∃ c ∈ cs.take i, c.1 = .null) := by
  induction cs with
  | nil =>
    intro i hi
    simp [Nat.le_zero.1 hi, nullScan]
  | cons c cs ih =>
    intro i hi
    cases i with
    | zero => simp [nullScan]
    | succ i =>
      obtain ⟨l, s, henc, hnull⟩ := enc_head c
      have hnext := enc_next c (cs.flatMap KeyCol.enc ++ rest)
      rw [List.flatMap_cons, List.append_assoc]
      rw [henc, List.cons_append] at hnext ⊢
      rw [nullScan, hnext, List.take_succ_cons]
      by_cases hl : l = 97
      · simp [hl, hnull.1 hl]
      · rw [if_neg hl, ih (by simpa using hi)]
        have hc : c.1 ≠ .null := fun h => hl (hnull.2 h)
        simp [hc]

/-! ## The opcode -/

section
variable {L : Type} {fp : LongDouble L}

theorem colOf_eq_null {text : Bool} {m : Mem} : colOf fp text m = .null ↔ m.flags.null = true := by
  by_cases h : m.flags.null = true
  · simp [colOf, h]
  · refine iff_of_false ?_ h
    unfold colOf
    rw [if_neg h]
    repeat' split
    all_goals nofun

/-- **Which keys have a NULL field**: `OP_IdxIsNull` jumps on a key of `OP_MakeIdxKey` exactly if one of
the first P1 fields is NULL. -/
theorem opIdxIsNull_iff (fp : LongDouble L) (p1 p2 : Int) (p3 : Option Bytes) (vs : List StackVal) (rowid : CInt)
    (hfree : NulFree fp p3 vs) (hp1 : p1 ≤ vs.length) :
    opIdxIsNull p1 (opMakeIdxKey fp p2 p3 (vs.map (·.toMem)) rowid).1 = true ↔
      ∃ j : Nat, j < p1 ∧ ∃ v, vs[j]? = some v ∧ v.flags.null = true := by
  obtain ⟨cs, hlen, hcols, hkey⟩ := hfree.cols
  rw [opIdxIsNull, opMakeIdxKey_z, makeIdxKey, hkey, nullScan_fields cs _ (by omega)]
  have hcol : ∀ {j : Nat} {v : StackVal}, vs[j]? = some v →
      ∃ c, cs[j]? = some c ∧ (c.1 = .null ↔ v.flags.null = true) := by
    intro j v hv
    have hj := congrArg (·[j]?) hcols
    simp only [colsOf, List.getElem?_mapIdx, hv, Option.map_some, List.getElem?_map] at hj
    obtain ⟨c, hc, heq⟩ := Option.map_eq_some_iff.1 hj.symm
    exact ⟨c, hc, heq ▸ colOf_eq_null⟩
  constructor
  · intro h
    obtain ⟨c, hc, hnull⟩ := h
    obtain ⟨j, hj⟩ := List.mem_iff_getElem?.1 hc
    rw [List.getElem?_take] at hj
    split at hj
    · next hjp =>
      obtain ⟨hjlen, -⟩ := List.getElem?_eq_some_iff.1 hj
      obtain ⟨v, hv⟩ : ∃ v, vs[j]? = some v := ⟨vs[j], List.getElem?_eq_getElem (by omega)⟩
      obtain ⟨c', hc', hiff⟩ := hcol hv
      rw [hj] at hc'
      cases hc'
      exact ⟨j, by omega, v, hv, hiff.1 hnull⟩
    · cases hj
  · intro h
    obtain ⟨j, hjp, v, hv, hnull⟩ := h
    obtain ⟨c, hc, hiff⟩ := hcol hv
    refine ⟨c, List.mem_iff_getElem?.2 ⟨j, ?_⟩, hiff.2 hnull⟩
    rw [List.getElem?_take, if_pos (by omega), hc]

end

theorem nullVal_kind : true = true ∨ false = true ∨ false = true ∨ false = true := .inl rfl

theorem nullVal_terminated (h : false = true) : ∃ s, ([] : Bytes) = s ++ [0] := by cases h

/-- NULL on the stack. -/
def nullVal : StackVal where
  i := 0
  flags := { null := true }
  r := .nan
  z := []
  kind := nullVal_kind
  terminated := nullVal_terminated

theorem opIdxIsNull_iff_two :
    opIdxIsNull 2 (opMakeIdxKey exactArith 0 none ([intVal 97, nullVal].map (·.toMem)) 97).1 = true ↔
      ∃ j : Nat, (j : Int) < 2 ∧ ∃ v, [intVal 97, nullVal][j]? = some v ∧ v.flags.null = true := by
  refine opIdxIsNull_iff exactArith 2 0 none [intVal 97, nullVal] 97 ?_ (by decide)
  intro c hc
  obtain ⟨j, hj, rfl⟩ := List.mem_mapIdx.1 hc
  obtain rfl | rfl : j = 0 ∨ j = 1 := by simp at hj; omega
  · trivial
  · trivial

end Dbsql.L3
