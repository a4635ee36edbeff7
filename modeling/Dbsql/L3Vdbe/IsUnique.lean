import Dbsql.L3Vdbe.RowMachine
/-!
# `OP_IsUnique` over a storage that fails (vdbe.c:2825-2902)

`OP_IsUnique` looks for an entry with the fields of a new key and another rowid. It makes up to
five calls of the storage, each of which may fail (`fails`).

It declares an `rc` of its own, which hides that of the program. After an error it jumps to
`abort_due_to_error`, where the program's `rc` is tested, which is still that of success; and
`__sm_next` and `__sm_key` do not report their errors at all.

The search key is four bytes shorter than the entries, so the entry that it finds is the first one
at or above the fields. Its own fields may be shorter, which `res < 0` tells and nobody asks for.

Results:
* `isUnique_outcome`: the outcome, by the first entry at or above the fields.
* `isUnique_checks_iff`: when the opcode tells of the other entry, and of every error.
-/
namespace Dbsql.L3.Row
open Dbsql.Core Dbsql.L1 Dbsql.L2

/-- A call that may fail. -/
inductive SmCall
  /-- the search key of `__sm_moveto` -/
  | umalloc
  | setRange
  | last
  /-- in `__sm_next` -/
  | next
  /-- in `__sm_key_compare` -/
  | compare
  /-- in `__sm_key` -/
  | key
  deriving DecidableEq, Repr

/-- How the opcode ends. -/
inductive After
  | goto (pc : Nat) (stack : List Val)
  /-- what `dbsql_step` is told, and `p->rc` -/
  | halted (returned rc : Rc)
  /-- `memcpy` of `key.size - offset` bytes, which is negative -/
  | crashed
  deriving DecidableEq, Repr

/-- `vdbe_halt` (vdbe.c:4955-4963); `p->rc` is that of success while the program runs. -/
def vdbeHalt (rc : Rc) : After :=
  if rc ≠ .success then .halted .error rc else .halted .done .success

/-- `abort_due_to_error` (vdbe.c:4987-4991), which uses the program's `rc`. -/
def abortDueToError (rc : Rc) : After := vdbeHalt rc

section
variable (fails : SmCall → Bool)

/-- `__sm_moveto`, and the calls that failed. -/
def smMovetoFails (t : Btree) (pos : Option Dbt) (item : Bytes) (result : Int) : Moved × List SmCall :=
  if fails .umalloc then (⟨.internal, result, pos⟩, [.umalloc])
  else if fails .setRange then (⟨.internal, result, pos⟩, [.setRange])
  else
    let m := smMoveto t pos item result
    if m.result < 0 ∧ fails .last then (⟨.internal, result, pos⟩, [.last]) else (m, [])

/-- `__sm_next`: a failure leaves `*result` alone, and success is returned. -/
def smNextFails (t : Btree) (pos : Option Dbt) (result : Int) : Moved × List SmCall :=
  if fails .next then (⟨.success, result, pos⟩, [.next]) else (smNext t pos result, [])

/-- `__sm_key_compare`. -/
def smKeyCompareFails (t : Btree) (pos : Option Dbt) (value : Bytes) (ignore : Nat) (result : Int) :
    (Rc × Int) × List SmCall :=
  if fails .compare then ((.internal, result), [.compare])
  else (smKeyCompare t pos value ignore result, [])

/-- `__sm_key`: the bytes it copies; `none` if the key ends before `offset`, for `size_t` wraps. -/
def smKeyFails (t : Btree) (pos : Option Dbt) (offset len : Nat) : Option Bytes × List SmCall :=
  if fails .key then (some [], [.key])
  else if (smKeySize t pos offset).2 < offset then (none, [])
  else (some (smKey t pos offset len), [])

/-- The rowid of the entry against `r` (vdbe.c:2879-2898). -/
def isUniqueRowid (t : Btree) (pos : Option Dbt) (junk : Unset) (zKey : Bytes) (r : CInt) (p2 pc : Nat)
    (st : List Val) : After × List SmCall :=
  match smKeyFails fails t pos (zKey.length - 4) 4 with
  | (none, failed) => (.crashed, failed)
  | (some key, failed) =>
    let v := keyRowid (key ++ junk.v.drop key.length)
    if v = r then (.goto p2 st, failed) else (.goto (pc + 1) (.int v none :: st), failed)

/-- The entry under the cursor against the key (vdbe.c:2870-2898). -/
def isUniqueEntry (rcProgram : Rc) (t : Btree) (m : Moved) (junk : Unset) (zKey : Bytes) (r : CInt)
    (p2 pc : Nat) (st : List Val) : After × List SmCall :=
  match smKeyCompareFails fails t m.pos (beforeRowid zKey) 4 m.result with
  | ((rc, res), failed) =>
    if rc ≠ .success then (abortDueToError rcProgram, failed)
    else if 0 < res then (.goto p2 st, failed)
    else
      let (after, failed') := isUniqueRowid fails t m.pos junk zKey r p2 pc st
      (after, failed ++ failed')

/-- `OP_IsUnique` of the key `zKey` and the rowid `r`; `zKey` stays on the stack, over `st`. -/
def isUnique (t : Btree) (pos : Option Dbt) (junk : Unset) (zKey : Bytes) (r : CInt) (p2 pc : Nat)
    (st : List Val) : After × List SmCall :=
  let rcProgram : Rc := .success
  let st := .str zKey :: st
  match smMovetoFails fails t pos (beforeRowid zKey) junk.res with
  | (m, failed) =>
    if m.rc ≠ .success then (abortDueToError rcProgram, failed)
    else if m.result < 0 then
      let (m', failed') := smNextFails fails t m.pos m.result
      if m'.result ≠ 0 then (.goto p2 st, failed ++ failed')
      else
        let (after, failed'') := isUniqueEntry fails rcProgram t m' junk zKey r p2 pc st
        (after, failed ++ failed' ++ failed'')
    else
      let (after, failed') := isUniqueEntry fails rcProgram t m junk zKey r p2 pc st
      (after, failed ++ failed')

end

/-- The rowid of an entry. -/
def entryRowid (k : Bytes) : CInt := keyRowid (k.drop (k.length - 4))

/-- What is asked of the opcode. -/
structure ChecksUnique (t : Btree) (zKey : Bytes) (r : CInt) (p2 pc : Nat) (st : List Val)
    (out : After × List SmCall) : Prop where
  /-- an error ends the program with that error -/
  error : out.2 ≠ [] → out.1 = .halted .error .internal
  /-- a jump if no other entry has these fields -/
  unique : out.2 = [] → (∀ k ∈ t, SameFields zKey k.data → entryRowid k.data = r) →
    out.1 = .goto p2 (.str zKey :: st)
  /-- else the rowid of that entry -/
  other : out.2 = [] → ∀ k ∈ t, SameFields zKey k.data → entryRowid k.data ≠ r →
    out.1 = .goto (pc + 1) (.int (entryRowid k.data) none :: .str zKey :: st)

/-- None of the calls that are made for this entry fails. -/
def NoFailure (fails : SmCall → Bool) (first : Option (Dbt × Bytes)) (zKey : Bytes) : Prop :=
  fails .umalloc = false ∧ fails .setRange = false ∧
    match first with
    | none => fails .last = false ∧ fails .next = false
    | some e => fails .compare = false ∧
        (smCmpValues (beforeRowid e.1.data) (beforeRowid zKey) ≤ 0 → fails .key = false)

/-- The first entry at or above the fields is the one with these fields and another rowid, if
there is one; and its fields are not below them. -/
def FirstDecides (t : Btree) (zKey : Bytes) (r : CInt) (e : Dbt) : Prop :=
  0 ≤ smCmpValues (beforeRowid e.data) (beforeRowid zKey) ∧
    ∀ k ∈ t, SameFields zKey k.data → entryRowid k.data ≠ r → k = e

/-! ## The outcome -/

section
variable {fails : SmCall → Bool} {t : Btree} {pos : Option Dbt} {junk : Unset} {zKey : Bytes} {r : CInt}
  {p2 pc : Nat} {st : List Val}

theorem abortDueToError_success (rc : Rc) : abortDueToError .success ≠ .halted .error rc := by
  unfold abortDueToError vdbeHalt
  rw [if_neg (not_not.2 rfl)]
  nofun

theorem isUniqueRowid_no_error (rc : Rc) :
    (isUniqueRowid fails t pos junk zKey r p2 pc st).1 ≠ .halted .error rc := by
  unfold isUniqueRowid
  split
  · exact After.noConfusion
  · dsimp only
    split
    · exact After.noConfusion
    · exact After.noConfusion

theorem isUniqueEntry_no_error (m : Moved) (rc : Rc) :
    (isUniqueEntry fails .success t m junk zKey r p2 pc st).1 ≠ .halted .error rc := by
  unfold isUniqueEntry
  split
  split
  · exact abortDueToError_success rc
  split
  · exact After.noConfusion
  · exact isUniqueRowid_no_error rc

/-- The opcode ends no program with an error. -/
theorem isUnique_no_error (rc : Rc) :
    (isUnique fails t pos junk zKey r p2 pc st).1 ≠ .halted .error rc := by
  unfold isUnique
  dsimp only
  split
  · exact abortDueToError_success rc
  split
  · split
    · exact After.noConfusion
    · exact isUniqueEntry_no_error _ rc
  · exact isUniqueEntry_no_error _ rc

theorem smMovetoFails_ok (hm : fails .umalloc = false) (hs : fails .setRange = false)
    (hl : fails .last = false) (item : Bytes) (result : Int) :
    smMovetoFails fails t pos item result = (smMoveto t pos item result, []) := by
  unfold smMovetoFails
  simp only [hm, hs, hl, Bool.false_eq_true, if_false, and_false]

theorem smMovetoFails_ceil (hm : fails .umalloc = false) (hs : fails .setRange = false)
    {item : Bytes} {e : Dbt × Bytes} (hc : t.ceil ⟨item⟩ = some e) (result : Int) :
    smMovetoFails fails t pos item result = (⟨.success, 0, some e.1⟩, []) := by
  unfold smMovetoFails
  simp only [hm, hs, smMoveto_ceil hc, Bool.false_eq_true, if_false, Int.lt_irrefl, false_and]

/-- With nothing at or above the fields the opcode jumps. -/
theorem isUnique_none (hc : t.ceil ⟨beforeRowid zKey⟩ = none) (hm : fails .umalloc = false)
    (hs : fails .setRange = false) (hl : fails .last = false) :
    isUnique fails t pos junk zKey r p2 pc st =
      (.goto p2 (.str zKey :: st), if fails .next then [.next] else []) := by
  have hmove : (smMoveto t pos (beforeRowid zKey) junk.res).rc = .success := smMoveto_rc
  have hres : (smMoveto t pos (beforeRowid zKey) junk.res).result = -1 ∧
      (smNext t (smMoveto t pos (beforeRowid zKey) junk.res).pos (-1)).result = 1 := by
    rcases smMoveto_cases t pos (beforeRowid zKey) junk.res with ⟨e, h, -⟩ | ⟨e, -, hlast, h⟩ |
      ⟨hno, h⟩
    · rw [hc] at h
      cases h
    · have hsucc : t.succ e.1 = none := SortedMap.succ_eq_none.2 (SortedMap.last_some hlast).2
      rw [h]
      refine ⟨rfl, ?_⟩
      rw [smNext_on, hsucc]
    · rw [h]
      exact ⟨rfl, smNext_empty hno⟩
  unfold isUnique smNextFails
  rw [smMovetoFails_ok hm hs hl]
  simp only [hmove, ne_eq, not_true_eq_false, if_false, hres.1]
  cases fails .next
  · simp [hres.2]
  · simp

/-- What the rowid decides on an entry. -/
theorem isUniqueRowid_on {k : Dbt} (hk : k ∈ t) (hkey : fails .key = false) :
    isUniqueRowid fails t (some k) junk zKey r p2 pc st =
      if k.data.length < zKey.length - 4 then (.crashed, [])
      else
        let key := (k.data.drop (zKey.length - 4)).take 4
        let v := keyRowid (key ++ junk.v.drop key.length)
        if v = r then (.goto p2 st, []) else (.goto (pc + 1) (.int v none :: st), []) := by
  have hsize : smKeySize t (some k) (zKey.length - 4) = (.success, k.data.length) := by
    obtain ⟨x, hx⟩ := Option.isSome_iff_exists.1 (SortedMap.find?_isSome.2 hk)
    obtain ⟨-, rfl⟩ := SortedMap.find?_some hx
    simp only [smKeySize, cGet, hx]
  unfold isUniqueRowid smKeyFails
  rw [hkey, if_neg Bool.false_ne_true, hsize, smKey_on hk]
  dsimp only
  by_cases hshort : k.data.length < zKey.length - 4
  · rw [if_pos hshort, if_pos hshort]
  · rw [if_neg hshort, if_neg hshort]

theorem isUniqueRowid_fails (hkey : fails .key = true) :
    (isUniqueRowid fails t pos junk zKey r p2 pc st).2 = [.key] := by
  unfold isUniqueRowid smKeyFails
  rw [hkey, if_pos rfl]
  dsimp only
  split
  · rfl
  · rfl

/-- Otherwise it goes by the first entry at or above them. -/
theorem isUnique_some {e : Dbt × Bytes} (hlen : 4 ≤ e.1.data.length)
    (hc : t.ceil ⟨beforeRowid zKey⟩ = some e) (hm : fails .umalloc = false)
    (hs : fails .setRange = false) :
    isUnique fails t pos junk zKey r p2 pc st =
      if fails .compare then (abortDueToError .success, [.compare])
      else if 0 < smCmpValues (beforeRowid e.1.data) (beforeRowid zKey) then
        (.goto p2 (.str zKey :: st), [])
      else isUniqueRowid fails t (some e.1) junk zKey r p2 pc (.str zKey :: st) := by
  have hk := SortedMap.mem_of_entry (SortedMap.ceil_some hc).1
  have hcmp := smKeyCompare_on hk hlen (beforeRowid zKey) 0
  unfold isUnique isUniqueEntry smKeyCompareFails
  rw [smMovetoFails_ceil hm hs hc]
  simp only [ne_eq, not_true_eq_false, if_false, Int.lt_irrefl, List.nil_append]
  cases fails .compare
  · simp only [Bool.false_eq_true, if_false, hcmp, not_true_eq_false, List.nil_append]
  · rfl

/-! ## Failures -/

/-- No call fails exactly when none of those that are made does. -/
theorem isUnique_failed_iff (hlen : ∀ k ∈ t, 4 ≤ k.data.length) :
    (isUnique fails t pos junk zKey r p2 pc st).2 = [] ↔
      NoFailure fails (t.ceil ⟨beforeRowid zKey⟩) zKey := by
  unfold NoFailure
  cases hm : fails .umalloc with
  | true => simp [isUnique, smMovetoFails, hm]
  | false =>
  cases hs : fails .setRange with
  | true => simp [isUnique, smMovetoFails, hm, hs]
  | false =>
  rw [and_iff_right rfl, and_iff_right rfl]
  cases hc : t.ceil ⟨beforeRowid zKey⟩ with
  | none =>
    dsimp only
    cases hl : fails .last with
    | true =>
      have hres : (smMoveto t pos (beforeRowid zKey) junk.res).result < 0 := by
        rcases smMoveto_cases t pos (beforeRowid zKey) junk.res with ⟨e, h, -⟩ | ⟨e, -, -, h⟩ | ⟨-, h⟩
        · rw [hc] at h
          cases h
        · rw [h]
          exact Int.negSucc_lt_zero 0
        · rw [h]
          exact Int.negSucc_lt_zero 0
      simp [isUnique, smMovetoFails, hm, hs, hl, hres]
    | false =>
      rw [isUnique_none hc hm hs hl]
      cases fails .next
      · exact iff_of_true rfl ⟨rfl, rfl⟩
      · exact iff_of_false (List.cons_ne_nil _ _) fun h => Bool.noConfusion h.2
  | some e =>
    have hk := SortedMap.mem_of_entry (SortedMap.ceil_some hc).1
    rw [isUnique_some (hlen _ hk) hc hm hs]
    dsimp only
    cases fails .compare with
    | true => exact iff_of_false (List.cons_ne_nil _ _) fun h => Bool.noConfusion h.1
    | false =>
    rw [if_neg Bool.false_ne_true, and_iff_right rfl]
    split
    · exact iff_of_true rfl fun h => absurd h (by omega)
    · cases hkey : fails .key with
      | true =>
        rw [isUniqueRowid_fails hkey]
        exact iff_of_false (List.cons_ne_nil _ _) fun h => Bool.noConfusion (h (by omega))
      | false =>
        rw [isUniqueRowid_on hk hkey]
        refine iff_of_true ?_ fun _ => rfl
        split
        · rfl
        · dsimp only
          split
          · rfl
          · rfl

/-! ## The other entry -/

theorem rowidKey_keyRowid {b : Bytes} (hb : b.length = 4) : rowidKey (keyRowid b) = b := by
  obtain ⟨b0, b1, b2, b3, rfl⟩ := List.length_eq_four.1 hb
  rw [rowidKey, keyRowid, BitVec.xor_assoc, BitVec.xor_self, BitVec.xor_zero]
  exact store_load .big b0 b1 b2 b3

theorem keyRowid_inj {a b : Bytes} (ha : a.length = 4) (hb : b.length = 4)
    (h : keyRowid a = keyRowid b) :
    a = b := by
  rw [← rowidKey_keyRowid ha, ← rowidKey_keyRowid hb, h]

/-- The rowid read from an entry with the fields of the key is its own. -/
theorem isUniqueRowid_same {k : Dbt} (hk : k ∈ t) (hkey : fails .key = false)
    (h4 : 4 ≤ k.data.length) (hz : 4 ≤ zKey.length) (hj : junk.v.length = 4)
    (hsame : SameFields zKey k.data) :
    isUniqueRowid fails t (some k) junk zKey r p2 pc st =
      if entryRowid k.data = r then (.goto p2 st, [])
      else (.goto (pc + 1) (.int (entryRowid k.data) none :: st), []) := by
  have hlens := congrArg List.length hsame
  rw [beforeRowid, beforeRowid, List.length_take, List.length_take] at hlens
  have hlen : k.data.length = zKey.length := by omega
  have hdrop : (k.data.drop (k.data.length - 4)).length = 4 := by
    rw [List.length_drop]
    omega
  rw [isUniqueRowid_on hk hkey, if_neg (by omega), ← hlen]
  dsimp only
  rw [List.take_of_length_le hdrop.le, hdrop, List.drop_of_length_le hj.le, List.append_nil,
    entryRowid]

/-- From an entry with shorter fields it is read with bytes that nobody has set. -/
theorem isUniqueRowid_short {k : Dbt} (hk : k ∈ t) (hkey : fails .key = false)
    (h : k.data.length < zKey.length) (after : After)
    (hall : ∀ junk : Unset, junk.v.length = 4 →
      (isUniqueRowid fails t (some k) junk zKey r p2 pc (.str zKey :: st)).1 = after) :
    after ≠ .goto p2 (.str zKey :: st) ∧ ∀ v, after ≠ .goto (pc + 1)
      (.int v none :: .str zKey :: st) := by
  let key := (k.data.drop (zKey.length - 4)).take 4
  have hshort : key.length < 4 := by
    rw [List.length_take, List.length_drop]
    omega
  let filled (b : UInt8) : Unset := ⟨⟨[b, b, b, b], [], 0, 0, 0⟩, 0⟩
  let v (b : UInt8) : CInt := keyRowid (key ++ (filled b).v.drop key.length)
  -- two fillings give two rowids
  have hv : v 0 ≠ v 1 := by
    intro heq
    have hlen : ∀ b, (key ++ (filled b).v.drop key.length).length = 4 := fun b => by
      rw [List.length_append, List.length_drop]
      exact Nat.add_sub_cancel' hshort.le
    have hdrop := List.append_cancel_left (keyRowid_inj (hlen 0) (hlen 1) heq)
    have hget : ∀ b, (filled b).v.drop key.length ≠ [] ∧ ∀ x ∈ (filled b).v.drop key.length, x =
        b := fun b => by
      refine ⟨fun hnil => ?_, fun x hx => ?_⟩
      · have := List.drop_eq_nil_iff.1 hnil
        exact absurd this (Nat.not_le.2 hshort)
      · have := List.mem_of_mem_drop hx
        simpa [filled] using this
    obtain ⟨x, hx⟩ := List.exists_mem_of_ne_nil _ (hget 0).1
    have h0 := (hget 0).2 x hx
    have h1 := (hget 1).2 x (hdrop ▸ hx)
    rw [h0] at h1
    exact absurd h1 (by decide)
  have hout : ∀ b, (if k.data.length < zKey.length - 4 then .crashed
      else if v b = r then .goto p2 (.str zKey :: st)
      else .goto (pc + 1) (.int (v b) none :: .str zKey :: st)) = after := fun b => by
    have h := hall (filled b) rfl
    rw [isUniqueRowid_on hk hkey] at h
    rw [← h]
    dsimp only
    split
    · rfl
    · split
      · rfl
      · rfl
  by_cases hcrash : k.data.length < zKey.length - 4
  · have h := hout 0
    rw [if_pos hcrash] at h
    exact h ▸ ⟨nofun, nofun⟩
  · simp only [if_neg hcrash] at hout
    constructor
    · intro h
      have hr : ∀ b, v b = r := fun b => by
        have hb := hout b
        split at hb
        · assumption
        · cases hb.trans h
      exact hv ((hr 0).trans (hr 1).symm)
    · intro w h
      have hw : ∀ b, v b = w := fun b => by
        have hb := hout b
        split at hb
        · cases hb.trans h
        · cases hb.trans h
          rfl
      exact hv ((hw 0).trans (hw 1).symm)

theorem compareLex_append_lt : ∀ {a b : Bytes}, List.compareLex compare a b = .lt →
    b.length ≤ a.length →
    ∀ x, List.compareLex compare (a ++ x) b = .lt
  | [], [], h, _, _ => by cases h
  | [], _ :: _, _, hle, _ => by cases hle
  | _ :: _, [], h, _, _ => by cases h
  | c :: a, d :: b, h, hle, x => by
    rw [List.compareLex_cons_cons] at h
    rw [List.cons_append, List.compareLex_cons_cons]
    cases hcd : compare c d with
    | lt => rfl
    | gt =>
      rw [hcd] at h
      cases h
    | eq =>
      rw [hcd] at h
      exact compareLex_append_lt h (Nat.le_of_succ_le_succ hle) x

/-- An entry at or above the fields of the key has smaller fields only if it is shorter. -/
theorem length_lt_of_below {k : Dbt} (hle : (⟨beforeRowid zKey⟩ : Dbt) ≤ k) (h4 : 4 ≤ k.data.length)
    (hlt : smCmpValues (beforeRowid k.data) (beforeRowid zKey) < 0) : k.data.length < zKey.length := by
  by_contra hlen
  rw [smCmpValues_eq, ordInt_lt] at hlt
  have hlens : (beforeRowid zKey).length ≤ (beforeRowid k.data).length := by
    rw [beforeRowid, beforeRowid, List.length_take, List.length_take]
    omega
  have happ := compareLex_append_lt hlt hlens (k.data.drop (k.data.length - 4))
  rw [beforeRowid, List.take_append_drop] at happ
  exact absurd (Dbt.lt_iff.2 happ) (not_lt.2 hle)

/-- **`OP_IsUnique` tells of the other entry, and of every error,** exactly when no call that it makes
fails and the first entry at or above the fields decides. -/
theorem isUnique_checks_iff (hlen : ∀ k ∈ t, 4 ≤ k.data.length)
    (huniq : ∀ k ∈ t, ∀ k' ∈ t, SameFields k.data k'.data → k = k') (hz : 4 < zKey.length) :
    (∀ (pos : Option Dbt) (junk : Unset), junk.v.length = 4 →
      ChecksUnique t zKey r p2 pc st (isUnique fails t pos junk zKey r p2 pc st)) ↔
    NoFailure fails (t.ceil ⟨beforeRowid zKey⟩) zKey ∧
      ∀ e, t.ceil ⟨beforeRowid zKey⟩ = some e → FirstDecides t zKey r e.1 := by
  constructor
  · intro h
    have hfail : ∀ pos junk, junk.v.length = 4 → (isUnique fails t pos junk zKey r p2 pc st).2 =
        [] := by
      intro pos junk hj
      by_contra hne
      exact isUnique_no_error .internal ((h pos junk hj).error hne)
    have hno := (isUnique_failed_iff hlen).1 (hfail none ⟨⟨[0, 0, 0, 0], [], 0, 0, 0⟩, 0⟩ rfl)
    refine ⟨hno, fun e hc => ?_⟩
    have he := SortedMap.ceil_some hc
    have hk := SortedMap.mem_of_entry he.1
    obtain ⟨hm, hs, hrest⟩ := hno
    rw [hc] at hrest
    have hrun := fun pos junk => @isUnique_some fails t pos junk zKey r p2 pc st e (hlen _ hk) hc hm hs
    simp only [hrest.1, Bool.false_eq_true, if_false] at hrun
    have hle : 0 ≤ smCmpValues (beforeRowid e.1.data) (beforeRowid zKey) := by
      by_contra hneg
      have hkey := hrest.2 (by omega)
      have hshort := length_lt_of_below he.2.1 (hlen _ hk) (by omega)
      simp only [if_neg (fun hpos => hneg (Int.le_of_lt hpos))] at hrun
      by_cases hex : ∃ k ∈ t, SameFields zKey k.data ∧ entryRowid k.data ≠ r
      · obtain ⟨k, hkt, hsame, hne⟩ := hex
        exact (isUniqueRowid_short hk hkey hshort _ fun junk hj =>
          hrun none junk ▸ (h none junk hj).other (hfail none junk hj) k hkt hsame hne).2 _ rfl
      · have hall : ∀ k ∈ t, SameFields zKey k.data → entryRowid k.data = r := fun k hkt hsame => by
          by_contra hne
          exact hex ⟨k, hkt, hsame, hne⟩
        exact (isUniqueRowid_short hk hkey hshort _ fun junk hj =>
          hrun none junk ▸ (h none junk hj).unique (hfail none junk hj) hall).1 rfl
    refine ⟨hle, fun k hkt hsame hne => ?_⟩
    have hother := (h none ⟨⟨[0, 0, 0, 0], [], 0, 0, 0⟩, 0⟩ rfl).other (hfail _ _ rfl) k hkt hsame hne
    rw [hrun] at hother
    split at hother
    · cases hother
    · have heq : beforeRowid e.1.data = beforeRowid zKey := smCmpValues_eq_zero.1 (by omega)
      exact huniq k hkt e.1 hk (hsame.symm.trans heq.symm)
  · rintro ⟨hno, hfirst⟩ pos junk hj
    have hfail : (isUnique fails t pos junk zKey r p2 pc st).2 = [] := (isUnique_failed_iff hlen).2 hno
    obtain ⟨hm, hs, hrest⟩ := hno
    cases hc : t.ceil ⟨beforeRowid zKey⟩ with
    | none =>
      rw [hc] at hrest
      have hrun := @isUnique_none fails t pos junk zKey r p2 pc st hc hm hs hrest.1
      refine ⟨fun hne => absurd hfail hne, fun _ _ => hrun ▸ rfl, fun _ k hkt hsame _ => ?_⟩
      exact absurd (SortedMap.ceil_eq_none.1 hc k hkt) (not_lt.2 (beforeRowid_le hsame))
    | some e =>
      have hk := SortedMap.mem_of_entry (SortedMap.ceil_some hc).1
      obtain ⟨hle, hone⟩ := hfirst e hc
      rw [hc] at hrest
      have hrun := @isUnique_some fails t pos junk zKey r p2 pc st e (hlen _ hk) hc hm hs
      rw [hrest.1, if_neg Bool.false_ne_true] at hrun
      by_cases hpos : 0 < smCmpValues (beforeRowid e.1.data) (beforeRowid zKey)
      · rw [if_pos hpos] at hrun
        refine ⟨fun hne => absurd hfail hne, fun _ _ => hrun ▸ rfl, fun _ k hkt hsame hne => ?_⟩
        obtain rfl := hone k hkt hsame hne
        have := smCmpValues_eq_zero.2 hsame.symm
        omega
      · rw [if_neg hpos] at hrun
        have hsame : SameFields zKey e.1.data := (smCmpValues_eq_zero.1 (by omega)).symm
        rw [isUniqueRowid_same hk (hrest.2 (by omega)) (hlen _ hk) (by omega) hj hsame] at hrun
        rw [hrun]
        by_cases hr : entryRowid e.1.data = r
        · rw [if_pos hr]
          refine ⟨fun hne => absurd rfl hne, fun _ _ => rfl, fun _ k hkt hsame' hne => ?_⟩
          obtain rfl := huniq k hkt e.1 hk (hsame'.symm.trans hsame)
          exact absurd hr hne
        · rw [if_neg hr]
          refine ⟨fun hne => absurd rfl hne, fun _ hall => absurd (hall e.1 hk hsame) hr,
            fun _ k hkt hsame' hne => ?_⟩
          obtain rfl := huniq k hkt e.1 hk (hsame'.symm.trans hsame)
          rfl

/-- An index with one entry, of the text `x` and the rowid 2. -/
def oneEntry : Btree := SortedMap.empty.insert ⟨[99, 120, 0, 128, 0, 0, 2]⟩ []

theorem mem_oneEntry {k : Dbt} : k ∈ oneEntry ↔ k = ⟨[99, 120, 0, 128, 0, 0, 2]⟩ := by
  rw [oneEntry, SortedMap.mem_insert]
  simp

theorem isUnique_checks_iff_oneEntry :
    (∀ (pos : Option Dbt) (junk : Unset), junk.v.length = 4 →
      ChecksUnique oneEntry [99, 120, 0, 128, 0, 0, 1] 1 9 3 []
        (isUnique (fun _ => false) oneEntry pos junk [99, 120, 0, 128, 0, 0, 1] 1 9 3 [])) ↔
    NoFailure (fun _ => false) (oneEntry.ceil ⟨beforeRowid [99, 120, 0, 128, 0, 0, 1]⟩)
      [99, 120, 0, 128, 0, 0, 1] ∧
      ∀ e, oneEntry.ceil ⟨beforeRowid [99, 120, 0, 128, 0, 0, 1]⟩ = some e →
        FirstDecides oneEntry [99, 120, 0, 128, 0, 0, 1] 1 e.1 := by
  refine isUnique_checks_iff (fun k hk => ?_) (fun k hk k' hk' _ => ?_) (by decide)
  · obtain rfl := mem_oneEntry.1 hk
    decide
  · exact (mem_oneEntry.1 hk).trans (mem_oneEntry.1 hk').symm

/-- When `DB_SET_RANGE` fails, the program ends as if it had succeeded. -/
theorem isUnique_hides_error : ¬ ∀ (fails : SmCall → Bool) (t : Btree) (zKey : Bytes) (r : CInt)
    (p2 pc : Nat) (st : List Val), (∀ k ∈ t, 4 ≤ k.data.length) →
    (∀ k ∈ t, ∀ k' ∈ t, SameFields k.data k'.data → k = k') → 4 < zKey.length →
    ∀ (pos : Option Dbt) (junk : Unset), junk.v.length = 4 →
      ChecksUnique t zKey r p2 pc st (isUnique fails t pos junk zKey r p2 pc st) := by
  intro h
  have hrun := (h (fun c => c = .setRange) oneEntry [99, 120, 0, 128, 0, 0, 1] 1 9 3 []
    (fun k hk => by
      obtain rfl := mem_oneEntry.1 hk
      decide)
    (fun k hk k' hk' _ => (mem_oneEntry.1 hk).trans (mem_oneEntry.1 hk').symm) (by decide)
    none ⟨⟨[0, 0, 0, 0], [], 0, 0, 0⟩, 0⟩ rfl).error (List.cons_ne_nil _ _)
  cases hrun

end

end Dbsql.L3.Row
