import Dbsql.Core.DList
import Dbsql.L1Encoding.RowidKey
/-!
# Hash tables (hash.c)

The elements of a `hash_t` are on one doubly linked list, from `first`; a bucket has the first of
its elements and how many there are. A key is a number, or bytes at an address, of the caller or
of a copy. Memory of the caller is the bytes that can be read from an address on; a copy of no
bytes reads as none.

`strncasecmp` looks at a key up to its first zero byte and `__hash_ignore_case` at all of it, or
for a length of zero at the string it points to, so equal keys of the string class can hash
differently (`canon`, `Valid`).

Results:
* `cmpFn_iff`: two keys are equal exactly if they have the same canonical form.
* `hash_congr`: a valid key hashes like every key equal to it.
-/
namespace Dbsql.L2.HashTable
open Dbsql.Core.DList Dbsql.L1

/-! ## Keys -/

/-- `keyClass`. -/
inductive KeyClass
  | int
  | string
  | binary
  deriving DecidableEq

/-- `pKey`: a null pointer, an address of the caller's, or a copy. -/
inductive KeyPtr
  | null
  | caller (p : Nat)
  | copy (z : Bytes)
  deriving DecidableEq

/-- The caller's memory: the bytes from an address on. -/
abbrev Mem := Nat → Bytes

def KeyPtr.bytes (mem : Mem) : KeyPtr → Bytes
  | .null => []
  | .caller p => mem p
  | .copy z => z

/-- `__str_upper_to_lower` (str.c:98-114). -/
def strUpperToLower (c : UInt8) : UInt8 := if 65 ≤ c && c ≤ 90 then c + 32 else c

/-- `strlen`. -/
def strlen (z : Bytes) : Nat := (z.takeWhile (· ≠ 0)).length

/-- `__int_hash` (hash.c:172-178). -/
def intHash (len : CInt) : CInt := len ^^^ (len <<< 8) ^^^ len.sshiftRight 8

/-- `__hash_ignore_case` (hash.c:575-588). -/
def hashIgnoreCase (z : Bytes) (n : CInt) : CInt :=
  let n := if n.sle 0 then strlen z else n.toNat
  (z.take n).foldl (fun (h : CInt) c => (h <<< 3) ^^^ h ^^^ (strUpperToLower c).toBitVec.setWidth 32) 0 &&&
    0x7fffffff

/-- `__bin_hash` (hash.c:229-241); a `char` has a sign. -/
def binHash (key : Bytes) (len : CInt) : CInt :=
  let len := if len.sle 0 then 0 else len.toNat
  (key.take len).foldl (fun (h : CInt) c => (h <<< 3) ^^^ h ^^^ c.toBitVec.signExtend 32) 0 &&& 0x7fffffff

/-- `__hash_fn` (hash.c:271-286) and the function it returns. -/
def hashFn (cls : KeyClass) (key : Bytes) (len : CInt) : CInt :=
  match cls with
  | .int => intHash len
  | .string => hashIgnoreCase key len
  | .binary => binHash key len

/-- `strncasecmp(s1, s2, n) == 0`. -/
def strncasecmp : Bytes → Bytes → Nat → Bool
  | _, _, 0 => true
  | c :: s1, c' :: s2, n + 1 =>
    if strUpperToLower c ≠ strUpperToLower c' then false
    else if c = 0 then true
    else strncasecmp s1 s2 n
  | [], [], _ + 1 => true
  | _, _, _ + 1 => false

/-- `__cmp_fn` (hash.c:294-309), and whether the function it returns gives zero. -/
def cmpFn (cls : KeyClass) (k1 : Bytes) (n1 : CInt) (k2 : Bytes) (n2 : CInt) : Bool :=
  match cls with
  | .int => n2 - n1 = 0
  | .string => if n1 ≠ n2 then false else strncasecmp k1 k2 n1.toNat
  | .binary => if n1 ≠ n2 then false else k1.take n1.toNat = k2.take n1.toNat

/-! ## Canonical forms -/

/-- Up to the first zero, with it. -/
def cut : Bytes → Bytes
  | [] => []
  | c :: z => if c = 0 then [0] else c :: cut z

/-- What equality of keys looks at. -/
def canon (cls : KeyClass) (key : Bytes) (len : CInt) : CInt × Bytes :=
  match cls with
  | .int => (len, [])
  | .string => (len, cut ((key.take len.toNat).map strUpperToLower))
  | .binary => (len, key.take len.toNat)

/-- A string key is a string of `len` bytes, with or without its terminator, and not empty. -/
def Valid (cls : KeyClass) (key : Bytes) (len : CInt) : Prop :=
  cls = .string → (0 : CInt).slt len = true ∧ len.toNat ≤ key.length ∧ 0 ∉ key.take (len.toNat - 1)

theorem strUpperToLower_eq_zero (c : UInt8) : strUpperToLower c = 0 ↔ c = 0 := by
  unfold strUpperToLower
  constructor
  · intro h
    split at h
    · rename_i hc
      simp only [Bool.and_eq_true, decide_eq_true_eq, UInt8.le_iff_toNat_le] at hc
      have hval := congrArg UInt8.toNat h
      rw [UInt8.toNat_add] at hval
      simp only [UInt8.reduceToNat] at hc hval
      omega
    · exact h
  · rintro rfl
    rfl

theorem strncasecmp_iff (n : Nat) : ∀ s1 s2 : Bytes, strncasecmp s1 s2 n = true ↔
    cut ((s1.take n).map strUpperToLower) = cut ((s2.take n).map strUpperToLower) := by
  induction n with
  | zero =>
    intro s1 s2
    simp [strncasecmp]
  | succ n ih =>
    intro s1 s2
    have hcut : ∀ (c : UInt8) (z : Bytes), cut ((c :: z).map strUpperToLower) =
        if c = 0 then [0] else strUpperToLower c :: cut (z.map strUpperToLower) := fun c z => by
      rw [List.map_cons, cut]
      simp only [strUpperToLower_eq_zero]
    have hne : ∀ (c : UInt8) (z : Bytes), cut ((c :: z).map strUpperToLower) ≠ [] := fun c z => by
      rw [hcut]
      split <;> exact List.cons_ne_nil _ _
    cases s1 with
    | nil =>
      cases s2 with
      | nil => simp [strncasecmp]
      | cons c' s2 =>
        rw [List.take_nil, List.take_succ_cons]
        exact ⟨nofun, fun h => absurd h.symm (hne c' _)⟩
    | cons c s1 =>
      cases s2 with
      | nil =>
        rw [List.take_nil, List.take_succ_cons]
        exact ⟨nofun, fun h => absurd h (hne c _)⟩
      | cons c' s2 =>
        rw [List.take_succ_cons, List.take_succ_cons, hcut, hcut, strncasecmp]
        have hzero := strUpperToLower_eq_zero
        by_cases hc : strUpperToLower c = strUpperToLower c'
        · rw [if_neg (not_not.2 hc)]
          have hcz : c = 0 ↔ c' = 0 := by rw [← hzero c, ← hzero c', hc]
          by_cases h0 : c = 0
          · rw [if_pos h0, if_pos h0, if_pos (hcz.1 h0)]
            exact ⟨fun _ => rfl, fun _ => rfl⟩
          · rw [if_neg h0, if_neg h0, if_neg (fun h => h0 (hcz.2 h)), ih, hc, List.cons.injEq]
            exact ⟨fun h => ⟨rfl, h⟩, fun h => h.2⟩
        · rw [if_pos hc]
          refine ⟨nofun, fun h => absurd ?_ hc⟩
          split at h <;> split at h <;> simp_all

/-- Two keys are equal exactly if they have the same canonical form. -/
theorem cmpFn_iff (cls : KeyClass) (k1 : Bytes) (n1 : CInt) (k2 : Bytes) (n2 : CInt) :
    cmpFn cls k1 n1 k2 n2 = true ↔ canon cls k1 n1 = canon cls k2 n2 := by
  cases cls with
  | int =>
    unfold cmpFn canon
    have hsub : n2 - n1 = 0 ↔ n2 = n1 := BitVec.sub_eq_iff_eq_add.trans (by simp)
    rw [decide_eq_true_eq, Prod.mk.injEq]
    exact ⟨fun h => ⟨(hsub.1 h).symm, rfl⟩, fun h => hsub.2 h.1.symm⟩
  | string =>
    unfold cmpFn canon
    dsimp only
    rw [Prod.mk.injEq]
    by_cases h : n1 = n2
    · subst h
      rw [if_neg (not_not.2 rfl), strncasecmp_iff]
      exact ⟨fun h => ⟨rfl, h⟩, fun h => h.2⟩
    · rw [if_pos h]
      exact ⟨nofun, fun h' => absurd h'.1 h⟩
  | binary =>
    unfold cmpFn canon
    dsimp only
    rw [Prod.mk.injEq]
    by_cases h : n1 = n2
    · subst h
      rw [if_neg (not_not.2 rfl), decide_eq_true_eq]
      exact ⟨fun h => ⟨rfl, h⟩, fun h => h.2⟩
    · rw [if_pos h]
      exact ⟨nofun, fun h' => absurd h'.1 h⟩

theorem cut_prefix (z : Bytes) : ∃ t, z = cut z ++ t := by
  induction z with
  | nil => exact ⟨[], rfl⟩
  | cons c z ih =>
    rw [cut]
    split
    · rename_i h
      exact ⟨z, by rw [h]; rfl⟩
    · obtain ⟨t, ht⟩ := ih
      exact ⟨t, by rw [List.cons_append, ← ht]⟩

theorem cut_of_not_mem (z : Bytes) (c : UInt8) (h : 0 ∉ z) : cut (z ++ [c]) = z ++ [c] := by
  induction z with
  | nil =>
    rw [List.nil_append, cut, cut]
    split
    · rename_i hc
      rw [hc]
    · rfl
  | cons a z ih =>
    rw [List.mem_cons, not_or] at h
    rw [List.cons_append, cut, if_neg (Ne.symm h.1), ih h.2]

/-- A valid key is looked at as a whole. -/
theorem Valid.cut_eq {key : Bytes} {len : CInt} (h : Valid .string key len) :
    cut ((key.take len.toNat).map strUpperToLower) = (key.take len.toNat).map strUpperToLower := by
  obtain ⟨hpos, hle, hz⟩ := h rfl
  have hlen : 0 < len.toNat := by
    rw [Nat.pos_iff_ne_zero]
    intro h0
    rw [BitVec.eq_of_toNat_eq (y := (0 : CInt)) h0] at hpos
    revert hpos
    decide
  have htake : key.take len.toNat = key.take (len.toNat - 1) ++ [key[len.toNat - 1]] := by
    rw [← List.take_succ_eq_append_getElem (by omega)]
    congr 1
    omega
  rw [htake, List.map_append, List.map_singleton]
  apply cut_of_not_mem
  rintro hmem
  obtain ⟨c, hc, h0⟩ := List.mem_map.1 hmem
  exact hz ((strUpperToLower_eq_zero c).1 h0 ▸ hc)

/-- A valid key hashes like every key equal to it. -/
theorem hash_congr {cls : KeyClass} {k1 k2 : Bytes} {n1 n2 : CInt} (hv : Valid cls k1 n1)
    (h : canon cls k1 n1 = canon cls k2 n2) : hashFn cls k1 n1 = hashFn cls k2 n2 := by
  cases cls with
  | int =>
    unfold canon at h
    rw [Prod.mk.injEq] at h
    unfold hashFn
    dsimp only
    rw [h.1]
  | binary =>
    unfold canon at h
    rw [Prod.mk.injEq] at h
    obtain ⟨rfl, hk⟩ := h
    unfold hashFn binHash
    dsimp only
    split
    · rfl
    · rw [hk]
  | string =>
    obtain ⟨hpos, hle, -⟩ := hv rfl
    unfold canon at h
    rw [Prod.mk.injEq, hv.cut_eq] at h
    obtain ⟨rfl, hk⟩ := h
    have hsle : n1.sle 0 = false := by
      rw [BitVec.sle_eq_not_slt, hpos]
      rfl
    have hmap : (k1.take n1.toNat).map strUpperToLower = (k2.take n1.toNat).map strUpperToLower := by
      obtain ⟨t, ht⟩ := cut_prefix ((k2.take n1.toNat).map strUpperToLower)
      have hlen := congrArg List.length ht
      rw [← hk, List.length_append, List.length_map, List.length_map, List.length_take,
        List.length_take] at hlen
      have ht0 : t = [] := List.length_eq_zero_iff.1 (by omega)
      rw [ht0, List.append_nil, ← hk] at ht
      exact ht.symm
    have hfold : ∀ z : Bytes, z.foldl (fun (h : CInt) c => (h <<< 3) ^^^ h ^^^
        (strUpperToLower c).toBitVec.setWidth 32) 0 = (z.map strUpperToLower).foldl
          (fun (h : CInt) c => (h <<< 3) ^^^ h ^^^ c.toBitVec.setWidth 32) 0 := fun z => by
      rw [List.foldl_map]
    unfold hashFn hashIgnoreCase
    simp only [hsle, Bool.false_eq_true, if_false]
    rw [hfold, hfold, hmap]

/-- A copy is as good as the key. -/
theorem canon_take (cls : KeyClass) (key : Bytes) (len : CInt) :
    canon cls (key.take len.toNat) len = canon cls key len := by
  unfold canon
  rw [List.take_take, min_self]

theorem Valid.take {cls : KeyClass} {key : Bytes} {len : CInt} (h : Valid cls key len) :
    Valid cls (key.take len.toNat) len := by
  intro hcls
  obtain ⟨hpos, hle, hz⟩ := h hcls
  refine ⟨hpos, by rw [List.length_take]; omega, ?_⟩
  rwa [List.take_take, min_eq_left (by omega)]

/-! ## Tables -/

/-- What `hash_ele_t` has besides its links. -/
structure Ele (D : Type) where
  data : D
  pKey : KeyPtr
  nKey : CInt

structure Bucket where
  count : CInt
  chain : Option Nat

/-- `hash_t`, and the memory its elements are in. -/
structure Hash (D : Type) where
  keyClass : KeyClass
  copyKey : Bool
  count : CInt
  first : Option Nat
  htsize : CInt
  ht : Option (Nat → Bucket)
  heap : Heap (Ele D)

section
variable {D : Type}

/-- `__hash_init` (hash.c:116-131). -/
def hashInit (cls : KeyClass) (copyKey : Bool) : Hash D where
  keyClass := cls
  copyKey := copyKey && (cls = .string || cls = .binary)
  count := 0
  first := none
  htsize := 0
  ht := none
  heap := fun _ => none

/-- The loop of `__hash_clear` over at most `fuel` elements. -/
def freeAll : Nat → Option Nat → Heap (Ele D) → Heap (Ele D)
  | fuel + 1, some p, h => freeAll fuel ((h p).bind (·.next)) (Function.update h p none)
  | _, _, h => h

/-- `__hash_clear` (hash.c:142-164). -/
def hashClear (t : Hash D) : Hash D :=
  { t with first := none, ht := none, htsize := 0, count := 0,
           heap := freeAll t.count.toNat t.first t.heap }

/-- The bucket of a key. -/
def Hash.index (t : Hash D) (key : Bytes) (len : CInt) : Nat :=
  (hashFn t.keyClass key len &&& (t.htsize - 1)).toNat

/-- Links an element in before the first of its bucket. -/
def Hash.linkIn (t : Hash D) (ht : Nat → Bucket) (h p : Nat) : Hash D :=
  let (heap, first) := link t.heap t.first (ht h).chain p
  { t with heap := heap, first := first, ht := some (Function.update ht h ⟨(ht h).count + 1, some p⟩) }

/-- The bytes of an element's key. -/
def Ele.key (e : Ele D) (mem : Mem) : Bytes := e.pKey.bytes mem

/-- The loop of `__rehash` over at most `fuel` elements. -/
def rehashLoop (mem : Mem) : Nat → Option Nat → Hash D → Hash D
  | fuel + 1, some p, t =>
    match t.heap p, t.ht with
    | some n, some ht =>
      rehashLoop mem fuel n.next (t.linkIn ht (t.index (n.val.key mem) n.val.nKey) p)
    | _, _ => t
  | _, _, t => t

/-- `__rehash` (hash.c:319-363); `ok` is whether the table could be allocated. -/
def rehash (mem : Mem) (t : Hash D) (newSize : CInt) (ok : Bool) : Hash D :=
  if ok ∧ (0 : CInt).slt newSize then
    rehashLoop mem t.count.toNat t.first
      { t with first := none, htsize := newSize, ht := some fun _ => ⟨0, none⟩ }
  else t

/-- The loop of `__hash_search` over at most `count` elements. -/
def searchLoop (mem : Mem) (t : Hash D) (key : Bytes) (len : CInt) : Nat → Option Nat → Option Nat
  | count + 1, some p =>
    match t.heap p with
    | some n =>
      if cmpFn t.keyClass (n.val.key mem) n.val.nKey key len then some p
      else searchLoop mem t key len count n.next
    | none => none
  | _, _ => none

/-- `__hash_search` (hash.c:378-404). -/
def hashSearch (mem : Mem) (t : Hash D) (key : Bytes) (len : CInt) (h : Nat) : Option Nat :=
  match t.ht with
  | some ht => searchLoop mem t key len (ht h).count.toNat (ht h).chain
  | none => none

/-- `__hash_remove` (hash.c:417-442). -/
def hashRemove (t : Hash D) (ht : Nat → Bucket) (p h : Nat) : Hash D :=
  let next := (t.heap p).bind (·.next)
  let (heap, first) := unlink t.heap t.first p
  let chain := if (ht h).chain = some p then next else (ht h).chain
  let count := (ht h).count - 1
  let chain := if count.sle 0 then none else chain
  { t with heap := heap, first := first, ht := some (Function.update ht h ⟨count, chain⟩),
           count := t.count - 1 }

/-- `__hash_find` (hash.c:452-470). -/
def hashFind (mem : Mem) (t : Hash D) (pKey : KeyPtr) (len : CInt) : Option D :=
  match t.ht with
  | none => none
  | some _ =>
    let key := pKey.bytes mem
    (hashSearch mem t key len (t.index key len)).bind fun p => (t.heap p).map (·.val.data)

/-- What the allocations of an insertion come to: the address of the element, and whether there is
memory for the copy of the key and for a table. -/
structure Alloc where
  elem : Option Nat
  key : Bool
  table : Bool

/-- `__hash_insert` (hash.c:492-566): what it returns, and the table. -/
def hashInsert (mem : Mem) (t : Hash D) (pKey : KeyPtr) (len : CInt) (data : Option D) (al : Alloc) :
    Option D × Hash D :=
  let key := pKey.bytes mem
  let h := t.index key len
  match hashSearch mem t key len h, t.ht with
  | some p, some ht =>
    let oldData := (t.heap p).map (·.val.data)
    match data with
    | none => (oldData, hashRemove t ht p h)
    | some d =>
      (oldData, { t with heap := Function.update t.heap p
                          ((t.heap p).map fun n => { n with val := { n.val with data := d } }) })
  | _, _ =>
    match data, al.elem with
    | none, _ => (none, t)
    | some d, none => (some d, t)
    | some d, some p =>
      if t.copyKey ∧ pKey ≠ .null ∧ ¬al.key then (some d, t)
      else
        let newKey := if t.copyKey ∧ pKey ≠ .null then .copy (key.take len.toNat) else pKey
        let t := { t with count := t.count + 1 }
        let t := if t.htsize = 0 then rehash mem t 8 al.table else t
        if t.htsize = 0 then (some d, { t with count := 0 })
        else
          let t := if t.htsize.slt t.count then rehash mem t (t.htsize * 2) al.table else t
          match t.ht with
          | none => (some d, t)
          | some ht =>
            let t := { t with heap := Function.update t.heap p (some ⟨none, none, ⟨d, newKey, len⟩⟩) }
            (none, t.linkIn ht (t.index key len) p)

end
end Dbsql.L2.HashTable
