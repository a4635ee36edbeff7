import Dbsql.Core.Chain
import Dbsql.L2Storage.HashMap
/-!
# Unlinking an index (cg_build.c:283-324)

The indices of a table are on one singly linked list from `table_t.pIndex`, and each is in the
hash table of its database under its name. `__unlink_and_delete_index` takes one off both and
frees it. Following a null pointer, or one to an index that has been freed, ends the program with
a fault.

The loop that looks for the index before the one to drop moves the wrong variable: it stays at the
first index of the list and goes on from the index to drop, so that it runs off the end of the
list unless the first index is the one before.

Results:
* `findBefore_far`: the loop ends with a null pointer that is followed.
* `unlinkAndDeleteIndex_iff`: exactly the first two indices of a table can be dropped.
-/
namespace Dbsql.L5.UnlinkIndex
open Dbsql.Core Dbsql.L1 Dbsql.L2.HashTable

/-- `index_t`: the name is at an address. -/
structure Index where
  zName : Nat
  pTable : Nat
  pNext : Option Nat
  iDb : Nat

/-- `pIndex` of each table, the indices that have not been freed, and the hash tables. -/
structure Schema where
  pIndex : Nat → Option Nat
  index : Nat → Option Index
  idxHash : Nat → Hash Nat

/-- An index but for its link. -/
def Index.unlinked (ix : Index) : Index := { ix with pNext := none }

/-- How the program can end: a null pointer or one to freed memory is followed, or the loop takes
more rounds than were given. -/
inductive Fault
  | null
  | freed
  | rounds
  deriving DecidableEq

/-- What a pointer points to. -/
def Schema.deref (s : Schema) : Option Nat → Except Fault Index
  | none => .error .null
  | some p =>
    match s.index p with
    | some ix => .ok ix
    | none => .error .freed

/-- The key of an index in the hash table, `strlen(zName) + 1` bytes. -/
def keyLen (mem : L2.HashTable.Mem) (ix : Index) : CInt := BitVec.ofNat 32 (strlen (mem ix.zName) + 1)

/-- `__delete_index` (cg_build.c:283-298); `al` is what the second insertion may allocate. -/
def deleteIndex (mem : L2.HashTable.Mem) (al : Alloc) (s : Schema) (index : Option Nat) : Except Fault Schema := do
  let ix ← s.deref index
  let (old, t) := L2.HashTable.hashInsert mem (s.idxHash ix.iDb) (.caller ix.zName) (keyLen mem ix) none
    ⟨none, false, false⟩
  let s := { s with idxHash := Function.update s.idxHash ix.iDb t }
  let s ← if old ≠ none ∧ old ≠ index then do
      let oldIx ← s.deref old
      let (_, t) := L2.HashTable.hashInsert mem (s.idxHash ix.iDb) (.caller oldIx.zName) (keyLen mem oldIx) old al
      pure { s with idxHash := Function.update s.idxHash ix.iDb t }
    else pure s
  match index with
  | some p => pure { s with index := Function.update s.index p none }
  | none => pure s

/-- The loop of `__unlink_and_delete_index`, with at most `rounds` rounds: the last `index`. -/
def findBefore (s : Schema) (i : Option Nat) : Nat → Option Nat → Except Fault (Option Nat)
  | 0, _ => .error .rounds
  | rounds + 1, index =>
    if i = none then pure index
    else do
      if (← s.deref i).pNext = index then pure index
      else findBefore s i rounds (← s.deref index).pNext

/-- `i->pNext = x`. -/
def Schema.setNext (s : Schema) (i : Nat) (x : Option Nat) : Schema :=
  { s with index := Function.update s.index i ((s.index i).map fun ix => { ix with pNext := x }) }

/-- `__unlink_and_delete_index` (cg_build.c:307-324). -/
def unlinkAndDeleteIndex (mem : L2.HashTable.Mem) (al : Alloc) (rounds : Nat) (s : Schema) (index : Nat) :
    Except Fault Schema := do
  let ix ← s.deref (some index)
  if s.pIndex ix.pTable = some index then
    deleteIndex mem al { s with pIndex := Function.update s.pIndex ix.pTable ix.pNext } (some index)
  else do
    let i := s.pIndex ix.pTable
    let index ← findBefore s i rounds (some index)
    match i with
    | none => deleteIndex mem al s index
    | some p =>
      if (← s.deref i).pNext = index then do
        deleteIndex mem al (s.setNext p (← s.deref index).pNext) index
      else deleteIndex mem al s index

/-! ## The lists -/

/-- The link of each index. -/
def Schema.next (s : Schema) (p : Nat) : Option (Option Nat) := (s.index p).map (·.pNext)

/-- The indices of a table. -/
structure Schema.Indices (s : Schema) (table : Nat) (xs : List Nat) : Prop where
  chain : Chain s.next (s.pIndex table) xs
  pTable : ∀ x ∈ xs, ∀ ix, s.index x = some ix → ix.pTable = table

/-- The key under which the hash table has an index. -/
def Index.key (mem : L2.HashTable.Mem) (s : Schema) (ix : Index) : CInt × Bytes :=
  canon (s.idxHash ix.iDb).keyClass (mem ix.zName) (keyLen mem ix)

/-- What dropping the index `x` does, of a table with the indices `xs` in a database whose hash table
holds `M`. -/
structure Dropped (mem : L2.HashTable.Mem) (s s' : Schema) (table : Nat) (xs : List Nat) (M : Map Nat) (x : Nat)
    (ix : Index) : Prop where
  /-- the others stay, in their order -/
  indices : s'.Indices table (xs.erase x)
  hash : ∃ G, Holds mem (s'.idxHash ix.iDb) G (Function.update M (ix.key mem s) none)
  freed : s'.index x = none
  /-- the other indices are the same but for their links, and those of other tables the same -/
  same : ∀ y, y ≠ x → (s'.index y).map Index.unlinked = (s.index y).map Index.unlinked
  otherIndices : ∀ y, y ∉ xs → s'.index y = s.index y
  otherTables : ∀ t, t ≠ table → s'.pIndex t = s.pIndex t
  otherDbs : ∀ d, d ≠ ix.iDb → s'.idxHash d = s.idxHash d

section
variable {mem : L2.HashTable.Mem} {s : Schema} {table : Nat} {xs : List Nat} {x : Nat} {ix : Index}

theorem deref_some {p : Nat} (h : s.index p = some ix) : s.deref (some p) = .ok ix := by
  rw [Schema.deref, h]

theorem Schema.Indices.index (hT : s.Indices table xs) (hx : x ∈ xs) : ∃ ix, s.index x = some ix := by
  obtain ⟨r, hr⟩ := hT.chain.live x hx
  obtain ⟨ix, hix, -⟩ := Option.map_eq_some_iff.1 hr
  exact ⟨ix, hix⟩

/-- The hash table after the removal of a name that leads to the index itself. -/
theorem remove_own {G : Groups} {M : Map Nat} (hH : Holds mem (s.idxHash ix.iDb) G M)
    (hreg : M (ix.key mem s) = some x) :
    (L2.HashTable.hashInsert mem (s.idxHash ix.iDb) (.caller ix.zName) (keyLen mem ix) none
      ⟨none, false, false⟩).1 = some x ∧
      ∃ G', Holds mem (L2.HashTable.hashInsert mem (s.idxHash ix.iDb) (.caller ix.zName) (keyLen mem ix) none
        ⟨none, false, false⟩).2 G' (Function.update M (ix.key mem s) none) := by
  obtain ⟨G', M', hH', hins⟩ := hashInsert_spec hH (.caller ix.zName) (keyLen mem ix) none ⟨none, false, false⟩
    nofun (fun h => absurd rfl h) fun h => absurd rfl h
  have hreg' : M (canon (s.idxHash ix.iDb).keyClass (KeyPtr.bytes mem (.caller ix.zName)) (keyLen mem ix)) =
    some x := hreg
  revert hH' hins
  generalize (L2.HashTable.hashInsert mem (s.idxHash ix.iDb) (.caller ix.zName) (keyLen mem ix) none
    ⟨none, false, false⟩).1 = old
  intro hH' hins
  cases hins with
  | remove hold =>
    rw [hreg'] at hold
    exact ⟨hold.symm, G', hH'⟩
  | absent hold =>
    rw [hreg'] at hold
    cases hold

/-- The state after `__delete_index` of an index that is registered under its name. -/
def Schema.deleted (s : Schema) (mem : L2.HashTable.Mem) (x : Nat) (ix : Index) : Schema :=
  { s with
    index := Function.update s.index x none
    idxHash := Function.update s.idxHash ix.iDb (L2.HashTable.hashInsert mem (s.idxHash ix.iDb) (.caller ix.zName)
      (keyLen mem ix) none ⟨none, false, false⟩).2 }

theorem deleteIndex_own {al : Alloc} {G : Groups} {M : Map Nat} (hH : Holds mem (s.idxHash ix.iDb) G M)
    (hreg : M (ix.key mem s) = some x) (hix : s.index x = some ix) :
    deleteIndex mem al s (some x) = .ok (s.deleted mem x ix) := by
  obtain ⟨hold, -⟩ := remove_own hH hreg
  rw [deleteIndex, deref_some hix]
  simp [bind, Except.bind, pure, Except.pure, hold, Schema.deleted]

/-- From a state in which only the list has been changed, `__delete_index` does the rest. -/
theorem deleted_dropped {s₁ : Schema} {G : Groups} {M : Map Nat} (hT : s.Indices table xs) (hx : x ∈ xs)
    (hH : Holds mem (s.idxHash ix.iDb) G M) (hreg : M (ix.key mem s) = some x) (hhash : s₁.idxHash = s.idxHash)
    (hchain : Chain s₁.next (s₁.pIndex table) (xs.erase x))
    (hsame : ∀ y, (s₁.index y).map Index.unlinked = (s.index y).map Index.unlinked)
    (hindex : ∀ y, y ∉ xs → s₁.index y = s.index y) (htable : ∀ t, t ≠ table → s₁.pIndex t = s.pIndex t) :
    Dropped mem s (s₁.deleted mem x ix) table xs M x ix := by
  have hfree : ∀ y, y ≠ x → (s₁.deleted mem x ix).index y = s₁.index y := by
    intro y hy
    unfold Schema.deleted
    dsimp only
    rw [Function.update_of_ne hy]
  have hne : ∀ y ∈ xs.erase x, y ≠ x := fun y hy => ((List.Nodup.mem_erase_iff hT.chain.nodup).1 hy).1
  refine ⟨⟨hchain.congr fun y hy => congrArg _ (hfree y (hne y hy)), fun y hy iy hiy => ?_⟩, ?_, ?_,
    fun y hy => ?_, fun y hy => ?_, htable, fun d hd => ?_⟩
  · rw [hfree y (hne y hy)] at hiy
    have hs := hsame y
    rw [hiy] at hs
    obtain ⟨iy₀, hiy₀, heq⟩ := Option.map_eq_some_iff.1 hs.symm
    have hp : iy₀.unlinked.pTable = iy.unlinked.pTable := congrArg Index.pTable heq
    exact hp.symm.trans (hT.pTable y (List.mem_of_mem_erase hy) iy₀ hiy₀)
  · obtain ⟨-, G', hH'⟩ := remove_own hH hreg
    refine ⟨G', ?_⟩
    unfold Schema.deleted
    dsimp only
    rw [Function.update_self, hhash]
    exact hH'
  · unfold Schema.deleted
    dsimp only
    rw [Function.update_self]
  · rw [hfree y hy]
    exact hsame y
  · rw [hfree y fun h => hy (h ▸ hx)]
    exact hindex y hy
  · unfold Schema.deleted
    dsimp only
    rw [Function.update_of_ne hd, hhash]

/-! ## The loop -/

/-- From a node that does not lead to it the loop runs off the end of the list. -/
theorem findBefore_far {a b : Nat} {ia : Index} (ha : s.index a = some ia) (hb : ia.pNext = some b) {qs : List Nat} :
    ∀ {rounds : Nat} {p : Option Nat}, Chain s.next p qs → b ∉ qs → qs.length < rounds →
      findBefore s (some a) rounds p = .error .null := by
  induction qs with
  | nil =>
    rintro (_ | rounds) p hp - hr
    · cases hr
    · obtain rfl : p = none := hp
      rw [findBefore, if_neg nofun, deref_some ha]
      simp [bind, Except.bind, hb, Schema.deref]
  | cons q qs ih =>
    rintro (_ | rounds) p ⟨rfl, r, hr, hq⟩ hmem hrounds
    · cases hrounds
    · obtain ⟨iq, hiq, rfl⟩ := Option.map_eq_some_iff.1 hr
      have hne : ia.pNext ≠ some q := by
        rw [hb]
        rintro h
        cases h
        exact hmem (List.mem_cons_self ..)
      rw [findBefore, if_neg nofun, deref_some ha, deref_some hiq]
      simp only [bind, Except.bind]
      rw [if_neg hne]
      exact ih hq (fun h => hmem (List.mem_cons_of_mem q h)) (by simpa using hrounds)

/-! ## Which indices can be dropped -/

theorem next_some (hix : s.index x = some ix) : s.next x = some ix.pNext := by
  rw [Schema.next, hix, Option.map_some]

theorem setNext_next {p : Nat} {ip : Index} (hp : s.index p = some ip) (r : Option Nat) :
    (s.setNext p r).next = Function.update s.next p (some r) := by
  funext q
  by_cases hq : q = p
  · subst hq
    simp [Schema.next, Schema.setNext, hp]
  · simp [Schema.next, Schema.setNext, hq]

theorem unlink_first {al : Alloc} {G : Groups} {M : Map Nat} {rounds : Nat} {qs : List Nat}
    (hT : s.Indices table (x :: qs)) (hix : s.index x = some ix) (hH : Holds mem (s.idxHash ix.iDb) G M)
    (hreg : M (ix.key mem s) = some x) :
    ∃ s', unlinkAndDeleteIndex mem al rounds s x = .ok s' ∧ Dropped mem s s' table (x :: qs) M x ix := by
  have htable := hT.pTable x (List.mem_cons_self ..) ix hix
  obtain ⟨hfirst, r, hr, hqs⟩ := hT.chain
  rw [next_some hix] at hr
  obtain rfl := Option.some.inj hr
  rw [unlinkAndDeleteIndex, deref_some hix]
  simp only [bind, Except.bind, htable, if_pos hfirst]
  refine ⟨_, deleteIndex_own hH hreg hix, deleted_dropped hT (List.mem_cons_self ..) hH hreg rfl ?_
    (fun _ => rfl) (fun _ _ => rfl) fun t ht => Function.update_of_ne ht _ _⟩
  rw [List.erase_cons_head]
  dsimp only
  rw [Function.update_self]
  exact hqs

theorem unlink_second {al : Alloc} {G : Groups} {M : Map Nat} {rounds a : Nat} {qs : List Nat}
    (hT : s.Indices table (a :: x :: qs)) (hix : s.index x = some ix) (hH : Holds mem (s.idxHash ix.iDb) G M)
    (hreg : M (ix.key mem s) = some x) :
    ∃ s', unlinkAndDeleteIndex mem al (rounds + 1) s x = .ok s' ∧ Dropped mem s s' table (a :: x :: qs) M x ix := by
  have hx : x ∈ a :: x :: qs := List.mem_cons_of_mem a (List.mem_cons_self ..)
  have htable := hT.pTable x hx ix hix
  have hax : x ≠ a := fun h => (List.nodup_cons.1 hT.chain.nodup).1 (h ▸ List.mem_cons_self ..)
  obtain ⟨ia, hia⟩ := hT.index (List.mem_cons_self ..)
  obtain ⟨hfirst, r, hr, hsecond, -⟩ := hT.chain
  rw [next_some hia] at hr
  have hnext : ia.pNext = some x := (Option.some.inj hr).trans hsecond
  have hne : s.pIndex ix.pTable ≠ some x := by
    rw [htable, hfirst]
    exact fun h => hax (Option.some.inj h).symm
  rw [unlinkAndDeleteIndex, deref_some hix]
  simp only [bind, Except.bind, if_neg hne]
  rw [htable, hfirst, findBefore, if_neg (Option.some_ne_none _), deref_some hia]
  simp only [bind, Except.bind, hnext, if_true, pure, Except.pure]
  rw [deref_some hix]
  have hix₁ : (s.setNext a ix.pNext).index x = some ix := by
    rw [Schema.setNext]
    dsimp only
    rw [Function.update_of_ne hax, hix]
  refine ⟨_, deleteIndex_own hH hreg hix₁, deleted_dropped hT hx hH hreg rfl ?_ (fun y => ?_) (fun y hy => ?_)
    fun _ _ => rfl⟩
  · have hskip : Chain (Function.update s.next a (some ix.pNext)) (s.pIndex table) ([] ++ a :: qs) :=
      Chain.skip (next_some hix) hT.chain
    rw [setNext_next hia, List.erase_cons_tail (by simpa using hax.symm), List.erase_cons_head]
    exact hskip
  · by_cases hy : y = a
    · subst hy
      simp [Schema.setNext, hia, Index.unlinked]
    · simp [Schema.setNext, hy]
  · have hya : y ≠ a := fun h => hy (h ▸ List.mem_cons_self ..)
    simp [Schema.setNext, hya]

/-- From the third index on a null pointer is followed. -/
theorem unlink_far {al : Alloc} {rounds a b : Nat} {qs : List Nat} (hT : s.Indices table (a :: b :: qs))
    (hx : x ∈ qs) (hix : s.index x = some ix) (hrounds : qs.length < rounds) :
    unlinkAndDeleteIndex mem al rounds s x = .error .null := by
  have hnd := hT.chain.nodup
  obtain ⟨ha, hb, -⟩ : a ∉ b :: qs ∧ b ∉ qs ∧ qs.Nodup := by
    rw [List.nodup_cons, List.nodup_cons] at hnd
    exact hnd
  have hmem : x ∈ a :: b :: qs := List.mem_cons_of_mem a (List.mem_cons_of_mem b hx)
  have htable := hT.pTable x hmem ix hix
  obtain ⟨ia, hia⟩ := hT.index (List.mem_cons_self ..)
  obtain ⟨hfirst, r, hr, hsecond, r', -, hqs⟩ := hT.chain
  rw [next_some hia] at hr
  have hnext : ia.pNext = some b := (Option.some.inj hr).trans hsecond
  have hne : s.pIndex ix.pTable ≠ some x := by
    rw [htable, hfirst]
    rintro h
    obtain rfl := Option.some.inj h
    exact ha (List.mem_cons_of_mem b hx)
  -- the rest of the list from the index on
  obtain ⟨as, bs, rfl⟩ := List.append_of_mem hx
  obtain ⟨r'', hr'', hbs⟩ := hqs.rest
  have hxs : Chain s.next (some x) (x :: bs) := ⟨rfl, r'', hr'', hbs⟩
  have hbx : b ∉ x :: bs := fun h => hb (List.mem_append_right as h)
  have hlen : (x :: bs).length < rounds := by
    rw [List.length_append] at hrounds
    omega
  rw [unlinkAndDeleteIndex, deref_some hix]
  simp only [bind, Except.bind, if_neg hne]
  rw [htable, hfirst, findBefore_far hia hnext hxs hbx hlen]

/-- **Dropping an index of a table.** It works exactly for the first two on the list. -/
theorem unlinkAndDeleteIndex_iff {al : Alloc} {G : Groups} {M : Map Nat} {rounds : Nat} (hT : s.Indices table xs)
    (hx : x ∈ xs) (hix : s.index x = some ix) (hH : Holds mem (s.idxHash ix.iDb) G M)
    (hreg : M (ix.key mem s) = some x) (hrounds : xs.length ≤ rounds) :
    (∃ s', unlinkAndDeleteIndex mem al rounds s x = .ok s' ∧ Dropped mem s s' table xs M x ix) ↔
      xs.idxOf x ≤ 1 := by
  cases xs with
  | nil => cases hx
  | cons a qs =>
    by_cases hxa : x = a
    · subst hxa
      exact iff_of_true (unlink_first hT hix hH hreg) (by simp)
    cases qs with
    | nil => exact absurd (List.mem_singleton.1 hx) hxa
    | cons b qs =>
      by_cases hxb : x = b
      · subst hxb
        obtain ⟨rounds, rfl⟩ : ∃ k, rounds = k + 1 := ⟨rounds - 1, by simp at hrounds; omega⟩
        refine iff_of_true (unlink_second hT hix hH hreg) ?_
        rw [List.idxOf_cons_ne _ (Ne.symm hxa), List.idxOf_cons_self]
      · have hmem : x ∈ qs := by simpa [hxa, hxb] using hx
        refine iff_of_false ?_ ?_
        · rintro ⟨s', hs', -⟩
          rw [unlink_far hT hmem hix (by simp at hrounds; omega)] at hs'
          cases hs'
        · rw [List.idxOf_cons_ne _ (Ne.symm hxa), List.idxOf_cons_ne _ (Ne.symm hxb)]
          omega

/-! ## Three indices -/

/-- A name registered where it was not. -/
theorem register {t : Hash Nat} {G : Groups} {M : Map Nat} {k d p : Nat} {len : CInt} (hH : Holds mem t G M)
    (hcls : t.keyClass = .string) (hv : Valid .string (mem k) len) (hroom : t.count.toNat + 1 < 2 ^ 31)
    (hfresh : t.heap p = none) (hM : M (canon .string (mem k) len) = none) :
    ∃ G', Holds mem (L2.HashTable.hashInsert mem t (.caller k) len (some d) ⟨some p, true, true⟩).2 G'
      (Function.update M (canon .string (mem k) len) (some d)) := by
  have hlen : t.count.toNat = (nodes G).length := by
    have hsmall := hH.small
    rw [hH.count, BitVec.toNat_ofNat]
    omega
  obtain ⟨G', M', hH', hins⟩ := hashInsert_spec hH (.caller k) len (some d) ⟨some p, true, true⟩
    (fun q hq => by
      obtain rfl := Option.some.inj hq
      exact hfresh)
    (fun _ => hcls ▸ hv) fun _ => hlen ▸ hroom
  rw [hcls] at hins
  have hM' : M (canon .string (KeyPtr.bytes mem (.caller k)) len) = none := hM
  revert hH' hins
  generalize (L2.HashTable.hashInsert mem t (.caller k) len (some d) ⟨some p, true, true⟩).1 = out
  intro hH' hins
  cases hins with
  | add _ => exact ⟨G', hH'⟩
  | replace hold =>
    rw [hM'] at hold
    cases hold
  | noMem _ hfails =>
    obtain h | h | h := hfails
    · cases h
    · cases h
    · cases h

end

/-- The names `a`, `b` and `c`. -/
def names : L2.HashTable.Mem := fun p => [97 + UInt8.ofNat p, 0]

/-- The hash table with the first `n` names. -/
def namesHash : Nat → Hash Nat
  | 0 => hashInit .string false
  | n + 1 => (L2.HashTable.hashInsert names (namesHash n) (.caller n) 2 (some n) ⟨some n, true, true⟩).2

/-- What it holds. -/
def namesMap : Nat → Map Nat
  | 0 => fun _ => none
  | n + 1 => Function.update (namesMap n) (canon .string (names n) 2) (some n)

/-- A table with the indices `a`, `b` and `c`. -/
def threeIndices : Schema where
  pIndex _ := some 0
  index p := if p < 3 then some ⟨p, 0, if p = 2 then none else some (p + 1), 0⟩ else none
  idxHash _ := namesHash 3

theorem threeIndices_indices : threeIndices.Indices 0 [0, 1, 2] := by
  refine ⟨⟨rfl, _, rfl, rfl, _, rfl, rfl, _, rfl, rfl⟩, fun x hx ix hix => ?_⟩
  rw [threeIndices] at hix
  dsimp only at hix
  split at hix
  · cases hix
    rfl
  · cases hix

theorem threeIndices_holds : ∃ G, Holds names (threeIndices.idxHash 0) G (namesMap 3) := by
  have hv : ∀ p < 3, Valid .string (names p) 2 := by
    intro p hp
    obtain rfl | rfl | rfl : p = 0 ∨ p = 1 ∨ p = 2 := by omega
    · exact fun _ => by decide
    · exact fun _ => by decide
    · exact fun _ => by decide
  have h₀ : Holds names (hashInit .string false : Hash Nat) [] fun _ => none := hashInit_holds .string false
  obtain ⟨G₁, h₁⟩ := register h₀ rfl (hv 0 (by decide)) (by decide) (d := 0) (p := 0) rfl rfl
  obtain ⟨G₂, h₂⟩ := register h₁ (hashInsert_keyClass ..) (hv 1 (by decide)) (by decide) (d := 1) (p := 1) rfl rfl
  exact register h₂ ((hashInsert_keyClass ..).trans (hashInsert_keyClass ..)) (hv 2 (by decide)) (by decide)
    (d := 2) (p := 2) rfl rfl

theorem unlinkAndDeleteIndex_iff_second : (∃ s', unlinkAndDeleteIndex names ⟨none, false, false⟩ 3 threeIndices 1 =
      .ok s' ∧ Dropped names threeIndices s' 0 [0, 1, 2] (namesMap 3) 1 ⟨1, 0, some 2, 0⟩) ↔
    [0, 1, 2].idxOf 1 ≤ 1 := by
  obtain ⟨G, hG⟩ := threeIndices_holds
  exact unlinkAndDeleteIndex_iff threeIndices_indices (by decide) rfl hG rfl (by decide)

/-- The third index of a table cannot be dropped. -/
theorem unlinkAndDeleteIndex_fails : ¬ ∀ (mem : L2.HashTable.Mem) (al : Alloc) (rounds : Nat) (s : Schema) (table : Nat)
    (xs : List Nat) (x : Nat) (ix : Index) (G : Groups) (M : Map Nat), s.Indices table xs → x ∈ xs →
      s.index x = some ix → Holds mem (s.idxHash ix.iDb) G M → M (ix.key mem s) = some x → xs.length ≤ rounds →
      ∃ s', unlinkAndDeleteIndex mem al rounds s x = .ok s' ∧ Dropped mem s s' table xs M x ix := by
  intro h
  obtain ⟨G, hG⟩ := threeIndices_holds
  obtain ⟨s', hs', -⟩ := h names ⟨none, false, false⟩ 3 threeIndices 0 [0, 1, 2] 2 ⟨2, 0, none, 0⟩ G (namesMap 3)
    threeIndices_indices (by decide) rfl hG rfl (by decide)
  have hthird : threeIndices.index 2 = some ⟨2, 0, none, 0⟩ := rfl
  have hfault : unlinkAndDeleteIndex names ⟨none, false, false⟩ 3 threeIndices 2 = .error .null :=
    unlink_far threeIndices_indices (by decide) hthird (by decide)
  rw [hfault] at hs'
  cases hs'

end Dbsql.L5.UnlinkIndex
