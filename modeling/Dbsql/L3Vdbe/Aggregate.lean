import Dbsql.L2Storage.HashMap
/-!
# The aggregator (vdbe.c:187-240, 4500-4693)

An aggregator has a hash table of its elements by the bytes of their keys. `OP_AggFocus` looks for the
element of a key and makes one where there is none; the other opcodes work on the element that was last
in focus. `OP_AggNext` goes along the list of the hash table.

`OP_AggFocus` does not look at what `__agg_insert` returns: where memory runs out it falls through with
the element of the row before still in focus. `OP_AggSet` and `OP_AggGet` make an element for the empty
string where none is in focus.

What `OP_AggFunc` and `xFinalize` do to a field is a parameter. A `GroupState` is the purpose of it all:
the groups of the rows by their keys.

Results:
* `Rep.step`: a step of the aggregator is one of the groups.
* `agg_groups`: what a run does where memory does not run out.
-/
namespace Dbsql.L3
open Dbsql.Core Dbsql.Core.DList Dbsql.L1 Dbsql.L2.HashTable

namespace Aggregate

/-! ## The code -/

/-- The bytes of a key; `nKey` is an int. -/
abbrev Key := { z : Bytes // z.length < 2 ^ 31 }

variable {C : Type}

/-- `agg_elem_t`, with the fields of `aMem` of any type. -/
structure AggElem (C : Type) where
  zKey : Key
  aMem : List C

/-- `agg_t`, and the memory its elements are in. The function of each field is a parameter. -/
structure Agg (C : Type) where
  nMem : Nat
  pCurrent : Option Nat
  pSearch : Option Nat
  hash : Hash Nat
  elems : Nat → Option (AggElem C)

/-- What the allocations of `__agg_insert` come to. -/
structure AggAlloc where
  elem : Option Nat
  hash : Alloc

/-- A key is compared by the bytes in its element, which nobody writes to. -/
def Key.ptr (key : Key) : KeyPtr := .copy key.1

def Key.len (key : Key) : CInt := BitVec.ofNat 32 key.1.length

/-- No key is in the memory of a caller. -/
def noMem : L2.HashTable.Mem := fun _ => []

/-- `__agg_insert` (vdbe.c:187-215). -/
def aggInsert (null : C) (key : Key) (al : AggAlloc) (s : Agg C) : Agg C :=
  match al.elem with
  | none => s
  | some p =>
    match hashInsert noMem s.hash key.ptr key.len (some p) al.hash with
    | (some _, hash) => { s with hash }
    | (none, hash) =>
      { s with hash, pCurrent := some p,
               elems := Function.update s.elems p (some ⟨key, List.replicate s.nMem null⟩) }

/-- The element that `__hash_data` has at `p`. -/
def hashData (s : Agg C) (p : Nat) : Option Nat := (s.hash.heap p).map (·.val.data)

/-- `__agg_in_focus` (vdbe.c:223-240). -/
def aggInFocus (null : C) (al : AggAlloc) (s : Agg C) : Option Nat × Agg C :=
  match s.pCurrent with
  | some p => (some p, s)
  | none =>
    match s.hash.first with
    | some e => (hashData s e, s)
    | none =>
      let s := aggInsert null ⟨[0], by decide⟩ al s
      (s.hash.first.bind (hashData s), s)

/-- Writes to the fields of an element. -/
def Agg.write (s : Agg C) (p : Nat) (f : List C → List C) : Agg C :=
  { s with elems := Function.update s.elems p ((s.elems p).map fun e => { e with aMem := f e.aMem }) }

/-- `OP_AggReset` (vdbe.c:4485-4492): `__vdbe_agg_reset` frees the elements. -/
def opAggReset (nMem : Nat) (s : Agg C) : Agg C where
  nMem := nMem
  pCurrent := none
  pSearch := none
  hash := hashClear s.hash
  elems := fun _ => none

/-- `OP_AggFocus` (vdbe.c:4583-4602), and whether it jumps to P2. -/
def opAggFocus (null : C) (key : Key) (al : AggAlloc) (s : Agg C) : Agg C × Bool :=
  match hashFind noMem s.hash key.ptr key.len with
  | some p => ({ s with pCurrent := some p }, true)
  | none => (aggInsert null key al s, false)

/-- `OP_AggSet` (vdbe.c:4609-4632). -/
def opAggSet (null : C) (i : Nat) (c : C) (al : AggAlloc) (s : Agg C) : Option (Agg C) :=
  match aggInFocus null al s with
  | (none, _) => none
  | (some p, s) => some (s.write p (·.set i c))

/-- `OP_AggFunc` (vdbe.c:4519-4555) with what its function does to the field. -/
def opAggFunc (i : Nat) (step : C → C) (s : Agg C) : Option (Agg C) :=
  s.pCurrent.map fun p => s.write p (·.modify i step)

/-- `OP_AggGet` (vdbe.c:4640-4655). -/
def opAggGet (null : C) (i : Nat) (al : AggAlloc) (s : Agg C) : Option (Agg C × C) :=
  match aggInFocus null al s with
  | (none, _) => none
  | (some p, s) => (s.elems p).bind fun e => e.aMem[i]?.map fun c => (s, c)

/-- `OP_AggNext` (vdbe.c:4668-4712), which jumps to P2 where it leaves no `pSearch`; `fin` is what
the finalizer of each field does to it. -/
def opAggNext (fin : Nat → C → C) (s : Agg C) : Agg C :=
  let pSearch := match s.pSearch with
    | none => s.hash.first
    | some e => (s.hash.heap e).bind (·.next)
  match pSearch with
  | none => { s with pSearch }
  | some e =>
    let s := { s with pSearch, pCurrent := hashData s e }
    match s.pCurrent with
    | none => s
    | some p => s.write p (·.mapIdx fin)

/-! ## Runs -/

/-- The opcodes of a run. A focus comes with its key, with whether it jumps and with the element then
in focus, a next with the element that it visits. -/
inductive Event (C : Type)
  | focus (key : Key) (al : AggAlloc) (jump : Bool) (p : Option Nat)
  | set (i : Nat) (c : C) (al : AggAlloc)
  | func (i : Nat) (step : C → C)
  | get (i : Nat) (al : AggAlloc) (c : C)
  | next (p : Option Nat)

/-- `calloc` gives memory that is not in use. -/
def AggAlloc.Fresh (al : AggAlloc) (s : Agg C) : Prop :=
  (∀ p, al.elem = some p → s.elems p = none) ∧ ∀ p, al.hash.elem = some p → s.hash.heap p = none

/-- From `OP_AggReset` on. -/
def aggLts (null : C) (fin : Nat → C → C) : LTS (Agg C) (Event C) where
  init s := ∃ s' nMem, s'.hash.keyClass = .binary ∧ s = opAggReset nMem s'
  step s l s' :=
    match l with
    | .focus key al jump p => al.Fresh s ∧ opAggFocus null key al s = (s', jump) ∧ s'.pCurrent = p
    | .set i c al => al.Fresh s ∧ i < s.nMem ∧ opAggSet null i c al s = some s'
    | .func i step => i < s.nMem ∧ opAggFunc i step s = some s'
    | .get i al c => al.Fresh s ∧ i < s.nMem ∧ opAggGet null i al s = some (s', c)
    | .next p => s' = opAggNext fin s ∧ p = s'.pSearch.bind fun _ => s'.pCurrent

/-- What fails of the allocations of a new element. -/
def AggAlloc.Fails (al : AggAlloc) : Prop := al.elem = none ∨ al.hash.Fails

/-- There is memory for a new element and the count does not overflow; an element is in focus where one
is used; no element comes in while `OP_AggNext` goes over them. -/
def Proper (s : Agg C) : Event C → Prop
  | .focus key al _ _ => s.pSearch = none ∧
      (hashFind noMem s.hash key.ptr key.len = none → ¬al.Fails ∧ s.hash.count.toNat + 1 < 2 ^ 31)
  | .set _ _ _ => s.pCurrent ≠ none
  | .func _ _ => True
  | .get _ _ _ => s.pCurrent ≠ none
  | .next _ => True

/-! ## Groups -/

structure Group (C : Type) where
  key : Key
  id : Nat
  cells : List C

/-- The groups, the one in focus and the ones visited. -/
structure GroupState (C : Type) where
  groups : List (Group C)
  cur : Option Nat
  seen : List Nat

def GroupState.write (a : GroupState C) (p : Nat) (f : List C → List C) : GroupState C :=
  { a with groups := a.groups.map fun g => if g.id = p then { g with cells := f g.cells } else g }

/-- A row with a known key goes to the group of the key and one with a new key to a new group. A visit
is one of a group that has not been visited, and the iteration ends when all have been. -/
inductive GroupStep (null : C) (nMem : Nat) (fin : Nat → C → C) : GroupState C → Event C → GroupState C → Prop
  | known {a : GroupState C} {g : Group C} {al : AggAlloc} : g ∈ a.groups →
      GroupStep null nMem fin a (.focus g.key al true (some g.id)) { a with cur := some g.id }
  | new {a : GroupState C} {key : Key} {al : AggAlloc} {p : Nat} : key ∉ a.groups.map (·.key) →
      p ∉ a.groups.map (·.id) →
        GroupStep null nMem fin a (.focus key al false (some p))
          { a with groups := ⟨key, p, List.replicate nMem null⟩ :: a.groups, cur := some p }
  | set {a : GroupState C} {p i : Nat} {c : C} {al : AggAlloc} : a.cur = some p →
      GroupStep null nMem fin a (.set i c al) (a.write p (·.set i c))
  | func {a : GroupState C} {p i : Nat} {step : C → C} : a.cur = some p →
      GroupStep null nMem fin a (.func i step) (a.write p (·.modify i step))
  | get {a : GroupState C} {g : Group C} {i : Nat} {c : C} {al : AggAlloc} : g ∈ a.groups →
      a.cur = some g.id → g.cells[i]? = some c → GroupStep null nMem fin a (.get i al c) a
  | visit {a : GroupState C} {g : Group C} : g ∈ a.groups → g.id ∉ a.seen →
      GroupStep null nMem fin a (.next (some g.id))
        ({ a with cur := some g.id, seen := g.id :: a.seen }.write g.id (·.mapIdx fin))
  | done {a : GroupState C} : (∀ g ∈ a.groups, g.id ∈ a.seen) →
      GroupStep null nMem fin a (.next none) { a with seen := [] }

def groupLts (null : C) (nMem : Nat) (fin : Nat → C → C) : LTS (GroupState C) (Event C) where
  init a := a = ⟨[], none, []⟩
  step := GroupStep null nMem fin

/-! ## The keys of the table -/

/-- What the table compares of a key. -/
def Key.canon (key : Key) : CInt × Bytes := L2.HashTable.canon .binary key.1 key.len

theorem Key.canon_inj {key key' : Key} (h : key.canon = key'.canon) : key = key' := by
  have hlen : ∀ k : Key, k.len.toNat = k.1.length := fun k => by
    rw [Key.len, BitVec.toNat_ofNat]
    have := k.2
    omega
  have hz := congrArg Prod.snd h
  simp only [Key.canon, L2.HashTable.canon, hlen, List.take_length] at hz
  exact Subtype.ext hz

theorem hashData_eq (s : Agg C) (p : Nat) : hashData s p = (s.hash.heap.val p).map (·.data) := by
  rw [hashData, Heap.val, Option.map_map]
  rfl

/-! ## What the aggregator stands for -/

/-- Where `pSearch` stands: the elements up to it have been visited. -/
def Position (s : Agg C) (ps : List Nat) (seen : List Nat) : Prop :=
  match s.pSearch with
  | none => seen = []
  | some e => ∃ l₁ l₂, ps = l₁ ++ e :: l₂ ∧ (seen.map some).reverse = (l₁ ++ [e]).map (hashData s)

/-- The aggregator has the groups. -/
structure Rep (s : Agg C) (a : GroupState C) : Prop where
  cls : s.hash.keyClass = .binary
  table : ∃ G M, Holds noMem s.hash G M ∧ Position s (nodes G) a.seen ∧
    ∀ c d, M c = some d ↔ ∃ g ∈ a.groups, g.key.canon = c ∧ g.id = d
  keys : (a.groups.map (·.key)).Nodup
  ids : (a.groups.map (·.id)).Nodup
  elems : ∀ g ∈ a.groups, s.elems g.id = some ⟨g.key, g.cells⟩
  cur : s.pCurrent = a.cur
  live : ∀ p, a.cur = some p → p ∈ a.groups.map (·.id)

section
variable {s : Agg C} {a : GroupState C}

theorem elems_write_self {p : Nat} {e : AggElem C} (f : List C → List C) (h : s.elems p = some e) :
    (s.write p f).elems p = some ⟨e.zKey, f e.aMem⟩ := by
  simp [Agg.write, h]

theorem elems_write_of_ne {p q : Nat} (f : List C → List C) (h : q ≠ p) :
    (s.write p f).elems q = s.elems q := by
  simp [Agg.write, h]

theorem write_keys (a : GroupState C) (p : Nat) (f : List C → List C) :
    (a.write p f).groups.map (·.key) = a.groups.map (·.key) := by
  rw [GroupState.write, List.map_map]
  refine List.map_congr_left fun g _ => ?_
  dsimp only [Function.comp]
  split <;> rfl

theorem write_ids (a : GroupState C) (p : Nat) (f : List C → List C) :
    (a.write p f).groups.map (·.id) = a.groups.map (·.id) := by
  rw [GroupState.write, List.map_map]
  refine List.map_congr_left fun g _ => ?_
  dsimp only [Function.comp]
  split <;> rfl

theorem mem_write {p : Nat} {f : List C → List C} {g' : Group C} : g' ∈ (a.write p f).groups ↔
    ∃ g ∈ a.groups, g' = if g.id = p then { g with cells := f g.cells } else g := by
  rw [GroupState.write, List.mem_map]
  exact exists_congr fun g => and_congr_right fun _ => eq_comm

/-- Writing to the fields of a group. -/
theorem Rep.write (h : Rep s a) {p : Nat} (f : List C → List C) : Rep (s.write p f) (a.write p f) where
  cls := h.cls
  table := by
    obtain ⟨G, M, hH, hpos, hmap⟩ := h.table
    refine ⟨G, M, hH, hpos, fun c d => (hmap c d).trans ?_⟩
    constructor
    · rintro ⟨g, hg, hc, hd⟩
      refine ⟨_, mem_write.2 ⟨g, hg, rfl⟩, ?_⟩
      split <;> exact ⟨hc, hd⟩
    · rintro ⟨g', hg', hc, hd⟩
      obtain ⟨g, hg, rfl⟩ := mem_write.1 hg'
      refine ⟨g, hg, ?_⟩
      split at hc <;> split at hd <;> exact ⟨hc, hd⟩
  keys := (write_keys a p f).symm ▸ h.keys
  ids := (write_ids a p f).symm ▸ h.ids
  elems := by
    intro g' hg'
    obtain ⟨g, hg, rfl⟩ := mem_write.1 hg'
    have he := h.elems g hg
    by_cases hp : g.id = p
    · rw [if_pos hp]
      subst hp
      exact elems_write_self f he
    · rw [if_neg hp, elems_write_of_ne f hp, he]
  cur := h.cur
  live := fun q hq => (write_ids a p f).symm ▸ h.live q hq

/-! ## Focus -/

theorem Rep.id_inj (h : Rep s a) {g g' : Group C} (hg : g ∈ a.groups) (hg' : g' ∈ a.groups)
    (hid : g.id = g'.id) : g = g' := List.inj_on_of_nodup_map h.ids hg hg' hid

/-- What `__hash_find` finds is the element of the key. -/
theorem Rep.find (h : Rep s a) (key : Key) (p : Nat) :
    hashFind noMem s.hash key.ptr key.len = some p ↔ ∃ g ∈ a.groups, g.key = key ∧ g.id = p := by
  obtain ⟨G, M, hH, -, hmap⟩ := h.table
  have hfind : hashFind noMem s.hash key.ptr key.len = M key.canon := by
    rw [hashFind_spec hH, h.cls]
    rfl
  rw [hfind, hmap]
  exact exists_congr fun g => and_congr_right fun _ => and_congr_left fun _ =>
    ⟨Key.canon_inj, congrArg Key.canon⟩

theorem Rep.find_none (h : Rep s a) (key : Key) :
    hashFind noMem s.hash key.ptr key.len = none ↔ key ∉ a.groups.map (·.key) := by
  rw [← not_iff_not, not_not, List.mem_map, ← Ne, Option.ne_none_iff_exists']
  constructor
  · rintro ⟨p, hp⟩
    obtain ⟨g, hg, hkey, -⟩ := (h.find key p).1 hp
    exact ⟨g, hg, hkey⟩
  · rintro ⟨g, hg, hkey⟩
    exact ⟨g.id, (h.find key g.id).2 ⟨g, hg, hkey, rfl⟩⟩

/-- The element of a known key comes in focus. -/
theorem Rep.known (h : Rep s a) {g : Group C} (hg : g ∈ a.groups) :
    Rep { s with pCurrent := some g.id } { a with cur := some g.id } where
  cls := h.cls
  table := h.table
  keys := h.keys
  ids := h.ids
  elems := h.elems
  cur := rfl
  live := by
    intro p hp
    rw [← Option.some.inj hp]
    exact List.mem_map_of_mem hg

section
variable {gs : List (Group C)} {M : CInt × Bytes → Option Nat}

/-- A table of the groups has nothing at a key of none of them. -/
theorem contents_none (hmap : ∀ c d, M c = some d ↔ ∃ g ∈ gs, g.key.canon = c ∧ g.id = d) {key : Key}
    (hnew : key ∉ gs.map (·.key)) : M key.canon = none := by
  by_contra hne
  obtain ⟨d, hd⟩ := Option.ne_none_iff_exists'.1 hne
  obtain ⟨g, hg, hc, -⟩ := (hmap _ d).1 hd
  exact hnew (Key.canon_inj hc ▸ List.mem_map_of_mem hg)

/-- With a new key it is the table of one more group. -/
theorem contents_insert (hmap : ∀ c d, M c = some d ↔ ∃ g ∈ gs, g.key.canon = c ∧ g.id = d)
    (g₀ : Group C) (hnew : g₀.key ∉ gs.map (·.key)) (c : CInt × Bytes) (d : Nat) :
    Function.update M g₀.key.canon (some g₀.id) c = some d ↔
      ∃ g ∈ g₀ :: gs, g.key.canon = c ∧ g.id = d := by
  by_cases hc : c = g₀.key.canon
  · subst hc
    rw [Function.update_self]
    constructor
    · intro hd
      exact ⟨_, List.mem_cons_self, rfl, Option.some.inj hd⟩
    · rintro ⟨g, hg, hc, rfl⟩
      rcases List.mem_cons.1 hg with rfl | hg
      · rfl
      · exact absurd (Key.canon_inj hc ▸ List.mem_map_of_mem hg) hnew
  · rw [Function.update_of_ne hc, hmap]
    constructor
    · rintro ⟨g, hg, hgc⟩
      exact ⟨g, List.mem_cons_of_mem _ hg, hgc⟩
    · rintro ⟨g, hg, hgc, hgd⟩
      rcases List.mem_cons.1 hg with rfl | hg
      · exact absurd hgc.symm hc
      · exact ⟨g, hg, hgc, hgd⟩

end

/-- A new element, or none where memory runs out. -/
theorem Rep.tryInsert (h : Rep s a) (null : C) {key : Key} {al : AggAlloc} (hnew : key ∉ a.groups.map (·.key))
    (hsearch : s.pSearch = none) (hfresh : al.Fresh s) (hroom : s.hash.count.toNat + 1 < 2 ^ 31) :
    (al.Fails ∧ Rep (aggInsert null key al s) a) ∨
      ∃ p, p ∉ a.groups.map (·.id) ∧ (aggInsert null key al s).pCurrent = some p ∧
        Rep (aggInsert null key al s)
          { a with groups := ⟨key, p, List.replicate s.nMem null⟩ :: a.groups, cur := some p } := by
  cases hp : al.elem with
  | none =>
    refine .inl ⟨.inl hp, ?_⟩
    rw [aggInsert, hp]
    exact h
  | some p =>
    have hunused := hfresh.1 p hp
    have hid : p ∉ a.groups.map (·.id) := by
      rw [List.mem_map]
      rintro ⟨g, hg, rfl⟩
      rw [h.elems g hg] at hunused
      cases hunused
    obtain ⟨G, M, hH, hpos, hmap⟩ := h.table
    have hlen : s.hash.count.toNat = (nodes G).length := by
      have hsmall := hH.small
      rw [hH.count, BitVec.toNat_ofNat]
      omega
    have hvalid : some p ≠ none → Valid s.hash.keyClass (key.ptr.bytes noMem) key.len := by
      intro _ hstring
      rw [h.cls] at hstring
      cases hstring
    obtain ⟨G', M', hH', hins⟩ := hashInsert_spec hH key.ptr key.len (some p) al.hash hfresh.2 hvalid
      (fun _ => hlen ▸ hroom)
    have hcls := hashInsert_keyClass noMem s.hash key.ptr key.len (some p) al.hash
    have hcanon : L2.HashTable.canon s.hash.keyClass (key.ptr.bytes noMem) key.len = key.canon := by
      rw [h.cls]
      rfl
    rw [hcanon] at hins
    unfold Position at hpos
    rw [hsearch] at hpos
    unfold aggInsert
    rw [hp]
    dsimp only
    generalize hashInsert noMem s.hash key.ptr key.len (some p) al.hash = r at hH' hins hcls ⊢
    obtain ⟨out, hash⟩ := r
    dsimp only at hH' hins hcls
    cases hins with
    | replace hold =>
      rw [contents_none hmap hnew] at hold
      cases hold
    | noMem _ hfails =>
      refine .inl ⟨.inr hfails, hcls.trans h.cls, ⟨G', M, hH', ?_, hmap⟩, h.keys, h.ids, h.elems, h.cur, h.live⟩
      unfold Position
      dsimp only
      rw [hsearch]
      exact hpos
    | add _ =>
      refine .inr ⟨p, hid, rfl, hcls.trans h.cls, ⟨G', _, hH', ?_, ?_⟩, List.nodup_cons.2 ⟨hnew, h.keys⟩,
        List.nodup_cons.2 ⟨hid, h.ids⟩, ?_, rfl, ?_⟩
      · unfold Position
        dsimp only
        rw [hsearch]
        exact hpos
      · exact contents_insert hmap ⟨key, p, List.replicate s.nMem null⟩ hnew
      · intro g hg
        rcases List.mem_cons.1 hg with rfl | hg
        · exact Function.update_self ..
        · have hne : g.id ≠ p := fun e => hid (e ▸ List.mem_map_of_mem hg)
          exact (Function.update_of_ne hne ..).trans (h.elems g hg)
      · intro q hq
        rw [← Option.some.inj hq]
        exact List.mem_cons_self

/-- A new element where memory does not run out. -/
theorem Rep.insert (h : Rep s a) {null : C} {key : Key} {al : AggAlloc} (hnew : key ∉ a.groups.map (·.key))
    (hsearch : s.pSearch = none) (hfresh : al.Fresh s) (hal : ¬al.Fails) (hroom : s.hash.count.toNat + 1 < 2 ^ 31) :
    ∃ p, p ∉ a.groups.map (·.id) ∧ (aggInsert null key al s).pCurrent = some p ∧
      Rep (aggInsert null key al s)
        { a with groups := ⟨key, p, List.replicate s.nMem null⟩ :: a.groups, cur := some p } :=
  (h.tryInsert _ hnew hsearch hfresh hroom).resolve_left fun hfail => hal hfail.1

/-! ## Next -/

/-- The elements that `OP_AggNext` goes over are those of the groups, each once. -/
theorem Rep.walk (h : Rep s a) {G : L2.HashTable.Groups} {M : Map Nat} (hH : Holds noMem s.hash G M)
    (hmap : ∀ c d, M c = some d ↔ ∃ g ∈ a.groups, g.key.canon = c ∧ g.id = d) :
    ((nodes G).map (hashData s)).Nodup ∧
      ∀ d, some d ∈ (nodes G).map (hashData s) ↔ ∃ g ∈ a.groups, g.id = d := by
  have hgroup : ∀ p ∈ nodes G, ∀ d, hashData s p = some d →
      ∃ g ∈ a.groups, g.key.canon = s.hash.canonAt noMem p ∧ g.id = d := by
    intro p hp d hd
    exact (hmap _ d).1 ((hH.map _ d).2 ⟨p, hp, rfl, hashData_eq s p ▸ hd⟩)
  have hdata : ∀ p ∈ nodes G, ∃ d, hashData s p = some d := by
    intro p hp
    obtain ⟨e, he⟩ := hH.shape.val hp
    exact ⟨e.data, by rw [hashData_eq, he]; rfl⟩
  constructor
  · refine List.Nodup.map_on (fun p hp q hq hpq => ?_) hH.shape.nodup
    obtain ⟨d, hd⟩ := hdata p hp
    obtain ⟨g, hg, hgc, hgd⟩ := hgroup p hp d hd
    obtain ⟨g', hg', hgc', hgd'⟩ := hgroup q hq d (hpq ▸ hd)
    obtain rfl := h.id_inj hg hg' (hgd.trans hgd'.symm)
    exact List.inj_on_of_nodup_map hH.shape.distinct hp hq (hgc.symm.trans hgc')
  · intro d
    rw [List.mem_map]
    constructor
    · rintro ⟨p, hp, hd⟩
      obtain ⟨g, hg, -, hgd⟩ := hgroup p hp d hd
      exact ⟨g, hg, hgd⟩
    · rintro ⟨g, hg, hgd⟩
      obtain ⟨p, hp, -, hd⟩ := (hH.map _ d).1 ((hmap g.key.canon d).2 ⟨g, hg, rfl, hgd⟩)
      exact ⟨p, hp, by rw [hashData_eq, hd]⟩

/-- A visit of the next element. -/
theorem Rep.visit (h : Rep s a) {G : L2.HashTable.Groups} {M : Map Nat} (hH : Holds noMem s.hash G M)
    (hmap : ∀ c d, M c = some d ↔ ∃ g ∈ a.groups, g.key.canon = c ∧ g.id = d) {l₁ l₂ : List Nat} {e : Nat}
    (hps : nodes G = l₁ ++ e :: l₂) (hseen : (a.seen.map some).reverse = l₁.map (hashData s)) :
    ∃ g ∈ a.groups, g.id ∉ a.seen ∧ hashData s e = some g.id ∧
      Rep { s with pSearch := some e, pCurrent := some g.id }
        { a with cur := some g.id, seen := g.id :: a.seen } := by
  obtain ⟨hnodup, hwalk⟩ := h.walk hH hmap
  obtain ⟨n, hn⟩ := hH.shape.seg.live e (by rw [hps]; simp)
  have hdata : hashData s e = some n.val.data := by
    rw [hashData, hn]
    rfl
  obtain ⟨g, hg, hid⟩ := (hwalk n.val.data).1 (by rw [hps, List.map_append, List.map_cons, hdata]; simp)
  rw [← hid] at hdata
  refine ⟨g, hg, fun hmem => ?_, hdata, h.cls, ⟨G, M, hH, ⟨l₁, l₂, hps, ?_⟩, hmap⟩, h.keys, h.ids, h.elems,
    rfl, ?_⟩
  · have hbefore : some g.id ∈ l₁.map (hashData s) := by
      rw [← hseen]
      simpa using hmem
    rw [hps, List.map_append, List.map_cons, hdata] at hnodup
    exact List.disjoint_of_nodup_append hnodup hbefore List.mem_cons_self
  · rw [List.map_cons, List.reverse_cons, hseen, List.map_append, List.map_singleton]
    exact congrArg (fun x => l₁.map (hashData s) ++ [x]) hdata.symm
  · intro q hq
    rw [← Option.some.inj hq]
    exact List.mem_map_of_mem hg

theorem Rep.done (h : Rep s a) {G : L2.HashTable.Groups} {M : Map Nat} (hH : Holds noMem s.hash G M)
    (hmap : ∀ c d, M c = some d ↔ ∃ g ∈ a.groups, g.key.canon = c ∧ g.id = d)
    (hseen : (a.seen.map some).reverse = (nodes G).map (hashData s)) :
    (∀ g ∈ a.groups, g.id ∈ a.seen) ∧ Rep { s with pSearch := none } { a with seen := [] } := by
  refine ⟨fun g hg => ?_, h.cls, ⟨G, M, hH, rfl, hmap⟩, h.keys, h.ids, h.elems, h.cur, h.live⟩
  have hmem := ((h.walk hH hmap).2 g.id).2 ⟨g, hg, rfl⟩
  rw [← hseen] at hmem
  simpa using hmem

/-- `OP_AggNext` visits a group that has not been visited, or there is none. -/
theorem Rep.next (h : Rep s a) (null : C) (nMem : Nat) (fin : Nat → C → C) :
    ∃ a', GroupStep null nMem fin a
        (.next ((opAggNext fin s).pSearch.bind fun _ => (opAggNext fin s).pCurrent)) a' ∧
      Rep (opAggNext fin s) a' := by
  obtain ⟨G, M, hH, hpos, hmap⟩ := h.table
  -- the elements before the next one are those visited
  obtain ⟨l₁, l₂, hps, hseen, hnext⟩ : ∃ l₁ l₂, nodes G = l₁ ++ l₂ ∧
      (a.seen.map some).reverse = l₁.map (hashData s) ∧
      (match s.pSearch with
        | none => s.hash.first
        | some e => (s.hash.heap e).bind (·.next)) = l₂.head? := by
    unfold Position at hpos
    cases hsearch : s.pSearch with
    | none =>
      rw [hsearch] at hpos
      exact ⟨[], nodes G, rfl, by rw [show a.seen = [] from hpos]; rfl, hH.shape.first⟩
    | some e =>
      rw [hsearch] at hpos
      obtain ⟨l₁, l₂, hps, hseen⟩ := hpos
      have hseg := hH.shape.seg
      rw [hps, seg_append] at hseg
      obtain ⟨n, hn, -, hnext, -⟩ := hseg.2
      refine ⟨l₁ ++ [e], l₂, by rw [hps]; simp, hseen, ?_⟩
      dsimp only
      rw [hn, Option.bind_some, hnext, Option.or_none]
  cases l₂ with
  | nil =>
    rw [List.append_nil] at hps
    obtain ⟨hall, hrep⟩ := h.done hH hmap (hps ▸ hseen)
    have hs : opAggNext fin s = { s with pSearch := none } := by
      rw [opAggNext, hnext]
      rfl
    rw [hs]
    exact ⟨_, .done hall, hrep⟩
  | cons e l₂ =>
    obtain ⟨g, hg, hnot, hdata, hrep⟩ := h.visit hH hmap hps hseen
    have hs : opAggNext fin s =
        ({ s with pSearch := some e, pCurrent := some g.id } : Agg C).write g.id (·.mapIdx fin) := by
      rw [opAggNext, hnext, List.head?_cons]
      dsimp only
      rw [hdata]
    rw [hs]
    exact ⟨_, .visit hg hnot, hrep.write _⟩

/-! ## Steps -/

theorem nMem_aggInsert (null : C) (key : Key) (al : AggAlloc) (s : Agg C) :
    (aggInsert null key al s).nMem = s.nMem := by
  unfold aggInsert
  split
  · rfl
  · split <;> rfl

theorem pSearch_aggInsert (null : C) (key : Key) (al : AggAlloc) (s : Agg C) :
    (aggInsert null key al s).pSearch = s.pSearch := by
  unfold aggInsert
  split
  · rfl
  · split <;> rfl

theorem nMem_opAggNext (fin : Nat → C → C) (s : Agg C) : (opAggNext fin s).nMem = s.nMem := by
  unfold opAggNext
  dsimp only
  split
  · rfl
  · split <;> rfl

/-- The element in focus. -/
theorem Rep.inFocus (h : Rep s a) (null : C) (al : AggAlloc) (hcur : s.pCurrent ≠ none) :
    ∃ g ∈ a.groups, a.cur = some g.id ∧ aggInFocus null al s = (some g.id, s) := by
  obtain ⟨p, hp⟩ := Option.ne_none_iff_exists'.1 hcur
  obtain ⟨g, hg, rfl⟩ := List.mem_map.1 (h.live p (h.cur ▸ hp))
  exact ⟨g, hg, h.cur ▸ hp, by rw [aggInFocus, hp]⟩

/-- A step of the aggregator is one of the groups. -/
theorem Rep.step (h : Rep s a) {null : C} {fin : Nat → C → C} {s' : Agg C} {l : Event C} (hok : Proper s l)
    (hst : (aggLts null fin).step s l s') :
    ∃ a', GroupStep null s.nMem fin a l a' ∧ Rep s' a' ∧ s'.nMem = s.nMem := by
  cases l with
  | focus key al jump p =>
    obtain ⟨hfresh, hfocus, rfl⟩ := hst
    obtain ⟨hsearch, hroom⟩ := hok
    unfold opAggFocus at hfocus
    cases hfind : hashFind noMem s.hash key.ptr key.len with
    | some p =>
      rw [hfind] at hfocus
      obtain ⟨rfl, rfl⟩ := Prod.mk.inj hfocus
      obtain ⟨g, hg, rfl, rfl⟩ := (h.find key p).1 hfind
      exact ⟨_, .known hg, h.known hg, rfl⟩
    | none =>
      rw [hfind] at hfocus
      obtain ⟨rfl, rfl⟩ := Prod.mk.inj hfocus
      have hnew := (h.find_none key).1 hfind
      obtain ⟨p, hid, hp, hrep⟩ := @Rep.insert C s a h null key al hnew hsearch hfresh (hroom hfind).1
        (hroom hfind).2
      rw [hp]
      exact ⟨_, .new hnew hid, hrep, nMem_aggInsert ..⟩
  | set i c al =>
    obtain ⟨-, -, hset⟩ := hst
    obtain ⟨g, hg, hcur, hfocus⟩ := h.inFocus null al hok
    rw [opAggSet, hfocus] at hset
    obtain rfl := Option.some.inj hset
    exact ⟨_, .set hcur, h.write _, rfl⟩
  | func i step =>
    obtain ⟨-, hfunc⟩ := hst
    obtain ⟨p, hp, rfl⟩ := Option.map_eq_some_iff.1 hfunc
    exact ⟨_, .func (h.cur ▸ hp), h.write _, rfl⟩
  | get i al c =>
    obtain ⟨-, -, hget⟩ := hst
    obtain ⟨g, hg, hcur, hfocus⟩ := h.inFocus null al hok
    rw [opAggGet, hfocus] at hget
    dsimp only at hget
    rw [h.elems g hg, Option.bind_some] at hget
    obtain ⟨c', hc, he⟩ := Option.map_eq_some_iff.1 hget
    obtain ⟨rfl, rfl⟩ := Prod.mk.inj he
    exact ⟨a, .get hg hcur hc, h, rfl⟩
  | next p =>
    obtain ⟨rfl, rfl⟩ := hst
    obtain ⟨a', hstep, hrep⟩ := h.next null s.nMem fin
    exact ⟨a', hstep, hrep, nMem_opAggNext ..⟩

/-- A run of the aggregator is one of the groups. -/
theorem Rep.run {null : C} {fin : Nat → C → C} {s' : Agg C} {ls : List (Event C)}
    (hrun : ((aggLts null fin).restrict Proper).Run s ls s') (h : Rep s a) :
    ∃ a', (groupLts null s.nMem fin).Run a ls a' ∧ Rep s' a' := by
  have hstep : ∀ (t : Agg C) (l : Event C) (t' : Agg C) (b : GroupState C), t.nMem = s.nMem ∧ Rep t b →
      ((aggLts null fin).restrict Proper).step t l t' →
        ∃ b', (groupLts null s.nMem fin).step b l b' ∧ t'.nMem = s.nMem ∧ Rep t' b' := by
    rintro t l t' b ⟨hmem, hb⟩ ⟨hok, hst⟩
    obtain ⟨b', hstep, hrep, hmem'⟩ := hb.step hok hst
    rw [hmem] at hstep hmem'
    exact ⟨b', hstep, hmem', hrep⟩
  obtain ⟨a', hrunA, -, hrep⟩ := hrun.simulates hstep ⟨rfl, h⟩
  exact ⟨a', hrunA, hrep⟩

theorem rep_init {null : C} {fin : Nat → C → C} (h : (aggLts null fin).init s) : Rep s ⟨[], none, []⟩ := by
  obtain ⟨s', nMem, hcls, rfl⟩ := h
  refine ⟨hcls, ⟨[], _, hashClear_holds s'.hash, rfl, fun c d => ?_⟩, List.nodup_nil, List.nodup_nil, ?_, rfl, ?_⟩
  · simp
  · simp
  · simp

end

/-! ## Runs of the groups -/

section
variable {null : C} {nMem : Nat} {fin : Nat → C → C}

/-- The keys that came in focus, with their elements. -/
def focused (ls : List (Event C)) : List (Key × Nat) :=
  ls.filterMap fun
    | .focus key _ _ (some p) => some (key, p)
    | _ => none

/-- The elements that `OP_AggNext` visits. -/
def visited (ls : List (Event C)) : List Nat :=
  ls.filterMap fun
    | .next p => p
    | _ => none

/-- The rows are put into groups: a focus falls through the first time that its key comes up, and keys
have the same element if they are the same. From the first `OP_AggNext` to its jump every element of a
key is visited once. -/
structure Partitions (ls : List (Event C)) : Prop where
  focus : ∀ l₁ key al jump p l₂, ls = l₁ ++ .focus key al jump p :: l₂ →
    (jump = false ↔ ∀ q, (key, q) ∉ focused l₁) ∧
      ∃ q, p = some q ∧ ∀ key' q', (key', q') ∈ focused l₁ → (key' = key ↔ q' = q)
  next : ∀ l₁ l₂ l₃, ls = l₁ ++ (l₂ ++ .next none :: l₃) → (∀ p, .next p ∉ l₁) → focused l₂ = [] →
    .next none ∉ l₂ → (visited l₂).Nodup ∧ ∀ p, p ∈ visited l₂ ↔ ∃ key, (key, p) ∈ focused l₁

/-- The group of a key with its element. -/
def GroupState.Has (a : GroupState C) (key : Key) (p : Nat) : Prop := ∃ g ∈ a.groups, g.key = key ∧ g.id = p

theorem has_write {a : GroupState C} {p : Nat} {f : List C → List C} {key : Key} {q : Nat} :
    (a.write p f).Has key q ↔ a.Has key q := by
  constructor
  · rintro ⟨g', hg', hkey, hid⟩
    obtain ⟨g, hg, rfl⟩ := mem_write.1 hg'
    refine ⟨g, hg, ?_⟩
    split at hkey <;> split at hid <;> exact ⟨hkey, hid⟩
  · rintro ⟨g, hg, hkey, hid⟩
    refine ⟨_, mem_write.2 ⟨g, hg, rfl⟩, ?_⟩
    split <;> exact ⟨hkey, hid⟩

theorem GroupStep.has {a a' : GroupState C} {l : Event C} (h : GroupStep null nMem fin a l a') (key : Key)
    (p : Nat) : a'.Has key p ↔ a.Has key p ∨ (key, p) ∈ focused [l] := by
  cases h with
  | @known g al hg =>
    refine ⟨.inl, fun h => h.elim id fun e => ?_⟩
    obtain ⟨rfl, rfl⟩ := Prod.mk.inj (List.mem_singleton.1 e)
    exact ⟨g, hg, rfl, rfl⟩
  | @new key' al p' hkey hid =>
    constructor
    · rintro ⟨g, hg, rfl, rfl⟩
      rcases List.mem_cons.1 hg with rfl | hg
      · exact .inr (List.mem_singleton.2 rfl)
      · exact .inl ⟨g, hg, rfl, rfl⟩
    · rintro (⟨g, hg, hgp⟩ | e)
      · exact ⟨g, List.mem_cons_of_mem _ hg, hgp⟩
      · obtain ⟨rfl, rfl⟩ := Prod.mk.inj (List.mem_singleton.1 e)
        exact ⟨_, List.mem_cons_self, rfl, rfl⟩
  | set => simp [has_write, focused]
  | func => simp [has_write, focused]
  | get => simp [focused]
  | @visit g hg hnot => exact has_write.trans (by simp [GroupState.Has, focused])
  | done => simp [GroupState.Has, focused]

theorem focused_cons (l : Event C) (ls : List (Event C)) : focused (l :: ls) = focused [l] ++ focused ls := by
  unfold focused
  rw [← List.filterMap_append]
  rfl

/-- The groups after a run are those of the keys that came up. -/
theorem groupRun_has {a a' : GroupState C} {ls : List (Event C)} (h : (groupLts null nMem fin).Run a ls a')
    (key : Key) (p : Nat) : a'.Has key p ↔ a.Has key p ∨ (key, p) ∈ focused ls := by
  induction h with
  | nil => simp [focused]
  | @cons _ _ _ l ls hst _ ih => rw [ih, GroupStep.has hst, focused_cons l ls, List.mem_append, or_assoc]

/-- Keys and elements of the groups are different ones, and those seen are among them. -/
structure Distinct (a : GroupState C) : Prop where
  keys : (a.groups.map (·.key)).Nodup
  ids : (a.groups.map (·.id)).Nodup
  seen : a.seen.Nodup
  live : ∀ p ∈ a.seen, p ∈ a.groups.map (·.id)

theorem Distinct.write {a : GroupState C} (h : Distinct a) (p : Nat) (f : List C → List C) :
    Distinct (a.write p f) where
  keys := (write_keys a p f).symm ▸ h.keys
  ids := (write_ids a p f).symm ▸ h.ids
  seen := h.seen
  live := fun q hq => (write_ids a p f).symm ▸ h.live q hq

theorem Distinct.step {a a' : GroupState C} {l : Event C} (h : Distinct a)
    (hst : GroupStep null nMem fin a l a') : Distinct a' := by
  cases hst with
  | known => exact ⟨h.keys, h.ids, h.seen, h.live⟩
  | new hkey hid =>
    exact ⟨List.nodup_cons.2 ⟨hkey, h.keys⟩, List.nodup_cons.2 ⟨hid, h.ids⟩, h.seen,
      fun p hp => List.mem_cons_of_mem _ (h.live p hp)⟩
  | set => exact h.write ..
  | func => exact h.write ..
  | get => exact h
  | @visit g hg hnot =>
    have hvisit : Distinct { a with cur := some g.id, seen := g.id :: a.seen } := by
      refine ⟨h.keys, h.ids, List.nodup_cons.2 ⟨hnot, h.seen⟩, fun p hp => ?_⟩
      rcases List.mem_cons.1 hp with rfl | hp
      · exact List.mem_map_of_mem hg
      · exact h.live p hp
    exact hvisit.write ..
  | done => exact ⟨h.keys, h.ids, List.nodup_nil, fun p hp => absurd hp List.not_mem_nil⟩

theorem groupRun_distinct {a a' : GroupState C} {ls : List (Event C)}
    (hrun : (groupLts null nMem fin).Run a ls a') (h : Distinct a) : Distinct a' :=
  hrun.preserves (fun _ _ _ hb hst => hb.step hst) h

theorem distinct_init : Distinct (⟨[], none, []⟩ : GroupState C) :=
  ⟨List.nodup_nil, List.nodup_nil, List.nodup_nil, fun _ hp => absurd hp List.not_mem_nil⟩

/-- What has been seen in an iteration that goes on. -/
theorem groupRun_seen {a a' : GroupState C} {ls : List (Event C)} (h : (groupLts null nMem fin).Run a ls a')
    (hdone : .next none ∉ ls) : a'.seen = (visited ls).reverse ++ a.seen := by
  induction h with
  | nil => rfl
  | @cons a a' a'' l ls hst _ ih =>
    have hl : l ≠ .next none := fun e => hdone (e ▸ List.mem_cons_self)
    rw [ih fun e => hdone (List.mem_cons_of_mem _ e)]
    cases hst with
    | known => rfl
    | new => rfl
    | set => rfl
    | func => rfl
    | get => rfl
    | visit => simp [visited, GroupState.write]
    | done => exact absurd rfl hl

/-- A run of the groups puts the rows into groups. -/
theorem groupRun_partitions {a : GroupState C} {ls : List (Event C)}
    (hrun : (groupLts null nMem fin).Run ⟨[], none, []⟩ ls a) : Partitions ls := by
  constructor
  · rintro l₁ key al jump p l₂ rfl
    obtain ⟨a₁, hrun₁, hrest⟩ := hrun.split
    have hhas : ∀ k q, a₁.Has k q ↔ (k, q) ∈ focused l₁ := fun k q => by
      rw [groupRun_has hrun₁]
      simp [GroupState.Has]
    have hdist := groupRun_distinct hrun₁ distinct_init
    obtain _ | ⟨hst, -⟩ := hrest
    cases hst with
    | @known g al hg =>
      have hmem := (hhas g.key g.id).1 ⟨g, hg, rfl, rfl⟩
      refine ⟨iff_of_false (by simp) fun hnot => hnot g.id hmem, g.id, rfl, fun key' q' hq => ?_⟩
      obtain ⟨g', hg', rfl, rfl⟩ := (hhas key' q').2 hq
      exact ⟨fun e => congrArg _ (List.inj_on_of_nodup_map hdist.keys hg' hg e),
        fun e => congrArg _ (List.inj_on_of_nodup_map hdist.ids hg' hg e)⟩
    | @new _ _ p hkey hid =>
      have hnew : ∀ q, (key, q) ∉ focused l₁ := by
        intro q hq
        obtain ⟨g, hg, rfl, -⟩ := (hhas key q).2 hq
        exact hkey (List.mem_map_of_mem hg)
      refine ⟨iff_of_true rfl hnew, p, rfl, fun key' q' hq => ?_⟩
      refine iff_of_false (fun e => hnew q' (e ▸ hq)) fun e => ?_
      obtain ⟨g, hg, -, rfl⟩ := (hhas key' q').2 hq
      exact hid (e ▸ List.mem_map_of_mem hg)
  · rintro l₁ l₂ l₃ rfl hnext hfocus hdone
    obtain ⟨a₁, hrun₁, hrest⟩ := hrun.split
    obtain ⟨a₂, hrun₂, hrest⟩ := hrest.split
    have hseen₁ := groupRun_seen hrun₁ (hnext none)
    have hvisit₁ : visited l₁ = [] := by
      rw [visited, List.filterMap_eq_nil_iff]
      intro e he
      cases e with
      | next p => exact absurd he (hnext p)
      | _ => rfl
    have hseen₂ := groupRun_seen hrun₂ hdone
    rw [hseen₁, hvisit₁, List.reverse_nil, List.append_nil, List.append_nil] at hseen₂
    have hdist := groupRun_distinct hrun₂ (groupRun_distinct hrun₁ distinct_init)
    have hhas : ∀ k q, a₂.Has k q ↔ (k, q) ∈ focused l₁ := fun k q => by
      rw [groupRun_has hrun₂, groupRun_has hrun₁, hfocus]
      simp [GroupState.Has]
    obtain _ | ⟨hst, -⟩ := hrest
    cases hst with
    | done hall =>
      have hnodup := hdist.seen
      rw [hseen₂] at hall hnodup
      refine ⟨List.nodup_reverse.1 hnodup, fun p => ⟨fun hp => ?_, ?_⟩⟩
      · obtain ⟨g, hg, rfl⟩ := List.mem_map.1 (hdist.live p (by rw [hseen₂]; exact List.mem_reverse.2 hp))
        exact ⟨g.key, (hhas _ _).1 ⟨g, hg, rfl, rfl⟩⟩
      · rintro ⟨key, hp⟩
        obtain ⟨g, hg, -, rfl⟩ := (hhas key p).2 hp
        exact List.mem_reverse.1 (hall g hg)

/-- **Rows are put into groups** by any run in which there is memory for new elements. -/
theorem agg_groups {s₀ s : Agg C} {ls : List (Event C)} (hinit : (aggLts null fin).init s₀)
    (hrun : ((aggLts null fin).restrict Proper).Run s₀ ls s) :
    Partitions ls ∧ ∃ a, (groupLts null s₀.nMem fin).Run ⟨[], none, []⟩ ls a ∧ Rep s a := by
  obtain ⟨a, hrunA, hrep⟩ := (rep_init hinit).run hrun
  exact ⟨groupRun_partitions hrunA, a, hrunA, hrep⟩

end

/-- An aggregator with one field, after `OP_AggReset`. -/
def emptyAgg : Agg Nat := opAggReset 1 ⟨0, none, none, hashInit .binary false, fun _ => none⟩

def keyA : Key := ⟨[97], by decide⟩
def keyB : Key := ⟨[98], by decide⟩

def roomAt (p : Nat) : AggAlloc := ⟨some p, ⟨some p, true, true⟩⟩
def noRoom : AggAlloc := ⟨none, ⟨none, false, false⟩⟩

/-- The aggregator with an element for "a", and the row that made it. -/
def aggA : Agg Nat := (opAggFocus 0 keyA (roomAt 0) emptyAgg).1
def focusA : Event Nat := .focus keyA (roomAt 0) false (some 0)

theorem emptyAgg_init : (aggLts 0 fun _ c => c).init emptyAgg := ⟨_, 1, rfl, rfl⟩

theorem step_focusA : (aggLts 0 fun _ c => c).step emptyAgg focusA aggA :=
  ⟨⟨fun _ _ => rfl, fun _ _ => rfl⟩, rfl, rfl⟩

theorem fresh_roomAt {s : Agg Nat} {p : Nat} (h : s.elems p = none) (h' : s.hash.heap p = none) :
    (roomAt p).Fresh s := by
  constructor
  · intro q hq
    cases hq
    exact h
  · intro q hq
    cases hq
    exact h'

theorem proper_roomAt {s : Agg Nat} {key : Key} {p : Nat} {jump : Bool} {q : Option Nat} (hs : s.pSearch = none)
    (hc : s.hash.count.toNat + 1 < 2 ^ 31) : Proper s (.focus key (roomAt p) jump q) :=
  ⟨hs, fun _ => ⟨by simp [AggAlloc.Fails, Alloc.Fails, roomAt], hc⟩⟩

/-- Rows with the keys "a", "b" and "a", each adding to the field, and `OP_AggNext` to its end. -/
def sumRows : List (Event Nat) :=
  [.focus keyA (roomAt 0) false (some 0), .func 0 (· + 5), .focus keyB (roomAt 1) false (some 1),
    .func 0 (· + 7), .focus keyA (roomAt 2) true (some 0), .func 0 (· + 1),
    .next (some 1), .get 0 (roomAt 2) 7, .next (some 0), .get 0 (roomAt 2) 6, .next none]

theorem agg_groups_sums : ∃ s : Agg Nat, ((aggLts 0 fun _ c => c).restrict Proper).Run emptyAgg sumRows s ∧
    Partitions sumRows ∧ ∃ a, (groupLts 0 1 fun _ c => c).Run ⟨[], none, []⟩ sumRows a ∧ Rep s a := by
  have hrun : ∃ s : Agg Nat, ((aggLts 0 fun _ c => c).restrict Proper).Run emptyAgg sumRows s := by
    refine ⟨_, .cons ⟨proper_roomAt rfl (by decide +kernel), fresh_roomAt rfl rfl, rfl, rfl⟩ <|
      .cons ⟨trivial, (by decide), rfl⟩ <|
      .cons ⟨proper_roomAt rfl (by decide +kernel), fresh_roomAt rfl rfl, rfl, rfl⟩ <|
      .cons ⟨trivial, (by decide), rfl⟩ <|
      .cons ⟨proper_roomAt rfl (by decide +kernel), fresh_roomAt rfl rfl, rfl, rfl⟩ <|
      .cons ⟨trivial, (by decide), rfl⟩ <| .cons ⟨trivial, rfl, rfl⟩ <|
      .cons ⟨by exact Option.some_ne_none _, fresh_roomAt rfl rfl, (by decide), rfl⟩ <|
      .cons ⟨trivial, rfl, rfl⟩ <| .cons ⟨by exact Option.some_ne_none _, fresh_roomAt rfl rfl, (by decide), rfl⟩ <|
      .cons ⟨trivial, rfl, rfl⟩ (.nil _)⟩
  obtain ⟨s, hrun⟩ := hrun
  exact ⟨s, hrun, agg_groups emptyAgg_init hrun⟩

/-- A row with the key "b" when memory has run out: the element of "a" stays in focus. -/
theorem agg_fails : ¬∀ (null : Nat) (fin : Nat → Nat → Nat) (s₀ s : Agg Nat) (ls : List (Event Nat)),
    (aggLts null fin).init s₀ → (aggLts null fin).Run s₀ ls s → Partitions ls := by
  intro h
  have hstep : (aggLts 0 fun _ c => c).step aggA (.focus keyB noRoom false (some 0)) aggA := by
    refine ⟨⟨fun _ e => ?_, fun _ e => ?_⟩, rfl, rfl⟩ <;> cases e
  have hpart := h 0 _ emptyAgg aggA _ emptyAgg_init (.cons step_focusA (.cons hstep (.nil _)))
  obtain ⟨-, q, hq, hsame⟩ := hpart.focus [focusA] _ _ _ _ _ rfl
  have hkeys := (hsame keyA 0 (List.mem_singleton.2 rfl)).2 (Option.some.inj hq)
  exact absurd hkeys (by decide)

end Aggregate
end Dbsql.L3
