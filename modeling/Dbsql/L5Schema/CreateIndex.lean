import Dbsql.Core.Lts
import Dbsql.L5Codegen.Triggers
import Dbsql.L5Schema.UnlinkIndex
/-!
# Creating indices (cg_build.c:2083-2173)

`__create_index` links a new index to the list of its table. INSERT and UPDATE check the indices in
the order of this list, and an index with REPLACE deletes rows where the others only give up, so
all with REPLACE have to come after the others. A new index goes to the front, or with REPLACE,
where the first one has another action, behind the last that has.

Results:
* `lastOther_eq`: the loop stops at the last index that has another action.
* `createIndex_ends`: what a creation does to the list.
* `creations_ordered`: the list after any creations.
-/
namespace Dbsql.L5.CreateIndex
open Dbsql.Core Dbsql.L1
open Dbsql.L5.Names (strcasecmp)
open Dbsql.L5.Trig (OnError)
open Dbsql.L5.UnlinkIndex (Fault)

/-- `index_t`, less its table and the number of its page. -/
structure Index where
  zName : Bytes
  aiColumn : List Nat
  onError : OnError
  autoIndex : Bool
  iDb : Nat
  pNext : Option Nat

/-- `table->pIndex`, and the indices in memory. -/
structure State where
  pIndex : Option Nat
  index : Nat → Option Index

/-- An index but for its link. -/
def Index.unlinked (ix : Index) : Index := { ix with pNext := none }

/-- What a call is given and what the calls in it return. -/
structure Request where
  /-- one of the checks before the allocation ends the call -/
  refused : Bool
  /-- the name of the table and those of its columns -/
  table : Bytes
  aCol : List Bytes
  name : Bytes
  list : List Bytes
  onError : OnError
  autoIndex : Bool
  iDb : Nat
  /-- the block from `__dbsql_calloc` -/
  block : Option Nat
  explain : Bool
  /-- what `__hash_insert` returns, null if the name has been entered -/
  rindex : Option Nat

inductive Outcome
  | refused
  | noMem
  | error (zErrMsg : Bytes)
  | created (p : Nat) (ix : Index)

/-! ## `__create_index` -/

/-- `j` for the name of a column (cg_build.c:2119-2125). -/
def columnIndex (aCol : List Bytes) (zName : Bytes) : Option Nat :=
  aCol.findIdx? fun c => strcasecmp zName c

/-- The columns of the index, or the text of an error. -/
def loadColumns (table : Bytes) (aCol : List Bytes) : List Bytes → Except Bytes (List Nat)
  | [] => .ok []
  | zName :: list =>
    match columnIndex aCol zName with
    | none => .error (ascii "table " ++ table ++ ascii " has no column named " ++ zName)
    | some j => (loadColumns table aCol list).map (j :: ·)

/-- What a pointer points to. -/
def State.deref (s : State) : Option Nat → Except Fault Index
  | none => .error .null
  | some p =>
    match s.index p with
    | some ix => .ok ix
    | none => .error .freed

/-- `p->pNext = x`. -/
def State.setNext (s : State) (p : Nat) (x : Option Nat) : State :=
  { s with index := Function.update s.index p ((s.index p).map fun ix => { ix with pNext := x }) }

/-- The loop of the insertion, with at most `rounds` rounds: the last `other`. -/
def lastOther (s : State) : Nat → Nat → Except Fault Nat
  | 0, _ => .error .rounds
  | rounds + 1, other => do
    match (← s.deref (some other)).pNext with
    | none => pure other
    | some next =>
      if (← s.deref (some next)).onError ≠ .replace then lastOther s rounds next else pure other

/-- The index goes to the front. -/
def State.atFront (s : State) (onError : OnError) : Except Fault Bool :=
  if onError ≠ .replace then pure true
  else
    match s.pIndex with
    | none => pure true
    | some first => do pure (decide ((← s.deref (some first)).onError = .replace))

/-- Adding an index to the list (cg_build.c:2156-2173). -/
def link (rounds : Nat) (s : State) (index : Nat) (onError : OnError) : Except Fault State := do
  if ← s.atFront onError then pure { s.setNext index s.pIndex with pIndex := some index }
  else
    match s.pIndex with
    | none => .error .null
    | some first =>
      let other ← lastOther s rounds first
      let s := s.setNext index (← s.deref (some other)).pNext
      pure (s.setNext other (some index))

/-- `__create_index` from the allocation on (cg_build.c:2103-2173). -/
def createIndex (rounds : Nat) (s : State) (req : Request) : Except Fault (State × Outcome) :=
  if req.refused then pure (s, .refused)
  else
    match req.block with
    | none => pure (s, .noMem)
    | some p =>
      match loadColumns req.table req.aCol req.list with
      | .error zErrMsg => pure (s, .error zErrMsg)
      | .ok aiColumn =>
        if !req.explain && req.rindex.isSome then pure (s, .noMem)
        else do
          let ix : Index := ⟨req.name, aiColumn, req.onError, req.autoIndex, req.iDb, none⟩
          let s ← link rounds { s with index := Function.update s.index p (some ix) } p req.onError
          pure (s, .created p ix)

/-! ## The list -/

/-- The link of each index. -/
def State.next (s : State) (p : Nat) : Option (Option Nat) := (s.index p).map (·.pNext)

/-- The action of an index is REPLACE. -/
def State.replaces (s : State) (p : Nat) : Bool := (s.index p).any fun ix => ix.onError = .replace

/-- The list of the table, first those with another action, then those with REPLACE. -/
structure Parted (s : State) (others repls : List Nat) : Prop where
  chain : Chain s.next s.pIndex (others ++ repls)
  others : ∀ x ∈ others, s.replaces x = false
  repls : ∀ x ∈ repls, s.replaces x = true

/-- The list has the indices that were created, each once and as it was made. -/
structure Listed (s : State) (made : List (Nat × Index)) (xs : List Nat) : Prop where
  chain : Chain s.next s.pIndex xs
  perm : xs.Perm (made.map Prod.fst)
  kept : ∀ p ix, (p, ix) ∈ made → (s.index p).map Index.unlinked = some ix.unlinked
  ordered : xs.Pairwise fun x y => s.replaces x = true → s.replaces y = true

section
variable {s : State} {p q other : Nat} {ix : Index} {others repls : List Nat}

theorem deref_some (h : s.index p = some ix) : s.deref (some p) = .ok ix := by
  rw [State.deref, h]

theorem next_some (h : s.index p = some ix) : s.next p = some ix.pNext := by
  rw [State.next, h, Option.map_some]

theorem replaces_some (h : s.index p = some ix) : s.replaces p = decide (ix.onError = .replace) := by
  rw [State.replaces, h, Option.any_some]

theorem index_of_next {r : Option Nat} (h : s.next p = some r) : ∃ ix, s.index p = some ix ∧ ix.pNext = r :=
  Option.map_eq_some_iff.1 h

@[simp] theorem setNext_pIndex (s : State) (p : Nat) (x : Option Nat) : (s.setNext p x).pIndex = s.pIndex := rfl

theorem setNext_index_ne (h : q ≠ p) (x : Option Nat) : (s.setNext p x).index q = s.index q :=
  Function.update_of_ne h _ _

theorem setNext_index_self (h : s.index p = some ix) (x : Option Nat) :
    (s.setNext p x).index p = some { ix with pNext := x } := by
  simp [State.setNext, h]

theorem setNext_unlinked (s : State) (p q : Nat) (x : Option Nat) :
    ((s.setNext p x).index q).map Index.unlinked = (s.index q).map Index.unlinked := by
  by_cases h : q = p
  · subst h
    simp only [State.setNext, Function.update_self, Option.map_map]
    rfl
  · rw [setNext_index_ne h]

/-- Links say nothing about the actions. -/
theorem replaces_unlinked {s' : State} (h : (s'.index q).map Index.unlinked = (s.index q).map Index.unlinked) :
    s'.replaces q = s.replaces q := by
  have hany : ∀ o : Option Index, (o.any fun ix => ix.onError = .replace) =
      (o.map Index.unlinked).any fun ix => ix.onError = .replace := by
    intro o
    cases o with
    | none => rfl
    | some ix => rfl
  rw [State.replaces, State.replaces, hany, h, ← hany]

theorem Parted.pairwise (h : Parted s others repls) :
    (others ++ repls).Pairwise fun x y => s.replaces x = true → s.replaces y = true := by
  rw [List.pairwise_append]
  refine ⟨?_, ?_, ?_⟩
  · apply List.pairwise_of_forall_mem_list
    intro x hx y hy hrep
    rw [h.others x hx] at hrep
    cases hrep
  · apply List.pairwise_of_forall_mem_list
    intro x hx y hy _
    exact h.repls y hy
  · intro x hx y hy _
    exact h.repls y hy

/-! ## The loop -/

/-- **The loop stops at the last index with another action.** -/
theorem lastOther_eq {x : Nat} {tail : List Nat} {rounds : Nat} (hchain : Chain s.next (some x) (x :: tail ++ repls))
    (htail : ∀ y ∈ tail, s.replaces y = false) (hrepls : ∀ y ∈ repls, s.replaces y = true)
    (hrounds : tail.length < rounds) :
    lastOther s rounds x = .ok ((x :: tail).getLast (List.cons_ne_nil x tail)) := by
  -- each round moves on by one index of `tail`
  induction tail generalizing x rounds with
  | nil =>
    obtain ⟨rounds, rfl⟩ : ∃ k, rounds = k + 1 := ⟨rounds - 1, by simp at hrounds; omega⟩
    obtain ⟨-, r, hr, hrest⟩ := hchain
    obtain ⟨ix, hix, rfl⟩ := index_of_next hr
    rw [lastOther, deref_some hix]
    simp only [bind, Except.bind]
    cases repls with
    | nil =>
      have hnone : ix.pNext = none := hrest
      simp only [hnone]
      rfl
    | cons y repls =>
      obtain ⟨hnext, ry, hry, -⟩ := hrest
      obtain ⟨iy, hiy, -⟩ := index_of_next hry
      have hrep : iy.onError = .replace := by
        simpa [replaces_some hiy] using hrepls y (List.mem_cons_self ..)
      simp only [hnext, deref_some hiy, hrep]
      rfl
  | cons y tail ih =>
    obtain ⟨rounds, rfl⟩ : ∃ k, rounds = k + 1 := ⟨rounds - 1, by omega⟩
    obtain ⟨-, r, hr, hrest⟩ := hchain
    obtain ⟨ix, hix, rfl⟩ := index_of_next hr
    have hnext : ix.pNext = some y := hrest.1
    obtain ⟨ry, hry, -⟩ := hrest.2
    obtain ⟨iy, hiy, -⟩ := index_of_next hry
    have hother : iy.onError ≠ .replace := by
      simpa [replaces_some hiy] using htail y (List.mem_cons_self ..)
    have hlast := ih (hnext ▸ hrest) (fun z hz => htail z (List.mem_cons_of_mem y hz))
      (Nat.lt_of_succ_lt_succ hrounds)
    rw [lastOther, deref_some hix]
    simp only [bind, Except.bind, hnext, deref_some hiy, if_pos hother]
    rw [hlast, List.getLast_cons_cons]

/-! ## A creation -/

/-- The state with a new index that is on no list. -/
def State.enter (s : State) (p : Nat) (ix : Index) : State :=
  { s with index := Function.update s.index p (some ix) }

theorem enter_index_ne (h : q ≠ p) : (s.enter p ix).index q = s.index q := Function.update_of_ne h _ _

theorem enter_index_self : (s.enter p ix).index p = some ix := Function.update_self p _ _

theorem Parted.live (h : Parted s others repls) (hq : q ∈ others ++ repls) : s.index q ≠ none := by
  obtain ⟨r, hr⟩ := h.chain.live q hq
  obtain ⟨ix, hix, -⟩ := index_of_next hr
  simp [hix]

/-- A state with the same list, and the same actions on it. -/
theorem Parted.congr {s' : State} (h : Parted s others repls) (hfirst : s'.pIndex = s.pIndex)
    (heq : ∀ q ∈ others ++ repls, s'.index q = s.index q) : Parted s' others repls where
  chain := by
    rw [hfirst]
    exact h.chain.congr fun q hq => congrArg _ (heq q hq)
  others := by
    intro x hx
    rw [State.replaces, heq x (List.mem_append_left _ hx)]
    exact h.others x hx
  repls := by
    intro x hx
    rw [State.replaces, heq x (List.mem_append_right _ hx)]
    exact h.repls x hx

theorem Parted.enter (ix : Index) (h : Parted s others repls) (hp : s.index p = none) : Parted (s.enter p ix) others repls := by
  refine h.congr rfl fun q hq => enter_index_ne ?_
  intro hqp
  exact h.live hq (hqp ▸ hp)

/-- The state with the index in front of the list. -/
def State.pushed (s : State) (p : Nat) : State := { s.setNext p s.pIndex with pIndex := some p }

/-- The chain of a list with the index in front. -/
theorem pushed_chain {xs : List Nat} (hix : s.index p = some ix) (hp : p ∉ xs) (h : Chain s.next s.pIndex xs) :
    Chain (s.pushed p).next (s.pushed p).pIndex (p :: xs) := by
  refine ⟨rfl, s.pIndex, next_some (setNext_index_self hix s.pIndex), h.congr fun q hq => ?_⟩
  have hne : q ≠ p := fun hqp => hp (hqp ▸ hq)
  exact congrArg _ (setNext_index_ne hne s.pIndex)

theorem pushed_unlinked (s : State) (p q : Nat) :
    ((s.pushed p).index q).map Index.unlinked = (s.index q).map Index.unlinked := setNext_unlinked s p q _

/-- What an insertion does: the list has one index more, and only links have changed. -/
structure Linked (s s' : State) (p : Nat) (xs : List Nat) : Prop where
  parted : ∃ others repls, Parted s' others repls ∧ (others ++ repls).Perm (p :: xs)
  unlinked : ∀ q, (s'.index q).map Index.unlinked = (s.index q).map Index.unlinked

theorem linked_other (h : Parted s others repls) (hix : s.index p = some ix) (hp : p ∉ others ++ repls)
    (hother : ix.onError ≠ .replace) : Linked s (s.pushed p) p (others ++ repls) := by
  have hsame : ∀ q, (s.pushed p).replaces q = s.replaces q := fun q => replaces_unlinked (pushed_unlinked s p q)
  refine ⟨⟨p :: others, repls, ⟨pushed_chain hix hp h.chain, ?_, ?_⟩, List.Perm.refl _⟩, pushed_unlinked s p⟩
  · intro x hx
    rw [hsame]
    rcases List.mem_cons.1 hx with rfl | hx
    · simp [replaces_some hix, hother]
    · exact h.others x hx
  · intro x hx
    rw [hsame]
    exact h.repls x hx

theorem linked_first (h : Parted s [] repls) (hix : s.index p = some ix) (hp : p ∉ repls)
    (hrep : ix.onError = .replace) : Linked s (s.pushed p) p repls := by
  have hsame : ∀ q, (s.pushed p).replaces q = s.replaces q := fun q => replaces_unlinked (pushed_unlinked s p q)
  refine ⟨⟨[], p :: repls, ⟨pushed_chain hix hp h.chain, ?_, ?_⟩, List.Perm.refl _⟩, pushed_unlinked s p⟩
  · simp
  · intro x hx
    rw [hsame]
    rcases List.mem_cons.1 hx with rfl | hx
    · simp [replaces_some hix, hrep]
    · exact h.repls x hx

/-- The state with the index behind `other`. -/
def State.putBehind (s : State) (other p : Nat) (r : Option Nat) : State :=
  (s.setNext p r).setNext other (some p)

theorem linked_behind {init : List Nat} {io : Index} (h : Parted s (init ++ [other]) repls)
    (hix : s.index p = some ix) (hp : p ∉ init ++ [other] ++ repls) (hio : s.index other = some io)
    (hrep : ix.onError = .replace) :
    Linked s (s.putBehind other p io.pNext) p (init ++ [other] ++ repls) := by
  have hunlinked : ∀ q, ((s.putBehind other p io.pNext).index q).map Index.unlinked =
      (s.index q).map Index.unlinked := by
    intro q
    rw [State.putBehind, setNext_unlinked, setNext_unlinked]
  have hsame : ∀ q, (s.putBehind other p io.pNext).replaces q = s.replaces q :=
    fun q => replaces_unlinked (hunlinked q)
  have hne : other ≠ p := by
    intro hop
    exact hp (by simp [hop])
  have hio' : (s.setNext p io.pNext).index other = some io := by
    rw [setNext_index_ne hne, hio]
  have hix' : (s.putBehind other p io.pNext).index p = some { ix with pNext := io.pNext } := by
    rw [State.putBehind, setNext_index_ne hne.symm, setNext_index_self hix]
  have hlink : (s.putBehind other p io.pNext).next other = some (some p) :=
    next_some (setNext_index_self hio' (some p))
  have hnext : (s.putBehind other p io.pNext).next p = some io.pNext := by
    rw [next_some hix']
  have hchain : Chain (s.putBehind other p io.pNext).next s.pIndex (init ++ other :: p :: repls) := by
    refine Chain.insert (next_some hio) hlink hnext ?_ (by simpa using h.chain)
    intro x hx hxo
    have hxp : x ≠ p := by
      intro hxp
      exact hp (by simpa [hxp] using hx)
    exact congrArg _ ((setNext_index_ne hxo _).trans (setNext_index_ne hxp _))
  have hlist : init ++ other :: p :: repls = init ++ [other] ++ p :: repls := by
    simp
  refine ⟨⟨init ++ [other], p :: repls, ⟨hlist ▸ hchain, ?_, ?_⟩, List.perm_middle⟩, hunlinked⟩
  · intro x hx
    rw [hsame]
    exact h.others x hx
  · intro x hx
    rw [hsame]
    rcases List.mem_cons.1 hx with rfl | hx
    · simp [replaces_some hix, hrep]
    · exact h.repls x hx

/-- **An insertion keeps the list parted.** -/
theorem link_linked (h : Parted s others repls) (hix : s.index p = some ix) (hp : p ∉ others ++ repls) :
    ∃ s', (∀ rounds, others.length ≤ rounds → link rounds s p ix.onError = .ok s') ∧
      Linked s s' p (others ++ repls) := by
  by_cases hrep : ix.onError = .replace
  · cases others with
    | nil =>
      have hfront : s.atFront ix.onError = .ok true := by
        cases repls with
        | nil =>
          have hnone : s.pIndex = none := h.chain
          simp [State.atFront, hrep, hnone, pure, Except.pure]
        | cons y repls =>
          obtain ⟨hfirst, r, hr, -⟩ := h.chain
          obtain ⟨iy, hiy, -⟩ := index_of_next hr
          have hy : iy.onError = .replace := by
            simpa [replaces_some hiy] using h.repls y (List.mem_cons_self ..)
          simp [State.atFront, hrep, hfirst, deref_some hiy, hy, bind, Except.bind, pure, Except.pure]
      refine ⟨s.pushed p, fun rounds _ => ?_, linked_first h hix hp hrep⟩
      simp [link, hfront, bind, Except.bind, pure, Except.pure, State.pushed]
    | cons x tail =>
      obtain ⟨hfirst, r, hr, -⟩ := h.chain
      obtain ⟨ifst, hifst, -⟩ := index_of_next hr
      have hx : ifst.onError ≠ .replace := by
        simpa [replaces_some hifst] using h.others x (List.mem_cons_self ..)
      have hfront : s.atFront ix.onError = .ok false := by
        simp [State.atFront, hrep, hfirst, deref_some hifst, hx, bind, Except.bind, pure, Except.pure]
      have hlast := fun rounds (hr : tail.length < rounds) => lastOther_eq (hfirst ▸ h.chain)
        (fun y hy => h.others y (List.mem_cons_of_mem x hy)) h.repls hr
      obtain ⟨init, other, hsplit⟩ : ∃ init other, x :: tail = init ++ [other] :=
        ⟨_, _, (List.dropLast_append_getLast (List.cons_ne_nil x tail)).symm⟩
      have hother : (x :: tail).getLast (List.cons_ne_nil x tail) = other := by
        simp [hsplit]
      rw [hsplit] at h hp ⊢
      obtain ⟨ro, hro⟩ := h.chain.live other (by simp)
      obtain ⟨io, hio, -⟩ := index_of_next hro
      refine ⟨s.putBehind other p io.pNext, fun rounds hle => ?_, linked_behind h hix hp hio hrep⟩
      have hlt : tail.length < rounds := by
        rw [← hsplit] at hle
        exact hle
      simp [link, hfront, hfirst, hlast rounds hlt, hother, deref_some hio, bind, Except.bind, pure,
        Except.pure, State.putBehind]
  · have hfront : s.atFront ix.onError = .ok true := by
      simp [State.atFront, hrep, pure, Except.pure]
    refine ⟨s.pushed p, fun rounds _ => ?_, linked_other h hix hp hrep⟩
    simp [link, hfront, bind, Except.bind, pure, Except.pure, State.pushed]

end

/-! ## What a request comes to -/

/-- An index is made when nothing stands against it, and it is the one that was asked for. -/
structure Answers (req : Request) (out : Outcome) : Prop where
  created : (∃ p ix, out = .created p ix) ↔ req.refused = false ∧ req.block ≠ none ∧
    (∀ zName ∈ req.list, columnIndex req.aCol zName ≠ none) ∧ (req.explain = true ∨ req.rindex = none)
  index : ∀ p ix, out = .created p ix → req.block = some p ∧ ix.zName = req.name ∧ ix.onError = req.onError ∧
    ix.autoIndex = req.autoIndex ∧ ix.iDb = req.iDb ∧
    List.Forall₂ (fun zName j => columnIndex req.aCol zName = some j) req.list ix.aiColumn

theorem loadColumns_ok {table : Bytes} {aCol list : List Bytes} {js : List Nat}
    (h : loadColumns table aCol list = .ok js) :
    List.Forall₂ (fun zName j => columnIndex aCol zName = some j) list js := by
  induction list generalizing js with
  | nil =>
    cases h
    exact .nil
  | cons zName list ih =>
    rw [loadColumns] at h
    cases hj : columnIndex aCol zName with
    | none => simp [hj] at h
    | some j =>
      cases hl : loadColumns table aCol list with
      | error z => simp [hj, hl, Except.map] at h
      | ok js' =>
        obtain rfl : j :: js' = js := by simpa [hj, hl, Except.map] using h
        exact .cons hj (ih hl)

theorem columns_known {aCol list : List Bytes} {js : List Nat}
    (h : List.Forall₂ (fun zName j => columnIndex aCol zName = some j) list js) :
    ∀ zName ∈ list, columnIndex aCol zName ≠ none := by
  induction h with
  | nil => simp
  | cons hj _ ih => exact List.forall_mem_cons.2 ⟨by simp [hj], ih⟩

theorem loadColumns_error {table zErrMsg : Bytes} {aCol list : List Bytes}
    (h : loadColumns table aCol list = .error zErrMsg) : ∃ zName ∈ list, columnIndex aCol zName = none := by
  induction list with
  | nil => cases h
  | cons zName list ih =>
    cases hj : columnIndex aCol zName with
    | none => exact ⟨zName, List.mem_cons_self, hj⟩
    | some j =>
      cases hl : loadColumns table aCol list with
      | ok js => simp [loadColumns, hj, hl, Except.map] at h
      | error z =>
        obtain rfl : z = zErrMsg := by simpa [loadColumns, hj, hl, Except.map] using h
        obtain ⟨zName', hmem, hnone⟩ := ih hl
        exact ⟨zName', List.mem_cons_of_mem _ hmem, hnone⟩

theorem createIndex_answers {s s' : State} {rounds : Nat} {req : Request} {out : Outcome}
    (h : createIndex rounds s req = .ok (s', out)) : Answers req out := by
  unfold createIndex at h
  split at h
  · rename_i hrefused
    obtain ⟨-, rfl⟩ : s = s' ∧ Outcome.refused = out := by simpa [pure, Except.pure] using h
    exact ⟨by simp [hrefused], by simp⟩
  rename_i hrefused
  split at h
  · rename_i hblock
    obtain ⟨-, rfl⟩ : s = s' ∧ Outcome.noMem = out := by simpa [pure, Except.pure] using h
    exact ⟨by simp [hblock], by simp⟩
  rename_i p hblock
  split at h
  · rename_i zErrMsg hload
    obtain ⟨-, rfl⟩ : s = s' ∧ Outcome.error zErrMsg = out := by simpa [pure, Except.pure] using h
    obtain ⟨zName, hmem, hnone⟩ := loadColumns_error hload
    refine ⟨⟨by simp, fun hall => absurd hnone (hall.2.2.1 zName hmem)⟩, by simp⟩
  rename_i aiColumn hload
  split at h
  · rename_i htaken
    obtain ⟨-, rfl⟩ : s = s' ∧ Outcome.noMem = out := by simpa [pure, Except.pure] using h
    refine ⟨⟨by simp, fun hall => ?_⟩, by simp⟩
    rcases hall.2.2.2 with hex | hnone
    · simp [hex] at htaken
    · simp [hnone] at htaken
  rename_i hfree
  have hcols := loadColumns_ok hload
  simp only [bind, Except.bind] at h
  split at h
  · cases h
  obtain ⟨-, rfl⟩ : _ ∧ Outcome.created p ⟨req.name, aiColumn, req.onError, req.autoIndex, req.iDb, none⟩ = out := by
    simpa [pure, Except.pure] using h
  refine ⟨⟨fun _ => ⟨by simpa using hrefused, by simp [hblock], columns_known hcols, ?_⟩,
    fun _ => ⟨_, _, rfl⟩⟩, ?_⟩
  · simpa [or_iff_not_imp_left] using hfree
  · intro q ix heq
    cases heq
    exact ⟨hblock, rfl, rfl, rfl, rfl, hcols⟩

/-! ## All creations -/

/-- What an outcome adds to the list. -/
def Outcome.made : Outcome → List (Nat × Index)
  | .created p ix => [(p, ix)]
  | _ => []

/-- The creations of indices of a table, with those made so far. A block that is allocated is not in use. -/
def creations : LTS (State × List (Nat × Index)) Request where
  init s := s.1.pIndex = none ∧ s.2 = []
  step s req s' := (∀ p, req.block = some p → s.1.index p = none) ∧
    ∃ n out, (∀ rounds, n ≤ rounds → createIndex rounds s.1 req = .ok (s'.1, out)) ∧ s'.2 = s.2 ++ out.made

/-- The invariant: the list is parted, and has what was made. -/
structure Made (s : State) (made : List (Nat × Index)) (others repls : List Nat) : Prop where
  parted : Parted s others repls
  perm : (others ++ repls).Perm (made.map Prod.fst)
  kept : ∀ p ix, (p, ix) ∈ made → (s.index p).map Index.unlinked = some ix.unlinked

section
variable {s s' : State} {made : List (Nat × Index)} {others repls : List Nat} {req : Request}

theorem Made.listed (h : Made s made others repls) : Listed s made (others ++ repls) :=
  ⟨h.parted.chain, h.perm, h.kept, h.parted.pairwise⟩

/-- The index that has been linked was made. -/
theorem Made.add {p : Nat} {ix : Index} (h : Made s made others repls) (hp : s.index p = none)
    (hl : Linked (s.enter p ix) s' p (others ++ repls)) :
    ∃ others' repls', Made s' (made ++ [(p, ix)]) others' repls' := by
  obtain ⟨others', repls', hparted, hperm⟩ := hl.parted
  refine ⟨others', repls', hparted, ?_, ?_⟩
  · have hadd : (p :: (others ++ repls)).Perm (made.map Prod.fst ++ [p]) :=
      (h.perm.cons p).trans (List.perm_append_singleton p _).symm
    simpa using hperm.trans hadd
  · intro q iq hq
    rw [hl.unlinked q]
    rcases List.mem_append.1 hq with hq | hq
    · have hkept := h.kept q iq hq
      have hqp : q ≠ p := by
        intro hqp
        rw [hqp, hp] at hkept
        cases hkept
      rw [enter_index_ne hqp]
      exact hkept
    · obtain ⟨rfl, rfl⟩ : q = p ∧ iq = ix := by simpa using hq
      rw [enter_index_self, Option.map_some]

/-- **A creation ends without a fault, and adds the index it makes to the list.** -/
theorem createIndex_ends (h : Made s made others repls) (hfree : ∀ p, req.block = some p → s.index p = none) :
    ∃ s' out, ∀ rounds, others.length ≤ rounds → createIndex rounds s req = .ok (s', out) ∧
      ∃ others' repls', Made s' (made ++ out.made) others' repls' := by
  have hsame : ∀ out : Outcome, out.made = [] → ∃ others' repls', Made s (made ++ out.made) others' repls' := by
    intro out hout
    rw [hout, List.append_nil]
    exact ⟨others, repls, h⟩
  unfold createIndex
  split
  · exact ⟨s, .refused, fun _ _ => ⟨rfl, hsame _ rfl⟩⟩
  split
  · exact ⟨s, .noMem, fun _ _ => ⟨rfl, hsame _ rfl⟩⟩
  rename_i p hblock
  split
  · exact ⟨s, .error _, fun _ _ => ⟨rfl, hsame _ rfl⟩⟩
  rename_i aiColumn _
  split
  · exact ⟨s, .noMem, fun _ _ => ⟨rfl, hsame _ rfl⟩⟩
  -- only here is the list changed
  have hp := hfree p hblock
  have hout : p ∉ others ++ repls := fun hmem => h.parted.live hmem hp
  let ix : Index := ⟨req.name, aiColumn, req.onError, req.autoIndex, req.iDb, none⟩
  obtain ⟨s', hlink, hlinked⟩ := link_linked (h.parted.enter ix hp) enter_index_self hout
  refine ⟨s', .created p ix, fun rounds hrounds => ⟨?_, h.add hp hlinked⟩⟩
  show Except.bind (link rounds (s.enter p ix) p ix.onError) _ = _
  rw [hlink rounds hrounds]
  rfl

theorem inductive_made :
    creations.Inductive fun s => ∃ others repls, Made s.1 s.2 others repls := by
  refine ⟨?_, ?_⟩
  · intro s hinit
    obtain ⟨s, made⟩ := s
    obtain ⟨hnone, rfl⟩ : s.pIndex = none ∧ made = [] := hinit
    exact ⟨[], [], ⟨hnone, by simp, by simp⟩, by simp, by simp⟩
  · intro s req s' hinv hstep
    obtain ⟨others, repls, h⟩ := hinv
    obtain ⟨hfree, n, out, hcreate, hmade⟩ := hstep
    obtain ⟨s'', out', hends⟩ := createIndex_ends h hfree
    obtain ⟨heq, hnew⟩ := hends (max n others.length) (Nat.le_max_right _ _)
    rw [hcreate _ (Nat.le_max_left _ _)] at heq
    obtain ⟨rfl, rfl⟩ : s'.1 = s'' ∧ out = out' := by simpa using heq
    rw [hmade]
    exact hnew

/-- **After any creations the list has every index that was made, once and as it was made, all with
REPLACE behind all others; and the next creation ends without a fault, with the index asked for if
nothing stands against it.** -/
theorem creations_ordered (hr : creations.Reachable (s, made)) :
    ∃ xs, Listed s made xs ∧ xs.Nodup ∧
      ∀ req : Request, (∀ p, req.block = some p → s.index p = none) →
        ∃ s' out, creations.step (s, made) req (s', made ++ out.made) ∧ Answers req out ∧
          ∀ rounds, xs.length ≤ rounds → createIndex rounds s req = .ok (s', out) := by
  obtain ⟨others, repls, h⟩ := inductive_made.reachable hr
  refine ⟨others ++ repls, h.listed, h.parted.chain.nodup, fun req hfree => ?_⟩
  obtain ⟨s', out, hcreate⟩ := createIndex_ends h hfree
  refine ⟨s', out, ⟨hfree, others.length, out, fun rounds hle => (hcreate rounds hle).1, rfl⟩,
    createIndex_answers (hcreate others.length le_rfl).1, ?_⟩
  intro rounds hle
  rw [List.length_append] at hle
  exact (hcreate rounds (by omega)).1

end

/-- An index on the only column of a table. -/
def oneColumn (onError : OnError) (p : Nat) : Request :=
  ⟨false, ascii "t", [ascii "a"], ascii "i", [ascii "a"], onError, false, 0, some p, false, none⟩

/-- The state after a creation. -/
def after (s : State × List (Nat × Index)) (req : Request) : State × List (Nat × Index) :=
  match createIndex 1 s.1 req with
  | .ok (s', out) => (s', s.2 ++ out.made)
  | .error _ => s

/-- An index with ABORT and one with REPLACE. -/
def twoIndices : State × List (Nat × Index) :=
  after (after (⟨none, fun _ => none⟩, []) (oneColumn .abort 5)) (oneColumn .replace 6)

theorem creations_ordered_two :
    ∃ xs, Listed twoIndices.1 twoIndices.2 xs ∧ xs.Nodup ∧
      ∀ req : Request, (∀ p, req.block = some p → twoIndices.1.index p = none) →
        ∃ s' out, creations.step (twoIndices.1, twoIndices.2) req (s', twoIndices.2 ++ out.made) ∧
          Answers req out ∧ ∀ rounds, xs.length ≤ rounds → createIndex rounds twoIndices.1 req = .ok (s', out) := by
  have hinit : creations.Reachable (⟨none, fun _ => none⟩, []) := LTS.Reachable.init ⟨rfl, rfl⟩
  have hfirst : creations.step (⟨none, fun _ => none⟩, []) (oneColumn .abort 5) (after _ (oneColumn .abort 5)) :=
    ⟨fun _ _ => rfl, 0, .created 5 ⟨ascii "i", [0], .abort, false, 0, none⟩, fun _ _ => rfl, rfl⟩
  have hsecond : creations.step (after (⟨none, fun _ => none⟩, []) (oneColumn .abort 5)) (oneColumn .replace 6)
      twoIndices := by
    refine ⟨?_, 1, .created 6 ⟨ascii "i", [0], .replace, false, 0, none⟩, ?_, rfl⟩
    · intro p hp
      obtain rfl : 6 = p := Option.some.inj hp
      rfl
    · intro rounds hle
      obtain ⟨k, rfl⟩ : ∃ k, rounds = k + 1 := ⟨rounds - 1, by omega⟩
      rfl
  exact creations_ordered ((hinit.step hfirst).step hsecond)

end Dbsql.L5.CreateIndex
