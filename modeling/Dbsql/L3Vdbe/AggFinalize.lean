import Dbsql.L3Vdbe.Aggregate
/-!
# Finalizing user aggregates (vdbe.c:4518-4712, vdbe_method.c:951-998)

`OP_AggFunc` calls `xStep` on a field of the element in focus and marks the field with `MEM_AggCtx`.
`OP_AggNext` calls `xFinalize` on the fields of the element that it comes to and puts the results in
their place, which takes the mark away. A query may stop anywhere, and `__vdbe_agg_reset` calls
`xFinalize` on the fields that have the mark.

`__select` codes a query in this order (cg_select.c:2747-2869): the fields with a function are set up;
the scan brings elements in focus, sets the other fields and calls `xStep`; the loop of `OP_AggNext`
follows, which is left at the jump. What a function does is not fixed: each `xStep` may leave any
context, and `xFinalize` any result, and memory may run out.

Results:
* `exec_kept`: a step of a query keeps its fields in line with the calls that were made.
* `agg_finalized`: wherever a query stops, `xFinalize` is called once after the last `xStep`.
-/
namespace Dbsql.L3.AggFinalize
open Dbsql.Core Dbsql.Core.DList Dbsql.L1 Dbsql.L2.HashTable
open Dbsql.L3.Aggregate

/-! ## Fields and calls -/

/-- Where the context of an aggregate is: nowhere, in the field itself (`zShort`), or in a block. -/
inductive Ctx
  | null
  | short
  | heap (p : Nat)
  deriving DecidableEq

/-- `mem_t` of a field: whether `flags` has `MEM_AggCtx`, the count of steps, and the context. -/
structure Field where
  aggCtx : Bool
  i : CInt
  z : Ctx
  deriving DecidableEq

/-- A field of a new element. -/
def null : Field := ⟨false, 0, .null⟩

/-- A call of a user function: what `ctx.pAgg` and `ctx.cnt` are, and the context that a step leaves. -/
inductive Invoke
  | xStep (pAgg : Ctx) (cnt : CInt) (left : Ctx)
  | xFinalize (pAgg : Ctx) (cnt : CInt)
  deriving DecidableEq

/-- A call on a field of an element. -/
structure Entry where
  elem : Nat
  field : Nat
  call : Invoke
  deriving DecidableEq

/-- `ctx.s` as `xFinalize` leaves it. No result has `MEM_AggCtx`. -/
structure Result where
  i : CInt
  z : Ctx

/-- The call of `xFinalize` on a field that `sel` picks. -/
def finalOf (sel : Nat → Field → Bool) (p : Nat) (aMem : List Field) (i : Nat) : Option Entry :=
  (aMem[i]?.filter (sel i)).map fun c => ⟨p, i, .xFinalize c.z c.i⟩

/-- The calls on the fields of an element, one after the other. -/
def finals (sel : Nat → Field → Bool) (nMem p : Nat) (aMem : List Field) : List Entry :=
  (List.range nMem).filterMap (finalOf sel p aMem)

/-! ## A query -/

inductive Phase
  | scan
  | output
  | ended
  deriving DecidableEq

/-- A query with the calls made so far. -/
structure Query where
  agg : Agg Field
  phase : Phase
  log : List Entry

inductive Op
  | focus (key : Key) (al : AggAlloc)
  | set (i : Nat) (c : Field) (al : AggAlloc)
  | func (i : Nat) (left : Ctx)
  | get (i : Nat) (al : AggAlloc)
  | next (res : Nat → Result)

/-- What an opcode may allocate. -/
def Op.alloc : Op → Option AggAlloc
  | .focus _ al | .set _ _ al | .get _ al => some al
  | .func _ _ | .next _ => none

section
-- `agg.apFunc[i]`: the fields with a function, which has an `xFinalize`
variable (apFunc : Nat → Bool)

/-- What `OP_AggNext` leaves of a field. -/
def finish (res : Nat → Result) (i : Nat) (c : Field) : Field :=
  if apFunc i then ⟨false, (res i).i, (res i).z⟩ else c

/-- An opcode of the query, where the phase allows it and no null pointer is followed. -/
def exec (q : Query) : Op → Option Query
  | .focus key al =>
    if q.phase = .scan then some { q with agg := (opAggFocus null key al q.agg).1 } else none
  | .set i c al =>
    if q.phase = .scan ∧ apFunc i = false ∧ c.aggCtx = false then
      (opAggSet null i c al q.agg).map fun agg => { q with agg }
    else none
  | .func i left =>
    if q.phase = .scan ∧ apFunc i = true then
      q.agg.pCurrent.bind fun p => (q.agg.elems p).bind fun e => e.aMem[i]?.bind fun c =>
        (opAggFunc i (fun c => ⟨true, c.i + 1, left⟩) q.agg).map fun agg =>
          { q with agg, log := q.log ++ [⟨p, i, .xStep c.z (c.i + 1) left⟩] }
    else none
  | .get i al =>
    if q.phase = .output then (opAggGet null i al q.agg).map fun r => { q with agg := r.1 } else none
  | .next res =>
    if q.phase = .ended then none
    else
      let agg := opAggNext (finish apFunc res) q.agg
      match agg.pSearch with
      | none => some { q with agg, phase := .ended }
      | some _ => agg.pCurrent.bind fun p => (q.agg.elems p).map fun e =>
        { agg, phase := .output, log := q.log ++ finals (fun i _ => apFunc i) q.agg.nMem p e.aMem }

/-- The field has a function and the mark. -/
def due (i : Nat) (c : Field) : Bool := apFunc i && c.aggCtx

/-- The loop of `__vdbe_agg_reset` from an element of the hash table on, with at most `rounds` rounds. -/
def resetFrom (s : Agg Field) : Nat → Option Nat → Option (List Entry)
  | 0, _ => none
  | _ + 1, none => some []
  | rounds + 1, some e =>
    (hashData s e).bind fun p => (s.elems p).bind fun elem =>
      (resetFrom s rounds ((s.hash.heap e).bind (·.next))).map
        (finals (due apFunc) s.nMem p elem.aMem ++ ·)

/-- `__vdbe_agg_reset` (vdbe_method.c:963-998) with the calls that it makes. -/
def vdbeAggReset (rounds : Nat) (s : Agg Field) : Option (Agg Field × List Entry) :=
  (resetFrom apFunc s rounds s.hash.first).map fun es => (opAggReset 0 s, es)

/-- A query from `OP_AggReset` on. A block that is allocated is not in use, and the elements can be
counted with an `int`. -/
def queryLts : LTS Query Op where
  init q := ∃ s nMem, s.hash.keyClass = .binary ∧ q = ⟨opAggReset nMem s, .scan, []⟩
  step q op q' := (∀ al, op.alloc = some al → al.Fresh q.agg) ∧ q.agg.hash.count.toNat + 1 < 2 ^ 31 ∧
    exec apFunc q op = some q'

end

/-! ## The calls on a field -/

/-- The calls on field `i` of the element `p`. -/
def callsOf (log : List Entry) (p i : Nat) : List Invoke :=
  (log.filter fun e => e.elem = p ∧ e.field = i).map (·.call)

@[simp] theorem callsOf_nil (p i : Nat) : callsOf [] p i = [] := rfl

@[simp] theorem callsOf_append (log log' : List Entry) (p i : Nat) :
    callsOf (log ++ log') p i = callsOf log p i ++ callsOf log' p i := by
  simp [callsOf]

theorem callsOf_singleton (e : Entry) (p i : Nat) :
    callsOf [e] p i = if e.elem = p ∧ e.field = i then [e.call] else [] := by
  by_cases h : e.elem = p ∧ e.field = i <;> simp [callsOf, h]

section
variable {sel : Nat → Field → Bool} {aMem : List Field} {p q i : Nat}

theorem callsOf_finalOf (n : Nat) : callsOf (finalOf sel q aMem n).toList p i =
    if q = p ∧ n = i then ((finalOf sel q aMem i).map (·.call)).toList else [] := by
  rw [finalOf]
  cases hn : aMem[n]?.filter (sel n) with
  | none =>
    split
    · rename_i h
      rw [finalOf, ← h.2, hn]
      rfl
    · rfl
  | some c =>
    rw [Option.map_some, Option.toList_some, callsOf_singleton]
    split
    · rename_i h
      rw [finalOf, ← h.2, hn]
      rfl
    · rfl

theorem callsOf_finals_range (nMem : Nat) : callsOf (finals sel nMem q aMem) p i =
    if q = p ∧ i < nMem then ((finalOf sel q aMem i).map (·.call)).toList else [] := by
  induction nMem with
  | zero => simp [finals]
  | succ n ih =>
    have hsnoc : finals sel (n + 1) q aMem = finals sel n q aMem ++ (finalOf sel q aMem n).toList := by
      rw [finals, finals, List.range_succ, List.filterMap_append]
      cases h : finalOf sel q aMem n with
      | none => simp [h]
      | some e => simp [h]
    rw [hsnoc, callsOf_append, ih, callsOf_finalOf]
    rcases Nat.lt_trichotomy i n with hlt | heq | hgt
    · have h₁ : i < n + 1 := by omega
      have h₂ : ¬n = i := by omega
      simp [hlt, h₁, h₂]
    · simp [heq]
    · have h₁ : ¬i < n := by omega
      have h₂ : ¬i < n + 1 := by omega
      have h₃ : ¬n = i := by omega
      simp [h₁, h₂, h₃]

theorem callsOf_finals_self {nMem : Nat} {c : Field} (hlen : aMem.length = nMem) (hc : aMem[i]? = some c) :
    callsOf (finals sel nMem p aMem) p i = if sel i c then [.xFinalize c.z c.i] else [] := by
  have hi : i < nMem := hlen ▸ (List.getElem?_eq_some_iff.1 hc).1
  rw [callsOf_finals_range, if_pos ⟨rfl, hi⟩, finalOf, hc]
  cases hdue : sel i c with
  | true => simp [Option.filter, hdue]
  | false => simp [Option.filter, hdue]

theorem callsOf_finals_of_ne {nMem : Nat} (h : q ≠ p ∨ nMem ≤ i) : callsOf (finals sel nMem q aMem) p i = [] := by
  rw [callsOf_finals_range, if_neg]
  intro hq
  rcases h with h | h
  · exact h hq.1
  · omega

end

/-! ## Accounts -/

/-- Steps, each given the context that the one before left and the number of the step, and the
context and the count that they leave. -/
inductive Steps : List Invoke → Ctx → CInt → Prop
  | nil : Steps [] .null 0
  | snoc {calls : List Invoke} {z : Ctx} {n : CInt} (left : Ctx) :
      Steps calls z n → Steps (calls ++ [.xStep z (n + 1) left]) left (n + 1)

/-- The calls on a field: none where it has no function; steps until its element has been visited, and
the finalization after that. -/
inductive Account (visited : Prop) (hasFunc : Bool) (c : Field) : List Invoke → Prop
  | plain : hasFunc = false → c.aggCtx = false → Account visited hasFunc c []
  | opened {steps : List Invoke} : hasFunc = true → ¬visited → Steps steps c.z c.i →
      c.aggCtx = !steps.isEmpty → Account visited hasFunc c steps
  | closed {steps : List Invoke} {z : Ctx} {n : CInt} : hasFunc = true → visited → Steps steps z n →
      c.aggCtx = false → Account visited hasFunc c (steps ++ [.xFinalize z n])

/-- The log is that of the groups. -/
structure Books (apFunc : Nat → Bool) (nMem : Nat) (visited : Nat → Prop) (groups : List (Aggregate.Group Field))
    (log : List Entry) : Prop where
  length : ∀ g ∈ groups, g.cells.length = nMem
  account : ∀ g ∈ groups, ∀ i c, g.cells[i]? = some c →
    Account (visited g.id) (apFunc i) c (callsOf log g.id i)
  other : ∀ p i, (∀ g ∈ groups, g.id = p → nMem ≤ i) → callsOf log p i = []

/-- The invariant of a query. -/
structure Kept (apFunc : Nat → Bool) (q : Query) (a : GroupState Field) : Prop where
  rep : Rep q.agg a
  search : q.phase ≠ .output → q.agg.pSearch = none
  current : q.phase = .output → q.agg.pCurrent ≠ none
  books : Books apFunc q.agg.nMem (fun p => q.phase = .ended ∨ p ∈ a.seen) a.groups q.log

section
variable {apFunc : Nat → Bool} {q q' : Query} {a a' : GroupState Field} {p i : Nat} {c : Field} {key : Key}
  {al : AggAlloc} {nMem : Nat} {visited visited' : Nat → Prop} {groups : List (Aggregate.Group Field)}
  {log : List Entry}

/-- An account does not ask more of `visited` than whether it holds. -/
theorem Account.congr {v v' : Prop} {f : Bool} {calls : List Invoke} (h : Account v f c calls) (hv : v ↔ v') :
    Account v' f c calls := by
  cases h with
  | plain hf hc => exact .plain hf hc
  | opened hf hnot hsteps hc => exact .opened hf (fun hv' => hnot (hv.2 hv')) hsteps hc
  | closed hf hvis hsteps hc => exact .closed hf (hv.1 hvis) hsteps hc

theorem Books.congr (h : Books apFunc nMem visited groups log)
    (hv : ∀ g ∈ groups, (visited g.id ↔ visited' g.id)) : Books apFunc nMem visited' groups log where
  length := h.length
  account := fun g hg i c hc => (h.account g hg i c hc).congr (hv g hg)
  other := h.other

/-- A new group, on which nothing has been called. -/
theorem Books.add (h : Books apFunc nMem visited groups log) (hp : p ∉ groups.map (·.id)) (hv : ¬visited p) :
    Books apFunc nMem visited (⟨key, p, List.replicate nMem null⟩ :: groups) log where
  length := by
    intro g hg
    rcases List.mem_cons.1 hg with rfl | hg
    · exact List.length_replicate
    · exact h.length g hg
  account := by
    intro g hg i c hc
    rcases List.mem_cons.1 hg with rfl | hg
    · obtain rfl := List.eq_of_mem_replicate (List.mem_of_getElem? hc)
      rw [h.other p i fun g hg hid => absurd (hid ▸ List.mem_map_of_mem hg) hp]
      cases hf : apFunc i with
      | false => exact .plain rfl rfl
      | true => exact .opened rfl hv .nil rfl
    · exact h.account g hg i c hc
  other := by
    intro r i hr
    exact h.other r i fun g hg => hr g (List.mem_cons_of_mem _ hg)

/-- Writing to the fields makes no group. -/
theorem write_beyond {f : List Field → List Field} {r : Nat}
    (h : ∀ g ∈ (a.write p f).groups, g.id = r → nMem ≤ i) : ∀ g ∈ a.groups, g.id = r → nMem ≤ i := by
  intro g hg hid
  refine h _ (mem_write.2 ⟨g, hg, rfl⟩) ?_
  split
  · exact hid
  · exact hid

/-- Writing to the fields of a group, with the calls on it. -/
theorem Books.write {es : List Entry} {f : List Field → List Field} (h : Books apFunc nMem visited a.groups log)
    (hp : p ∈ a.groups.map (·.id)) (hlen : ∀ cells, (f cells).length = cells.length)
    (hother : ∀ r i, p ≠ r ∨ nMem ≤ i → callsOf es r i = []) (hvis : ∀ r, r ≠ p → (visited r ↔ visited' r))
    (hself : ∀ g ∈ a.groups, g.id = p → ∀ i c, (f g.cells)[i]? = some c →
      Account (visited' p) (apFunc i) c (callsOf log p i ++ callsOf es p i)) :
    Books apFunc nMem visited' (a.write p f).groups (log ++ es) where
  length := by
    intro g' hg'
    obtain ⟨g, hg, rfl⟩ := mem_write.1 hg'
    split
    · rw [hlen, h.length g hg]
    · exact h.length g hg
  account := by
    intro g' hg' i c hc
    obtain ⟨g, hg, rfl⟩ := mem_write.1 hg'
    rw [callsOf_append]
    by_cases hid : g.id = p
    · rw [if_pos hid] at hc ⊢
      dsimp only at hc ⊢
      rw [hid]
      exact hself g hg hid i c hc
    · rw [if_neg hid] at hc ⊢
      rw [hother g.id i (.inl fun hpg => hid hpg.symm), List.append_nil]
      exact (h.account g hg i c hc).congr (hvis g.id hid)
  other := by
    intro r i hr
    have hr' := write_beyond hr
    have hout : p ≠ r ∨ nMem ≤ i := by
      obtain ⟨g, hg, hid⟩ := List.mem_map.1 hp
      by_cases hpr : p = r
      · exact .inr (hr' g hg (hid.trans hpr))
      · exact .inl hpr
    rw [callsOf_append, h.other r i hr', hother r i hout]
    rfl

/-! ## The steps of a query -/

/-- Before the first visit nothing has been seen. -/
theorem seen_nil (h : Rep q.agg a) (hsearch : q.agg.pSearch = none) : a.seen = [] := by
  obtain ⟨G, M, -, hpos, -⟩ := h.table
  unfold Position at hpos
  rw [hsearch] at hpos
  exact hpos

theorem groups_nil (h : Rep q.agg a) (hfirst : q.agg.hash.first = none) : a.groups = [] := by
  obtain ⟨G, M, hH, -, hmap⟩ := h.table
  have hnodes : nodes G = [] := by
    have hhead := hH.shape.first
    rw [hfirst] at hhead
    exact List.head?_eq_none_iff.1 hhead.symm
  apply List.eq_nil_iff_forall_not_mem.2
  intro g hg
  have hin := (hmap g.key.canon g.id).2 ⟨g, hg, rfl, rfl⟩
  obtain ⟨r, hr, -⟩ := (hH.map _ _).1 hin
  rw [hnodes] at hr
  cases hr

theorem Kept.scan_not_visited (h : Kept apFunc q a) (hphase : q.phase = .scan) (r : Nat) :
    ¬(q.phase = .ended ∨ r ∈ a.seen) := by
  have hseen := seen_nil h.rep (h.search (by simp [hphase]))
  simp [hphase, hseen]

/-- `__agg_insert` of a key that has no element. -/
theorem Kept.insert (h : Kept apFunc q a) (hphase : q.phase = .scan) (hnew : key ∉ a.groups.map (·.key))
    (hfresh : al.Fresh q.agg) (hroom : q.agg.hash.count.toNat + 1 < 2 ^ 31) :
    ∃ a', Kept apFunc { q with agg := aggInsert null key al q.agg } a' := by
  have hsearch := h.search (by simp [hphase])
  have hsearch' : (aggInsert null key al q.agg).pSearch = none := by
    rw [pSearch_aggInsert, hsearch]
  have hscan : q.phase ≠ .output := by
    simp [hphase]
  rcases h.rep.tryInsert null hnew hsearch hfresh hroom with ⟨-, hrep⟩ | ⟨p, hp, -, hrep⟩
  · exact ⟨a, hrep, fun _ => hsearch', fun ho => absurd ho hscan, nMem_aggInsert null key al q.agg ▸ h.books⟩
  · refine ⟨_, hrep, fun _ => hsearch', fun ho => absurd ho hscan, ?_⟩
    dsimp only
    rw [nMem_aggInsert]
    exact h.books.add hp (h.scan_not_visited hphase p)

/-- `OP_AggFocus`. -/
theorem Kept.focus (h : Kept apFunc q a) (hphase : q.phase = .scan) (hfresh : al.Fresh q.agg)
    (hroom : q.agg.hash.count.toNat + 1 < 2 ^ 31) :
    ∃ a', Kept apFunc { q with agg := (opAggFocus null key al q.agg).1 } a' := by
  cases hfind : hashFind noMem q.agg.hash key.ptr key.len with
  | some p =>
    obtain ⟨g, hg, -, rfl⟩ := (h.rep.find key p).1 hfind
    rw [opAggFocus, hfind]
    exact ⟨_, h.rep.known hg, h.search, fun ho => by simp, h.books⟩
  | none =>
    rw [opAggFocus, hfind]
    exact h.insert hphase ((h.rep.find_none key).1 hfind) hfresh hroom

/-- A field without a function is set. -/
theorem Kept.setField (h : Kept apFunc q a) (hf : apFunc i = false) (hc : c.aggCtx = false) (p : Nat) :
    ∃ a', Kept apFunc { q with agg := q.agg.write p (·.set i c) } a' := by
  have hrep : Rep (q.agg.write p (·.set i c)) (a.write p (·.set i c)) := h.rep.write _
  have hbooks := h.books
  refine ⟨a.write p (·.set i c), hrep, h.search, h.current, ?_⟩
  refine ⟨?_, ?_, ?_⟩
  · intro g' hg'
    obtain ⟨g, hg, rfl⟩ := mem_write.1 hg'
    split
    · exact List.length_set.trans (hbooks.length g hg)
    · exact hbooks.length g hg
  · intro g' hg' j d hd
    obtain ⟨g, hg, rfl⟩ := mem_write.1 hg'
    by_cases hid : g.id = p
    · rw [if_pos hid] at hd ⊢
      dsimp only at hd ⊢
      rw [List.getElem?_set] at hd
      split at hd
      · -- a field that has been set has no calls
        rename_i hij
        subst hij
        split at hd
        · rename_i hlt
          obtain rfl := Option.some.inj hd
          obtain ⟨c₀, hc₀⟩ : ∃ c₀, g.cells[i]? = some c₀ := ⟨_, List.getElem?_eq_getElem hlt⟩
          have hacc := hbooks.account g hg i c₀ hc₀
          rw [hf] at hacc ⊢
          generalize callsOf q.log g.id i = calls at hacc ⊢
          cases hacc with
          | plain _ _ => exact .plain rfl hc
          | opened hf' _ _ _ => cases hf'
          | closed hf' _ _ _ => cases hf'
        · cases hd
      · exact hbooks.account g hg j d hd
    · rw [if_neg hid] at hd ⊢
      exact hbooks.account g hg j d hd
  · intro r j hr
    exact hbooks.other r j (write_beyond hr)

/-- `OP_AggSet`. -/
theorem Kept.set (h : Kept apFunc q a) (hphase : q.phase = .scan) (hf : apFunc i = false) (hc : c.aggCtx = false)
    (hfresh : al.Fresh q.agg) (hroom : q.agg.hash.count.toNat + 1 < 2 ^ 31) {agg : Agg Field}
    (hset : opAggSet null i c al q.agg = some agg) : ∃ a', Kept apFunc { q with agg } a' := by
  rw [opAggSet, aggInFocus] at hset
  cases hcur : q.agg.pCurrent with
  | some p =>
    rw [hcur] at hset
    obtain rfl := Option.some.inj hset
    exact h.setField hf hc p
  | none =>
    cases hfirst : q.agg.hash.first with
    | some e =>
      cases hdata : hashData q.agg e with
      | none => simp [hcur, hfirst, hdata] at hset
      | some p =>
        simp only [hcur, hfirst, hdata] at hset
        obtain rfl := Option.some.inj hset
        exact h.setField hf hc p
    | none =>
      -- the element for the empty string
      have hnew : (⟨[0], by decide⟩ : Key) ∉ a.groups.map (·.key) := by
        simp [groups_nil h.rep hfirst]
      obtain ⟨a', h'⟩ := h.insert hphase hnew hfresh hroom
      simp only [hcur, hfirst] at hset
      split at hset
      · cases hset
      · rename_i heq
        obtain ⟨-, rfl⟩ := Prod.mk.inj heq
        obtain rfl := Option.some.inj hset
        exact h'.setField hf hc _

/-- `OP_AggFunc`: one step more. -/
theorem Kept.func (h : Kept apFunc q a) (hphase : q.phase = .scan) (hf : apFunc i = true) {e : AggElem Field}
    (hcur : q.agg.pCurrent = some p) (he : q.agg.elems p = some e) (hc : e.aMem[i]? = some c) (left : Ctx) :
    ∃ a', Kept apFunc { q with
      agg := q.agg.write p (·.modify i fun c => ⟨true, c.i + 1, left⟩)
      log := q.log ++ [⟨p, i, .xStep c.z (c.i + 1) left⟩] } a' := by
  have hmem := h.rep.live p (h.rep.cur ▸ hcur)
  have hlt : i < q.agg.nMem := by
    obtain ⟨g, hg, hid⟩ := List.mem_map.1 hmem
    have hcells := h.rep.elems g hg
    rw [hid, he] at hcells
    obtain rfl := Option.some.inj hcells
    exact h.books.length g hg ▸ (List.getElem?_eq_some_iff.1 hc).1
  refine ⟨a.write p (·.modify i fun c => ⟨true, c.i + 1, left⟩), h.rep.write _, h.search, h.current, ?_⟩
  refine h.books.write hmem (fun _ => List.length_modify ..) ?_ (fun _ _ => Iff.rfl) ?_
  · intro r j hout
    rw [callsOf_singleton, if_neg]
    intro hr
    rcases hout with hpr | hle
    · exact hpr hr.1
    · have hij : i = j := hr.2
      omega
  · intro g hg hid j d hd
    have hcells := h.rep.elems g hg
    rw [hid, he] at hcells
    obtain rfl := Option.some.inj hcells
    rw [callsOf_singleton]
    rw [List.getElem?_modify] at hd
    obtain ⟨d₀, hd₀, hd⟩ := Option.map_eq_some_iff.1 hd
    have hacc := h.books.account g hg j d₀ hd₀
    rw [hid] at hacc
    by_cases hij : i = j
    · subst hij
      obtain rfl : c = d₀ := Option.some.inj (hc.symm.trans hd₀)
      obtain rfl : ⟨true, c.i + 1, left⟩ = d := by simpa using hd
      rw [if_pos ⟨rfl, rfl⟩]
      generalize callsOf q.log p i = calls at hacc ⊢
      cases hacc with
      | plain hf' _ =>
        rw [hf] at hf'
        cases hf'
      | opened _ hnot hsteps _ => exact .opened hf hnot (hsteps.snoc left) (by simp)
      | closed _ hvis _ _ => exact absurd hvis (h.scan_not_visited hphase p)
    · obtain rfl : d₀ = d := by simpa [hij] using hd
      rw [if_neg fun hr => hij hr.2, List.append_nil]
      exact hacc

/-- `OP_AggGet` changes nothing. -/
theorem Kept.get (h : Kept apFunc q a) (hphase : q.phase = .output) {agg : Agg Field} {d : Field}
    (hget : opAggGet null i al q.agg = some (agg, d)) : ∃ a', Kept apFunc { q with agg } a' := by
  obtain ⟨p, hp⟩ := Option.ne_none_iff_exists'.1 (h.current hphase)
  simp only [opAggGet, aggInFocus, hp] at hget
  obtain ⟨e, -, hc⟩ := Option.bind_eq_some_iff.1 hget
  obtain ⟨d', -, heq⟩ := Option.map_eq_some_iff.1 hc
  obtain ⟨rfl, -⟩ := Prod.mk.inj heq
  exact ⟨a, h⟩

/-- What a visit does to a field and the calls on it. -/
theorem Account.visit {f : Bool} {calls : List Invoke} {r : Result} (h : Account False f c calls) :
    Account True f (if f then ⟨false, r.i, r.z⟩ else c) (calls ++ if f then [.xFinalize c.z c.i] else []) := by
  cases h with
  | plain hf hc =>
    subst hf
    exact .plain rfl hc
  | opened hf _ hsteps _ =>
    subst hf
    exact .closed rfl trivial hsteps rfl
  | closed _ hvis _ _ => exact hvis.elim

/-- `OP_AggNext` that visits an element. -/
theorem Kept.visit (h : Kept apFunc q a) (hphase : q.phase ≠ .ended) {g : Aggregate.Group Field} (hg : g ∈ a.groups)
    (hnot : g.id ∉ a.seen) (res : Nat → Result) {es : List Entry}
    (hes : es = finals (fun i _ => apFunc i) q.agg.nMem g.id g.cells) :
    Books apFunc q.agg.nMem (fun r => r ∈ g.id :: a.seen)
      (a.write g.id (·.mapIdx (finish apFunc res))).groups (q.log ++ es) := by
  subst hes
  refine h.books.write (List.mem_map_of_mem hg) (fun _ => List.length_mapIdx) ?_ ?_ ?_
  · intro r j hout
    exact callsOf_finals_of_ne hout
  · intro r hr
    simp [hphase, hr]
  · intro g' hg' hid j d hd
    obtain rfl := h.rep.id_inj hg' hg hid
    rw [List.getElem?_mapIdx] at hd
    obtain ⟨c, hc, rfl⟩ := Option.map_eq_some_iff.1 hd
    have hacc : Account False _ c _ := (h.books.account g' hg' j c hc).congr (by simp [hphase, hnot])
    rw [callsOf_finals_self (h.books.length g' hg') hc]
    exact hacc.visit.congr (by simp)

/-- `OP_AggNext`. -/
theorem Kept.next (h : Kept apFunc q a) {res : Nat → Result} (hexec : exec apFunc q (.next res) = some q') :
    ∃ a', Kept apFunc q' a' := by
  obtain ⟨a', hstep, hrep⟩ := h.rep.next null q.agg.nMem (finish apFunc res)
  have hnMem := nMem_opAggNext (finish apFunc res) q.agg
  simp only [exec] at hexec
  split at hexec
  · cases hexec
  rename_i hphase
  generalize hagg : opAggNext (finish apFunc res) q.agg = agg at hexec hstep hrep hnMem
  generalize hvisit : (agg.pSearch.bind fun _ => agg.pCurrent) = o at hstep
  cases hstep with
  | @visit g hg hnot =>
    obtain ⟨e, hsearch, hcur⟩ := Option.bind_eq_some_iff.1 hvisit
    simp only [hsearch, hcur, Option.bind_some, h.rep.elems g hg, Option.map_some, Option.some.injEq] at hexec
    subst hexec
    refine ⟨_, hrep, by simp, by simp [hcur], ?_⟩
    have hbooks := h.visit hphase hg hnot res rfl
    dsimp only
    rw [hnMem]
    exact hbooks.congr fun r _ => by simp [GroupState.write]
  | done hall =>
    -- the position after a visit would be behind an element that has been seen
    have hnone : agg.pSearch = none := by
      cases hsearch : agg.pSearch with
      | none => rfl
      | some e =>
        obtain ⟨G, M, -, hpos, -⟩ := hrep.table
        unfold Position at hpos
        rw [hsearch] at hpos
        obtain ⟨l₁, l₂, -, hseen⟩ := hpos
        simp at hseen
    simp only [hnone, Option.some.injEq] at hexec
    subst hexec
    refine ⟨_, hrep, fun _ => hnone, by simp, ?_⟩
    dsimp only
    rw [hnMem]
    exact h.books.congr fun g hg => by simp [hall g hg]

/-- **A step of a query keeps its fields in line with the calls.** -/
theorem exec_kept (h : Kept apFunc q a) {op : Op} (hstep : (queryLts apFunc).step q op q') :
    ∃ a', Kept apFunc q' a' := by
  obtain ⟨hfresh, hroom, hexec⟩ := hstep
  cases op with
  | focus key al =>
    simp only [exec] at hexec
    split at hexec
    · obtain rfl := Option.some.inj hexec
      exact h.focus ‹_› (hfresh al rfl) hroom
    · cases hexec
  | set i c al =>
    simp only [exec] at hexec
    split at hexec
    · rename_i hcond
      obtain ⟨hphase, hf, hc⟩ := hcond
      obtain ⟨agg, hset, rfl⟩ := Option.map_eq_some_iff.1 hexec
      exact h.set hphase hf hc (hfresh al rfl) hroom hset
    · cases hexec
  | func i left =>
    simp only [exec] at hexec
    split at hexec
    · rename_i hcond
      obtain ⟨p, hcur, hexec⟩ := Option.bind_eq_some_iff.1 hexec
      obtain ⟨e, he, hexec⟩ := Option.bind_eq_some_iff.1 hexec
      obtain ⟨c, hc, hexec⟩ := Option.bind_eq_some_iff.1 hexec
      rw [opAggFunc, hcur] at hexec
      obtain rfl := Option.some.inj hexec
      exact h.func hcond.1 hcond.2 hcur he hc left
    · cases hexec
  | get i al =>
    simp only [exec] at hexec
    split at hexec
    · obtain ⟨⟨agg, d⟩, hget, rfl⟩ := Option.map_eq_some_iff.1 hexec
      exact h.get ‹_› hget
    · cases hexec
  | next res => exact h.next hexec

theorem kept_init (h : (queryLts apFunc).init q) : Kept apFunc q ⟨[], none, []⟩ := by
  obtain ⟨s, nMem, hcls, rfl⟩ := h
  have hinit : (aggLts null fun _ c => c).init (opAggReset nMem s) := ⟨s, nMem, hcls, rfl⟩
  exact ⟨rep_init hinit, fun _ => rfl, by simp, by simp, by simp, by simp⟩

theorem reachable_kept (hr : (queryLts apFunc).Reachable q) : ∃ a, Kept apFunc q a := by
  have hinv : (queryLts apFunc).Inductive fun q => ∃ a, Kept apFunc q a :=
    ⟨fun _ hinit => ⟨_, kept_init hinit⟩, fun _ _ _ hkept hstep => hkept.elim fun _ h => exec_kept h hstep⟩
  exact hinv.reachable hr

/-! ## The reset -/

/-- The elements of the hash table are those of groups. -/
theorem walk_groups {s : Agg Field} {es : List Nat} (h : ∀ e ∈ es, ∃ g ∈ a.groups, hashData s e = some g.id) :
    ∃ gs : List (Aggregate.Group Field), es.map (hashData s) = gs.map (fun g => some g.id) ∧ ∀ g ∈ gs, g ∈ a.groups := by
  induction es with
  | nil => exact ⟨[], rfl, by simp⟩
  | cons e es ih =>
    obtain ⟨g, hg, hdata⟩ := h e (List.mem_cons_self ..)
    obtain ⟨gs, hmap, hgs⟩ := ih fun e he => h e (List.mem_cons_of_mem _ he)
    refine ⟨g :: gs, by simp [hdata, hmap], ?_⟩
    intro g' hg'
    rcases List.mem_cons.1 hg' with rfl | hg'
    · exact hg
    · exact hgs g' hg'

/-- **The loop of the reset** goes over the elements and makes the calls that are due. -/
theorem resetFrom_eq {s : Agg Field} (hrep : Rep s a) {es : List Nat} {gs : List (Aggregate.Group Field)}
    {prev : Option Nat} (hseg : Seg s.hash.heap prev es none) (hmap : es.map (hashData s) = gs.map fun g => some g.id)
    (hgs : ∀ g ∈ gs, g ∈ a.groups) {rounds : Nat} (hrounds : es.length < rounds) :
    resetFrom apFunc s rounds es.head? =
      some (gs.flatMap fun g => finals (due apFunc) s.nMem g.id g.cells) := by
  induction es generalizing gs prev rounds with
  | nil =>
    obtain rfl : gs = [] := by simpa using hmap
    obtain ⟨rounds, rfl⟩ : ∃ k, rounds = k + 1 := ⟨rounds - 1, by simp at hrounds; omega⟩
    rfl
  | cons e es ih =>
    obtain ⟨rounds, rfl⟩ : ∃ k, rounds = k + 1 := ⟨rounds - 1, by omega⟩
    cases gs with
    | nil => simp at hmap
    | cons g gs =>
      obtain ⟨hdata, hmap⟩ : hashData s e = some g.id ∧ es.map (hashData s) = gs.map fun g => some g.id := by
        simpa using hmap
      obtain ⟨n, hn, -, hnext, hseg⟩ := hseg
      rw [Option.or_none] at hnext
      have hrest := ih hseg hmap (fun g hg => hgs g (List.mem_cons_of_mem _ hg)) (Nat.lt_of_succ_lt_succ hrounds)
      rw [List.head?_cons, resetFrom, hdata, Option.bind_some, hrep.elems g (hgs g (List.mem_cons_self ..)),
        Option.bind_some, hn, Option.bind_some, hnext, hrest, Option.map_some, List.flatMap_cons]

theorem callsOf_flatMap_of_not_mem {gs : List (Aggregate.Group Field)} (h : p ∉ gs.map (·.id)) :
    callsOf (gs.flatMap fun g => finals (due apFunc) nMem g.id g.cells) p i = [] := by
  induction gs with
  | nil => rfl
  | cons g gs ih =>
    rw [List.map_cons, List.mem_cons, not_or] at h
    rw [List.flatMap_cons, callsOf_append, ih h.2, callsOf_finals_of_ne (.inl fun hid => h.1 hid.symm)]
    rfl

/-- The calls of the reset on the fields of a group. -/
theorem callsOf_flatMap {gs : List (Aggregate.Group Field)} (hids : (gs.map (·.id)).Nodup) {g : Aggregate.Group Field}
    (hg : g ∈ gs) : callsOf (gs.flatMap fun g => finals (due apFunc) nMem g.id g.cells) g.id i =
      callsOf (finals (due apFunc) nMem g.id g.cells) g.id i := by
  induction gs with
  | nil => cases hg
  | cons g' gs ih =>
    rw [List.map_cons, List.nodup_cons] at hids
    rw [List.flatMap_cons, callsOf_append]
    rcases List.mem_cons.1 hg with rfl | hg
    · have hrest : callsOf (gs.flatMap fun g => finals (due apFunc) nMem g.id g.cells) g.id i = [] :=
        callsOf_flatMap_of_not_mem hids.1
      rw [hrest, List.append_nil]
    · have hne : g'.id ≠ g.id := fun hid => hids.1 (hid ▸ List.mem_map_of_mem hg)
      rw [callsOf_finals_of_ne (.inl hne), List.nil_append, ih hids.2 hg]

/-- The calls on a field once the reset has made those that are due. -/
theorem Account.settle {v : Prop} {calls : List Invoke} (h : Account v (apFunc i) c calls) :
    let all := calls ++ if due apFunc i c then [.xFinalize c.z c.i] else []
    all = [] ∨ ∃ steps z n, Steps steps z n ∧ all = steps ++ [.xFinalize z n] := by
  cases h with
  | plain hf hc => simp [due, hf]
  | opened hf _ hsteps hc =>
    cases calls with
    | nil => simp [due, hc]
    | cons call calls => exact .inr ⟨_, _, _, hsteps, by simp [due, hf, hc]⟩
  | closed _ _ hsteps hc => exact .inr ⟨_, _, _, hsteps, by simp [due, hc]⟩

/-- **Wherever a query stops,** once the aggregator has been reset `xFinalize` has been called once on
each field that `xStep` has been called on, with the context and the count that the last step left, and
no step came after it. -/
theorem agg_finalized (hr : (queryLts apFunc).Reachable q) :
    ∃ n es, (∀ rounds, n < rounds → vdbeAggReset apFunc rounds q.agg = some (opAggReset 0 q.agg, es)) ∧
      ∀ p i pAgg cnt left, .xStep pAgg cnt left ∈ callsOf (q.log ++ es) p i →
        ∃ steps z k, Steps steps z k ∧ callsOf (q.log ++ es) p i = steps ++ [.xFinalize z k] := by
  obtain ⟨a, h⟩ := reachable_kept hr
  obtain ⟨G, M, hH, -, hmap⟩ := h.rep.table
  obtain ⟨hnodup, hwalk⟩ := h.rep.walk hH hmap
  have hgroup : ∀ e ∈ nodes G, ∃ g ∈ a.groups, hashData q.agg e = some g.id := by
    intro e he
    obtain ⟨n, hn⟩ := hH.shape.seg.live e he
    have hdata : hashData q.agg e = some n.val.data := by
      rw [hashData, hn, Option.map_some]
    obtain ⟨g, hg, hid⟩ := (hwalk n.val.data).1 (hdata ▸ List.mem_map_of_mem he)
    exact ⟨g, hg, hid ▸ hdata⟩
  obtain ⟨gs, hgs, hsub⟩ := walk_groups hgroup
  have hids : (gs.map (·.id)).Nodup := by
    have hsome : gs.map (fun g => some g.id) = (gs.map (·.id)).map some := by
      simp
    rw [hgs, hsome] at hnodup
    exact hnodup.of_map
  refine ⟨(nodes G).length, gs.flatMap fun g => finals (due apFunc) q.agg.nMem g.id g.cells, ?_, ?_⟩
  · intro rounds hrounds
    rw [vdbeAggReset, hH.shape.first, resetFrom_eq h.rep hH.shape.seg hgs hsub hrounds, Option.map_some]
  · intro p i pAgg cnt left hstep
    rw [callsOf_append] at hstep ⊢
    by_cases hcell : ∃ g ∈ gs, g.id = p ∧ i < q.agg.nMem
    · obtain ⟨g, hg, rfl, hi⟩ := hcell
      have hlen := h.books.length g (hsub g hg)
      obtain ⟨c, hc⟩ : ∃ c, g.cells[i]? = some c := ⟨_, List.getElem?_eq_getElem (hlen ▸ hi)⟩
      have hacc := h.books.account g (hsub g hg) i c hc
      rw [callsOf_flatMap hids hg, callsOf_finals_self hlen hc] at hstep ⊢
      rcases hacc.settle with hnil | hsome
      · rw [hnil] at hstep
        cases hstep
      · exact hsome
    · -- there is no such field
      have hreset : callsOf (gs.flatMap fun g => finals (due apFunc) q.agg.nMem g.id g.cells) p i = [] := by
        by_cases hp : p ∈ gs.map (·.id)
        · obtain ⟨g, hg, rfl⟩ := List.mem_map.1 hp
          rw [callsOf_flatMap hids hg, callsOf_finals_of_ne]
          exact .inr (Nat.le_of_not_lt fun hi => hcell ⟨g, hg, rfl, hi⟩)
        · exact callsOf_flatMap_of_not_mem hp
      have hlog : callsOf q.log p i = [] := by
        apply h.books.other
        rintro g hg rfl
        refine Nat.le_of_not_lt fun hi => ?_
        have hin : some g.id ∈ (nodes G).map (hashData q.agg) := (hwalk g.id).2 ⟨g, hg, rfl⟩
        rw [hgs] at hin
        obtain ⟨g', hg', hid⟩ := List.mem_map.1 hin
        exact hcell ⟨g', hg', Option.some.inj hid, hi⟩
      rw [hreset, hlog] at hstep
      cases hstep

end

/-- A query with one field, which has a function, after `OP_AggReset`. -/
def oneField : Query := ⟨opAggReset 1 ⟨0, none, none, hashInit .binary false, fun _ => none⟩, .scan, []⟩

/-- A row comes in focus. -/
def oneRow : Query := { oneField with agg := (opAggFocus null keyA (roomAt 0) oneField.agg).1 }

/-- Its step leaves the context in a block. -/
def oneStep : Query :=
  { oneRow with
    agg := oneRow.agg.write 0 (·.modify 0 fun c => ⟨true, c.i + 1, .heap 9⟩)
    log := [⟨0, 0, .xStep .null 1 (.heap 9)⟩] }

/-- The query stops before the first `OP_AggNext`. -/
theorem agg_finalized_one :
    ∃ n es, (∀ rounds, n < rounds → vdbeAggReset (fun _ => true) rounds oneStep.agg =
        some (opAggReset 0 oneStep.agg, es)) ∧
      ∀ p i pAgg cnt left, .xStep pAgg cnt left ∈ callsOf (oneStep.log ++ es) p i →
        ∃ steps z k, Steps steps z k ∧ callsOf (oneStep.log ++ es) p i = steps ++ [.xFinalize z k] := by
  have hinit : (queryLts fun _ => true).Reachable oneField := LTS.Reachable.init ⟨_, 1, rfl, rfl⟩
  have hrow : (queryLts fun _ => true).step oneField (.focus keyA (roomAt 0)) oneRow :=
    ⟨fun _ _ => ⟨fun _ _ => rfl, fun _ _ => rfl⟩, by decide, rfl⟩
  have hstep : (queryLts fun _ => true).step oneRow (.func 0 (.heap 9)) oneStep :=
    ⟨nofun, by decide, rfl⟩
  exact agg_finalized ((hinit.step hrow).step hstep)

end Dbsql.L3.AggFinalize
