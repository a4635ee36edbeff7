import Dbsql.Core.Chain
import Dbsql.Core.Lts
/-!
# User functions by name and number of arguments (cg_expr.c:1914-1978, api.c:970-1008)

The functions of one name are on a list, the last one that was made first. `__api_create_function` looks
for the one with its number of arguments and makes it where there is none; without callbacks it leaves
a blank. A blank stays on the list, and `__find_function` returns nothing where it comes to the blank
for the number of arguments, although a function for any number of arguments may be on the list as well.

With a negative number `__find_function` takes the first function that is no blank, whatever its number
of arguments, as its comment says.

A call that runs out of memory registers nothing. Where it is the hash table that has no memory for the
name, the call returns all the same that all is well.

Results:
* `createFunction_kept`: a call keeps the list in line with what has been registered.
* `findFunction_iff`: when the function found is the one that is expected.
-/
namespace Dbsql.L5.FindFunction
open Dbsql.Core

/-! ## Functions -/

/-- What a function is registered with; the callbacks are pointers. -/
structure Def where
  xFunc : Option Nat
  xStep : Option Nat
  xFinalize : Option Nat
  pUserData : Nat
  deriving DecidableEq

/-- `func_def_t`. -/
structure FuncDef extends Def where
  nArg : Int
  dataType : Int
  pNext : Option Nat

/-- `xFunc` or `xStep` is not null. -/
def Def.valid (d : Def) : Bool := d.xFunc.isSome || d.xStep.isSome

/-- The functions in memory, and what the hash table has under the name. -/
structure Fns where
  heap : Nat → Option FuncDef
  first : Option Nat

/-- What an allocation of a function comes to: its block, and whether the hash table has memory for a
name that it does not know yet. -/
structure FnAlloc where
  block : Option Nat
  entry : Bool

/-- `DBSQL_NUMERIC`. -/
def numeric : Int := -1

/-! ## `__find_function` -/

/-- The first loop, for a negative `nargs`, with at most `rounds` rounds. -/
def firstValid (s : Fns) : Nat → Option Nat → Option (Option Nat)
  | 0, _ => none
  | _ + 1, none => some none
  | rounds + 1, some p => (s.heap p).bind fun d =>
    if d.valid then some (some p) else firstValid s rounds d.pNext

/-- The second loop: `p` and `maybe` at its end. -/
def search (s : Fns) (nargs : Int) (create : Bool) : Nat → Option Nat → Option Nat → Option (Option Nat × Option Nat)
  | 0, _, _ => none
  | _ + 1, none, maybe => some (none, maybe)
  | rounds + 1, some p, maybe => (s.heap p).bind fun d =>
    if d.nArg ≠ nargs then
      search s nargs create rounds d.pNext (if d.nArg < 0 && !create && d.valid then some p else maybe)
    else some (some p, maybe)

/-- A new function, a blank. -/
def Fns.enter (s : Fns) (nargs : Int) (al : FnAlloc) (p : Nat) : Fns where
  heap := Function.update s.heap p
    (some ⟨⟨none, none, none, 0⟩, nargs, ((s.first.bind s.heap).map (·.dataType)).getD numeric, s.first⟩)
  -- the hash table needs no memory for a name that it has
  first := if s.first.isSome || al.entry then some p else s.first

/-- `__find_function` (cg_expr.c:1938-1978). -/
def findFunction (rounds : Nat) (s : Fns) (nargs : Int) (create : Bool) (al : FnAlloc) :
    Option (Fns × Option Nat) :=
  if s.first.isSome && !create && decide (nargs < 0) then (firstValid s rounds s.first).map fun p => (s, p)
  else
    (search s nargs create rounds s.first none).bind fun r =>
      match r with
      | (some p, _) => (s.heap p).map fun d => (s, if !create && !d.valid then none else some p)
      | (none, some maybe) => some (s, some maybe)
      | (none, none) =>
        match if create then al.block else none with
        | some p => some (s.enter nargs al p, some p)
        | none => some (s, none)

/-! ## `__api_create_function` -/

/-- The arguments of a call. -/
structure Request extends Def where
  /-- there is a connection, and `__safety_check` lets it pass -/
  safe : Bool
  /-- there is a name, of 255 bytes at most -/
  named : Bool
  nArg : Int

/-- The arguments are refused. -/
def Request.misuse (r : Request) : Bool :=
  !r.safe || (!r.named ||
    (r.xFunc.isSome && (r.xFinalize.isSome || r.xStep.isSome)) ||
    (r.xFunc.isNone && (r.xFinalize.isSome && r.xStep.isNone)) ||
    (r.xFunc.isNone && (r.xFinalize.isNone && r.xStep.isSome)) ||
    (r.nArg < -1 || 127 < r.nArg))

/-- `__api_create_function` (api.c:970-1008), and whether it returns `DBSQL_SUCCESS`. -/
def createFunction (rounds : Nat) (s : Fns) (r : Request) (al : FnAlloc) : Option (Fns × Bool) :=
  if r.misuse then some (s, false)
  else
    (findFunction rounds s r.nArg true al).bind fun found =>
      match found with
      | (s, none) => some (s, false)
      | (s, some p) => (s.heap p).map fun d =>
        ({ s with heap := Function.update s.heap p (some { d with toDef := r.toDef }) }, true)

/-! ## What has been registered -/

/-- The registrations, the last one first. -/
abbrev History : Type := List (Int × Def)

/-- The last registration for a number of arguments. -/
def registered (hist : History) (n : Int) : Option Def := (hist.find? fun e => e.1 = n).map (·.2)

/-- The definition for a number of arguments, unless it has been removed. -/
def live (hist : History) (n : Int) : Option Def := (registered hist n).filter (·.valid)

/-- The definition for a number of arguments has been removed, or was never there when it was. -/
def removed (hist : History) (n : Int) : Bool := (registered hist n).any fun d => !d.valid

/-- The numbers of arguments that came up, the one that came up last first. -/
def order : History → List Int
  | [] => []
  | (n, _) :: hist => if n ∈ order hist then order hist else n :: order hist

/-- The function that should be found: the one for `n` arguments, or else the one for any number. -/
def expected (hist : History) (n : Int) : Option (Int × Def) :=
  ((live hist n).map fun d => (n, d)).or ((live hist (-1)).map fun d => (-1, d))

/-- The calls on one name. A block that is allocated is not in use, and a call that runs out of memory
registers nothing. -/
def calls : LTS (Fns × History) (Request × FnAlloc) where
  init s := s.1.first = none ∧ s.2 = []
  step s l s' := (∀ p, l.2.block = some p → s.1.heap p = none) ∧
    ∃ k ok, (∀ rounds, k ≤ rounds → createFunction rounds s.1 l.1 l.2 = some (s'.1, ok)) ∧
      s'.2 = if ok && (s.1.first.isSome || l.2.entry) then (l.1.nArg, l.1.toDef) :: s.2 else s.2

/-- `__find_function` without `create` ends with the function that is expected. -/
def Finds (s : Fns) (hist : History) (n : Int) : Prop :=
  ∃ k p, (∀ rounds, k ≤ rounds → findFunction rounds s n false ⟨none, false⟩ = some (s, p)) ∧
    (p.bind s.heap).map (fun d => (d.nArg, d.toDef)) = expected hist n

/-- There is no blank in the way of a function for any number of arguments. With a negative number, the
first function that is left is for any number. -/
def Unhidden (hist : History) (n : Int) : Prop :=
  if n < 0 then ∀ m, (order hist).find? (fun m => (live hist m).isSome) = some m → m = -1
  else ¬(removed hist n = true ∧ (live hist (-1)).isSome = true)

/-! ## The list -/

/-- The link of each function. -/
def Fns.next (s : Fns) (p : Nat) : Option (Option Nat) := (s.heap p).map (·.pNext)

def Fns.arity (s : Fns) (p : Nat) : Option Int := (s.heap p).map (·.nArg)

def Fns.validAt (s : Fns) (p : Nat) : Bool := (s.heap p).any (·.valid)

/-- The list has the registrations. -/
structure Kept (s : Fns) (hist : History) (ps : List Nat) : Prop where
  chain : Chain s.next s.first ps
  arities : ps.map s.arity = (order hist).map some
  defs : ∀ p ∈ ps, ∀ d, s.heap p = some d → registered hist d.nArg = some d.toDef
  bounds : ∀ n ∈ order hist, -1 ≤ n

section
variable {hist : History} {n m : Int} {d : Def}

theorem mem_order : n ∈ order hist ↔ registered hist n ≠ none := by
  induction hist with
  | nil => simp [order, registered]
  | cons e hist ih =>
    obtain ⟨m, d⟩ := e
    by_cases hm : m = n
    · subst hm
      by_cases hin : m ∈ order hist <;> simp [order, hin, registered]
    · have hreg : registered ((m, d) :: hist) n = registered hist n := by
        simp [registered, hm]
      rw [hreg, ← ih, order]
      split
      · rfl
      · simp [Ne.symm hm]

theorem order_nodup (hist : History) : (order hist).Nodup := by
  induction hist with
  | nil => exact List.nodup_nil
  | cons e hist ih =>
    rw [order]
    split
    · exact ih
    · exact List.nodup_cons.2 ⟨‹_›, ih⟩

theorem registered_cons_self : registered ((n, d) :: hist) n = some d := by
  simp [registered]

theorem registered_cons_of_ne (h : m ≠ n) : registered ((m, d) :: hist) n = registered hist n := by
  simp [registered, h]

end

section
variable {s : Fns} {hist : History} {ps : List Nat} {p : Nat} {d : FuncDef} {n : Int}

theorem heap_of_next {r : Option Nat} (h : s.next p = some r) : ∃ d, s.heap p = some d ∧ d.pNext = r :=
  Option.map_eq_some_iff.1 h

theorem arity_some (h : s.heap p = some d) : s.arity p = some d.nArg := by
  rw [Fns.arity, h, Option.map_some]

theorem validAt_some (h : s.heap p = some d) : s.validAt p = d.valid := by
  rw [Fns.validAt, h, Option.any_some]

/-- No two functions on the list have the same number of arguments. -/
theorem Kept.arity_inj (h : Kept s hist ps) {q : Nat} (hp : p ∈ ps) (hq : q ∈ ps) (heq : s.arity p = s.arity q) :
    p = q := by
  have hnodup : (ps.map s.arity).Nodup := by
    rw [h.arities]
    exact (order_nodup hist).map fun _ _ => Option.some.inj
  exact List.inj_on_of_nodup_map hnodup hp hq heq

theorem Kept.heap (h : Kept s hist ps) (hp : p ∈ ps) : ∃ d, s.heap p = some d := by
  obtain ⟨r, hr⟩ := h.chain.live p hp
  obtain ⟨d, hd, -⟩ := heap_of_next hr
  exact ⟨d, hd⟩

/-- A number of arguments that came up has its function on the list. -/
theorem Kept.find (h : Kept s hist ps) (hn : n ∈ order hist) : ∃ p ∈ ps, s.arity p = some n := by
  have hmem : some n ∈ ps.map s.arity := by
    rw [h.arities]
    exact List.mem_map_of_mem hn
  exact List.mem_map.1 hmem

theorem Kept.arity_mem (h : Kept s hist ps) (hp : p ∈ ps) (hd : s.heap p = some d) : d.nArg ∈ order hist := by
  have hmem : some d.nArg ∈ (order hist).map some := by
    rw [← h.arities, ← arity_some hd]
    exact List.mem_map_of_mem hp
  simpa using hmem

/-! ## The loops -/

theorem firstValid_eq {first : Option Nat} (hchain : Chain s.next first ps) {rounds : Nat} (hr : ps.length < rounds) :
    firstValid s rounds first = some (ps.find? s.validAt) := by
  induction ps generalizing first rounds with
  | nil =>
    obtain ⟨rounds, rfl⟩ : ∃ k, rounds = k + 1 := ⟨rounds - 1, by simp at hr; omega⟩
    obtain rfl : first = none := hchain
    rfl
  | cons p ps ih =>
    obtain ⟨rounds, rfl⟩ : ∃ k, rounds = k + 1 := ⟨rounds - 1, by omega⟩
    obtain ⟨rfl, r, hnext, hrest⟩ := hchain
    obtain ⟨d, hd, rfl⟩ := heap_of_next hnext
    rw [firstValid, hd, Option.bind_some, List.find?_cons, validAt_some hd]
    cases hv : d.valid with
    | true => rfl
    | false => exact ih hrest (Nat.lt_of_succ_lt_succ hr)

/-- A function for any number of arguments. -/
def Fns.anyAt (s : Fns) (p : Nat) : Bool := (s.heap p).any fun d => d.nArg < 0 && d.valid

theorem anyAt_some (h : s.heap p = some d) : s.anyAt p = (decide (d.nArg < 0) && d.valid) := by
  rw [Fns.anyAt, h, Option.any_some]

/-- **The second loop** stops at the function for `n` arguments, or else goes over the whole list and has
come by the function for any number. -/
theorem search_eq {first : Option Nat} (hchain : Chain s.next first ps) (create : Bool) (maybe : Option Nat)
    (hone : ps.Pairwise fun p q => s.anyAt p = true → s.anyAt q = false) :
    ∃ maybe', (∀ rounds, ps.length < rounds → search s n create rounds first maybe =
        some (ps.find? fun p => s.arity p = some n, maybe')) ∧
      ((ps.find? fun p => s.arity p = some n) = none →
        maybe' = (if create then none else ps.find? s.anyAt).or maybe) := by
  induction ps generalizing first maybe with
  | nil =>
    obtain rfl : first = none := hchain
    refine ⟨maybe, fun rounds hr => ?_, fun _ => by simp⟩
    obtain ⟨rounds, rfl⟩ : ∃ k, rounds = k + 1 := ⟨rounds - 1, by simp at hr; omega⟩
    rfl
  | cons p ps ih =>
    obtain ⟨rfl, r, hnext, hrest⟩ := hchain
    obtain ⟨d, hd, rfl⟩ := heap_of_next hnext
    obtain ⟨hp, hone⟩ := List.pairwise_cons.1 hone
    by_cases hn : d.nArg = n
    · refine ⟨maybe, fun rounds hr => ?_, fun hnone => ?_⟩
      · obtain ⟨rounds, rfl⟩ : ∃ k, rounds = k + 1 := ⟨rounds - 1, by omega⟩
        simp [search, hd, hn, arity_some hd]
      · simp [arity_some hd, hn] at hnone
    · obtain ⟨maybe', hsearch, hmaybe⟩ := ih hrest (if d.nArg < 0 && !create && d.valid then some p else maybe)
        hone
      have hskip : (List.find? (fun p => decide (s.arity p = some n)) (p :: ps)) =
          ps.find? fun p => s.arity p = some n := by
        simp [arity_some hd, hn]
      refine ⟨maybe', fun rounds hr => ?_, fun hnone => ?_⟩
      · obtain ⟨rounds, rfl⟩ : ∃ k, rounds = k + 1 := ⟨rounds - 1, by omega⟩
        rw [search, hd, Option.bind_some, if_pos hn, hsearch rounds (Nat.lt_of_succ_lt_succ hr), hskip]
      · rw [hmaybe (hskip ▸ hnone), List.find?_cons, anyAt_some hd]
        cases create with
        | true => simp
        | false =>
          cases hany : decide (d.nArg < 0) && d.valid with
          | false => simp [hany]
          | true =>
            -- the function for any number is the only one
            have hnone : ps.find? s.anyAt = none := by
              apply List.find?_eq_none.2
              intro q hq
              simp [hp q hq (by rw [anyAt_some hd, hany])]
            simp [hnone, hany]

/-! ## A call -/

/-- Only one function on the list is for any number of arguments. -/
theorem Kept.one (h : Kept s hist ps) : ps.Pairwise fun p q => s.anyAt p = true → s.anyAt q = false := by
  have hneg : ∀ p ∈ ps, s.anyAt p = true → s.arity p = some (-1) := by
    intro p hp hany
    obtain ⟨d, hd⟩ := h.heap hp
    rw [anyAt_some hd, Bool.and_eq_true, decide_eq_true_eq] at hany
    have hbound := h.bounds _ (h.arity_mem hp hd)
    rw [arity_some hd, show d.nArg = -1 by omega]
  refine h.chain.nodup.imp_of_mem fun {p q} hp hq hne hany => ?_
  cases hq' : s.anyAt q with
  | false => rfl
  | true => exact absurd (h.arity_inj hp hq ((hneg p hp hany).trans (hneg q hq hq').symm)) hne

/-- A new function is in front of the list. -/
theorem Kept.enter (h : Kept s hist ps) {al : FnAlloc} (hp : s.heap p = none) (hn : n ∉ order hist) (hbound : -1 ≤ n)
    (hentry : (s.first.isSome || al.entry) = true) (d : Def) {s' : Fns} (hfirst : s'.first = (s.enter n al p).first)
    (hheap : s'.heap = Function.update (s.enter n al p).heap p
      (((s.enter n al p).heap p).map fun fd => { fd with toDef := d })) :
    Kept s' ((n, d) :: hist) (p :: ps) := by
  have hout : p ∉ ps := by
    intro hmem
    obtain ⟨d, hd⟩ := h.heap hmem
    rw [hp] at hd
    cases hd
  have hself : ∃ fd : FuncDef, s'.heap p = some fd ∧ fd.nArg = n ∧ fd.toDef = d ∧ fd.pNext = s.first := by
    rw [hheap, Function.update_self, Fns.enter]
    dsimp only
    rw [Function.update_self]
    exact ⟨_, rfl, rfl, rfl, rfl⟩
  have hsame : ∀ q ∈ ps, s'.heap q = s.heap q := by
    intro q hq
    have hqp : q ≠ p := fun hqp => hout (hqp ▸ hq)
    rw [hheap, Function.update_of_ne hqp]
    exact Function.update_of_ne hqp _ _
  obtain ⟨fd, hfd, hnArg, hdef, hnext⟩ := hself
  refine ⟨⟨?_, s.first, ?_, ?_⟩, ?_, ?_, ?_⟩
  · rw [hfirst, Fns.enter]
    exact if_pos hentry
  · rw [Fns.next, hfd, Option.map_some, hnext]
  · exact h.chain.congr fun q hq => congrArg _ (hsame q hq)
  · have hrest : ps.map s'.arity = ps.map s.arity :=
      List.map_congr_left fun q hq => congrArg _ (hsame q hq)
    rw [List.map_cons, hrest, arity_some hfd, hnArg, h.arities, order, if_neg hn]
    rfl
  · intro q hq e he
    rcases List.mem_cons.1 hq with rfl | hq
    · obtain rfl := Option.some.inj (hfd.symm.trans he)
      rw [hnArg, hdef, registered_cons_self]
    · rw [hsame q hq] at he
      have hne : n ≠ e.nArg := fun heq => hn (heq ▸ h.arity_mem hq he)
      rw [registered_cons_of_ne hne]
      exact h.defs q hq e he
  · intro m hm
    rw [order, if_neg hn] at hm
    rcases List.mem_cons.1 hm with rfl | hm
    · exact hbound
    · exact h.bounds m hm

/-- A function on the list gets other callbacks. -/
theorem Kept.redefine (h : Kept s hist ps) (hp : p ∈ ps) (hd : s.heap p = some d) (e : Def) :
    Kept { s with heap := Function.update s.heap p (some { d with toDef := e }) } ((d.nArg, e) :: hist) ps := by
  have hin := h.arity_mem hp hd
  have hother : ∀ q, q ≠ p → Function.update s.heap p (some { d with toDef := e }) q = s.heap q :=
    fun q hq => Function.update_of_ne hq _ _
  have hnext : ∀ q, Fns.next { s with heap := Function.update s.heap p (some { d with toDef := e }) } q = s.next q := by
    intro q
    by_cases hq : q = p
    · subst hq
      simp [Fns.next, hd]
    · exact congrArg _ (hother q hq)
  have harity : ∀ q, Fns.arity { s with heap := Function.update s.heap p (some { d with toDef := e }) } q =
      s.arity q := by
    intro q
    by_cases hq : q = p
    · subst hq
      simp [Fns.arity, hd]
    · exact congrArg _ (hother q hq)
  refine ⟨h.chain.congr fun q _ => hnext q, ?_, ?_, ?_⟩
  · rw [List.map_congr_left fun q _ => harity q, h.arities, order, if_pos hin]
  · intro q hq fd hfd
    by_cases hqp : q = p
    · subst hqp
      obtain rfl : { d with toDef := e } = fd := by simpa using hfd
      exact registered_cons_self
    · have hfd' : s.heap q = some fd := (hother q hqp).symm.trans hfd
      have hne : d.nArg ≠ fd.nArg := by
        intro heq
        exact hqp (h.arity_inj hq hp (by rw [arity_some hfd', arity_some hd, heq]))
      rw [registered_cons_of_ne hne]
      exact h.defs q hq fd hfd'
  · intro m hm
    rw [order, if_pos hin] at hm
    exact h.bounds m hm

/-- **A call keeps the list in line with what has been registered.** -/
theorem createFunction_kept (h : Kept s hist ps) (r : Request) {al : FnAlloc}
    (hfree : ∀ p, al.block = some p → s.heap p = none) :
    ∃ s' ok, (∀ rounds, ps.length < rounds → createFunction rounds s r al = some (s', ok)) ∧
      ∃ ps', Kept s' (if ok && (s.first.isSome || al.entry) then (r.nArg, r.toDef) :: hist else hist) ps' := by
  cases hmisuse : r.misuse with
  | true => exact ⟨s, false, fun rounds _ => by simp [createFunction, hmisuse], ps, h⟩
  | false =>
    have hbound : -1 ≤ r.nArg := by
      simp only [Request.misuse, Bool.or_eq_false_iff, decide_eq_false_iff_not] at hmisuse
      omega
    obtain ⟨maybe, hsearch, hmaybe⟩ := search_eq (n := r.nArg) h.chain true none h.one
    have hfind : ∀ rounds, ps.length < rounds → findFunction rounds s r.nArg true al =
        match ps.find? (fun p => s.arity p = some r.nArg) with
        | some p => some (s, some p)
        | none => match al.block with
          | some p => some (s.enter r.nArg al p, some p)
          | none => some (s, none) := by
      intro rounds hr
      rw [findFunction, if_neg (by simp), hsearch rounds hr, Option.bind_some]
      cases hf : ps.find? (fun p => s.arity p = some r.nArg) with
      | some p =>
        obtain ⟨d, hd⟩ := h.heap (List.mem_of_find?_eq_some hf)
        simp [hd]
      | none =>
        obtain rfl : maybe = none := by simpa using hmaybe hf
        rfl
    cases hf : ps.find? (fun p => s.arity p = some r.nArg) with
    | some p =>
      have hp := List.mem_of_find?_eq_some hf
      obtain ⟨d, hd⟩ := h.heap hp
      have hnArg : d.nArg = r.nArg := by
        have harity := List.find?_some hf
        simpa [arity_some hd] using harity
      have hfirst : s.first.isSome = true := by
        cases ps with
        | nil => cases hp
        | cons q ps => simp [h.chain.1]
      refine ⟨{ s with heap := Function.update s.heap p (some { d with toDef := r.toDef }) }, true,
        fun rounds hr => ?_, ps, by simpa [hfirst, hnArg] using h.redefine hp hd r.toDef⟩
      simp [createFunction, hmisuse, hfind rounds hr, hf, hd]
    | none =>
      have hn : r.nArg ∉ order hist := by
        intro hin
        obtain ⟨p, hp, harity⟩ := h.find hin
        have := List.find?_eq_none.1 hf p hp
        simp [harity] at this
      cases hblock : al.block with
      | none =>
        refine ⟨s, false, fun rounds hr => ?_, ps, h⟩
        simp [createFunction, hmisuse, hfind rounds hr, hf, hblock]
      | some p =>
        have hp := hfree p hblock
        obtain ⟨fd, hfd⟩ : ∃ fd, (s.enter r.nArg al p).heap p = some fd := ⟨_, Function.update_self p _ _⟩
        refine ⟨⟨Function.update (s.enter r.nArg al p).heap p (some { fd with toDef := r.toDef }),
          (s.enter r.nArg al p).first⟩, true, fun rounds hr => ?_, ?_⟩
        · simp only [createFunction, hmisuse, hfind rounds hr, hf, hblock, Bool.false_eq_true, if_false,
            Option.bind_some, hfd, Option.map_some]
        · cases hentry : s.first.isSome || al.entry with
          | true => exact ⟨p :: ps, h.enter hp hn hbound hentry r.toDef rfl (by simp [hfd])⟩
          | false =>
            -- the function is not on the list
            have hsame : ∀ q ∈ ps, Function.update (s.enter r.nArg al p).heap p (some { fd with toDef := r.toDef }) q =
                s.heap q := by
              intro q hq
              obtain ⟨d, hd⟩ := h.heap hq
              have hqp : q ≠ p := by
                intro hqp
                rw [hqp, hp] at hd
                cases hd
              rw [Function.update_of_ne hqp]
              exact Function.update_of_ne hqp _ _
            refine ⟨ps, ?_, ?_, ?_, h.bounds⟩
            · have hfirst : (s.enter r.nArg al p).first = s.first := by
                rw [Fns.enter, hentry]
                rfl
              dsimp only
              rw [hfirst]
              exact h.chain.congr fun q hq => congrArg _ (hsame q hq)
            · exact (List.map_congr_left fun q hq => congrArg _ (hsame q hq)).trans h.arities
            · intro q hq d hd
              exact h.defs q hq d ((hsame q hq).symm.trans hd)

theorem reachable_kept (hr : calls.Reachable (s, hist)) : ∃ ps, Kept s hist ps := by
  have hinv : calls.Inductive fun s => ∃ ps, Kept s.1 s.2 ps := by
    refine ⟨?_, ?_⟩
    · intro s hinit
      obtain ⟨s, hist⟩ := s
      obtain ⟨hfirst, rfl⟩ : s.first = none ∧ hist = [] := hinit
      exact ⟨[], hfirst, rfl, by simp, by simp [order]⟩
    · intro s l s' hkept hstep
      obtain ⟨ps, h⟩ := hkept
      obtain ⟨hfree, k, ok, hcall, hhist⟩ := hstep
      obtain ⟨t, ok', hends, ps', h'⟩ := createFunction_kept h l.1 hfree
      have heq := hcall (max k (ps.length + 1)) (Nat.le_max_left _ _)
      rw [hends _ (Nat.lt_of_lt_of_le (Nat.lt_succ_self _) (Nat.le_max_right _ _))] at heq
      obtain ⟨rfl, rfl⟩ : t = s'.1 ∧ ok' = ok := by simpa using heq
      rw [← hhist] at h'
      exact ⟨ps', h'⟩
  exact hinv.reachable hr

/-! ## What is found -/

theorem Kept.registered_eq (h : Kept s hist ps) (hp : p ∈ ps) (hd : s.heap p = some d) (hn : d.nArg = n) :
    registered hist n = some d.toDef := hn ▸ h.defs p hp d hd

/-- A number of arguments without a function on the list has never come up. -/
theorem Kept.registered_none (h : Kept s hist ps) (hf : ps.find? (fun p => s.arity p = some n) = none) :
    registered hist n = none := by
  by_contra hne
  obtain ⟨p, hp, harity⟩ := h.find (mem_order.2 hne)
  have := List.find?_eq_none.1 hf p hp
  simp [harity] at this

/-- The function for any number of arguments. -/
theorem Kept.find_any (h : Kept s hist ps) :
    ((ps.find? s.anyAt).bind s.heap).map (fun d => (d.nArg, d.toDef)) = (live hist (-1)).map fun d => (-1, d) := by
  cases hf : ps.find? s.anyAt with
  | some p =>
    have hp := List.mem_of_find?_eq_some hf
    obtain ⟨d, hd⟩ := h.heap hp
    have hany := List.find?_some hf
    rw [anyAt_some hd, Bool.and_eq_true, decide_eq_true_eq] at hany
    have hbound := h.bounds _ (h.arity_mem hp hd)
    have hn : d.nArg = -1 := by omega
    simp [hd, hn, live, h.registered_eq hp hd hn, Option.filter, hany.2]
  | none =>
    have hlive : live hist (-1) = none := by
      by_contra hne
      obtain ⟨e, he⟩ := Option.ne_none_iff_exists'.1 hne
      obtain ⟨hreg, hvalid⟩ := Option.filter_eq_some_iff.1 he
      obtain ⟨p, hp, harity⟩ := h.find (n := -1) (mem_order.2 (by simp [hreg]))
      obtain ⟨d, hd⟩ := h.heap hp
      have hn : d.nArg = -1 := by simpa [arity_some hd] using harity
      obtain rfl : d.toDef = e := by simpa [hreg] using (h.registered_eq hp hd hn).symm
      have := List.find?_eq_none.1 hf p hp
      simp [anyAt_some hd, hn, hvalid] at this
    simp [hlive]

/-- The first function that is no blank has the number of arguments that came up last. -/
theorem find_order {ps : List Nat} {ns : List Int} {f : Nat → Option Int} {P : Nat → Bool} {Q : Int → Bool}
    (hmap : ps.map f = ns.map some) (hPQ : ∀ p ∈ ps, ∀ n, f p = some n → P p = Q n) :
    (ps.find? P).bind f = ns.find? Q := by
  induction ps generalizing ns with
  | nil =>
    obtain rfl : ns = [] := by simpa using hmap
    rfl
  | cons p ps ih =>
    cases ns with
    | nil => simp at hmap
    | cons n ns =>
      obtain ⟨hp, hmap⟩ : f p = some n ∧ ps.map f = ns.map some := by simpa using hmap
      rw [List.find?_cons, List.find?_cons, hPQ p (List.mem_cons_self ..) n hp]
      cases Q n with
      | true => exact hp
      | false => exact ih hmap fun q hq => hPQ q (List.mem_cons_of_mem p hq)

theorem Kept.first_valid (h : Kept s hist ps) :
    (ps.find? s.validAt).bind s.arity = (order hist).find? fun m => (live hist m).isSome := by
  apply find_order h.arities
  intro p hp m hm
  obtain ⟨d, hd⟩ := h.heap hp
  have hn : d.nArg = m := by simpa [arity_some hd] using hm
  rw [validAt_some hd, live, h.registered_eq hp hd hn]
  cases hv : d.valid with
  | true => simp [Option.filter, hv]
  | false => simp [Option.filter, hv]

/-- The function that is found for `n` arguments. -/
theorem Kept.find_exact (h : Kept s hist ps) (hn : 0 ≤ n) :
    ∃ res, (∀ rounds, ps.length < rounds → findFunction rounds s n false ⟨none, false⟩ = some (s, res)) ∧
      (res.bind s.heap).map (fun d => (d.nArg, d.toDef)) =
        if removed hist n then none else expected hist n := by
  obtain ⟨maybe, hsearch, hmaybe⟩ := search_eq (n := n) h.chain false none h.one
  have hneg : ¬(s.first.isSome && !false && decide (n < 0)) = true := by
    simp [hn]
  cases hf : ps.find? (fun p => s.arity p = some n) with
  | some p =>
    have hp := List.mem_of_find?_eq_some hf
    obtain ⟨d, hd⟩ := h.heap hp
    have hnArg : d.nArg = n := by
      have harity := List.find?_some hf
      simpa [arity_some hd] using harity
    have hreg := h.registered_eq hp hd hnArg
    refine ⟨if !false && !d.valid then none else some p, fun rounds hr => ?_, ?_⟩
    · rw [findFunction, if_neg hneg, hsearch rounds hr, Option.bind_some, hf]
      dsimp only
      rw [hd, Option.map_some]
    · cases hv : d.valid with
      | true => simp [hd, hnArg, removed, expected, live, hreg, Option.filter, hv]
      | false => simp [removed, hreg, hv]
  | none =>
    have hreg := h.registered_none hf
    refine ⟨maybe, fun rounds hr => ?_, ?_⟩
    · rw [findFunction, if_neg hneg, hsearch rounds hr, Option.bind_some, hf]
      cases maybe with
      | none => rfl
      | some q => rfl
    · obtain rfl : maybe = ps.find? s.anyAt := by simpa using hmaybe hf
      rw [h.find_any]
      simp [removed, expected, live, hreg]

/-- The function that is found for a negative number. -/
theorem Kept.find_first (h : Kept s hist ps) (hn : n < 0) :
    ∀ rounds, ps.length < rounds →
      findFunction rounds s n false ⟨none, false⟩ = some (s, ps.find? s.validAt) := by
  intro rounds hr
  cases ps with
  | nil =>
    have hfirst : s.first = none := h.chain
    obtain ⟨rounds, rfl⟩ : ∃ k, rounds = k + 1 := ⟨rounds - 1, by simp at hr; omega⟩
    simp [findFunction, hfirst, search]
  | cons q ps =>
    have hfirst : s.first = some q := h.chain.1
    rw [findFunction, if_pos (by simp [hfirst, hn]), firstValid_eq h.chain hr, Option.map_some]

theorem live_of_removed (h : removed hist n = true) : live hist n = none := by
  rw [removed] at h
  rw [live]
  cases hreg : registered hist n with
  | none => rfl
  | some d =>
    have hv : d.valid = false := by simpa [hreg] using h
    simp [Option.filter, hv]

/-- Where all are blanks nothing is left. -/
theorem Kept.live_none (h : Kept s hist ps) (hf : ps.find? s.validAt = none) (m : Int) : live hist m = none := by
  rw [live]
  cases hreg : registered hist m with
  | none => rfl
  | some e =>
    obtain ⟨p, hp, harity⟩ := h.find (n := m) (mem_order.2 (by simp [hreg]))
    obtain ⟨d, hd⟩ := h.heap hp
    have hn : d.nArg = m := by simpa [arity_some hd] using harity
    obtain rfl : d.toDef = e := by simpa [hreg] using (h.registered_eq hp hd hn).symm
    have hv : d.valid = false := by simpa [validAt_some hd] using List.find?_eq_none.1 hf p hp
    simp [Option.filter, hv]

/-- No negative number but -1 has a function. -/
theorem Kept.expected_neg (h : Kept s hist ps) (hn : n < 0) :
    expected hist n = (live hist (-1)).map fun d => (-1, d) := by
  by_cases heq : n = -1
  · subst heq
    rw [expected, Option.or_self]
  · have hreg : registered hist n = none := by
      by_contra hne
      have := h.bounds n (mem_order.2 hne)
      omega
    simp [expected, live, hreg]

/-- **The function found is the one that is expected exactly where no blank hides it.** -/
theorem findFunction_iff (hr : calls.Reachable (s, hist)) : Finds s hist n ↔ Unhidden hist n := by
  obtain ⟨ps, h⟩ := reachable_kept hr
  -- the result of a search with rounds enough is the one that counts
  have hfinds : ∀ res, (∀ rounds, ps.length < rounds →
      findFunction rounds s n false ⟨none, false⟩ = some (s, res)) →
        (Finds s hist n ↔ (res.bind s.heap).map (fun d => (d.nArg, d.toDef)) = expected hist n) := by
    intro res hres
    refine ⟨fun hf => ?_, fun heq => ⟨ps.length + 1, res, fun rounds hle => hres rounds hle, heq⟩⟩
    obtain ⟨k, res', hres', heq⟩ := hf
    have hsame := hres' (max k (ps.length + 1)) (Nat.le_max_left _ _)
    rw [hres _ (Nat.lt_of_lt_of_le (Nat.lt_succ_self _) (Nat.le_max_right _ _))] at hsame
    obtain rfl : res = res' := by simpa using hsame
    exact heq
  by_cases hn : n < 0
  · rw [hfinds _ (h.find_first hn), Unhidden, if_pos hn, h.expected_neg hn, ← h.first_valid]
    cases hf : ps.find? s.validAt with
    | none =>
      have hlive := h.live_none hf (-1)
      simp [hlive]
    | some p =>
      have hp := List.mem_of_find?_eq_some hf
      obtain ⟨d, hd⟩ := h.heap hp
      have hv := List.find?_some hf
      rw [validAt_some hd] at hv
      simp only [Option.bind_some, hd, Option.map_some, arity_some hd, Option.some.injEq, forall_eq']
      constructor
      · intro heq
        obtain ⟨e, -, he⟩ := Option.map_eq_some_iff.1 heq.symm
        exact (congrArg Prod.fst he).symm
      · intro hm
        simp [live, h.registered_eq hp hd hm, Option.filter, hv, hm]
  · obtain ⟨res, hres, heq⟩ := h.find_exact (Int.not_lt.1 hn)
    rw [hfinds res hres, heq, Unhidden, if_neg hn]
    cases hrem : removed hist n with
    | false => simp
    | true =>
      have hlive : live hist n = none := live_of_removed hrem
      rw [expected, hlive]
      cases live hist (-1) with
      | none => simp
      | some d => simp

end

/-- A call that defines a function of `n` arguments, or removes it. -/
def define (n : Int) (xFunc : Option Nat) (p : Nat) : Request × FnAlloc :=
  (⟨⟨xFunc, none, none, 0⟩, true, true, n⟩, ⟨some p, true⟩)

/-- The state after a call. -/
def afterCall (s : Fns × History) (l : Request × FnAlloc) : Fns × History :=
  match createFunction 3 s.1 l.1 l.2 with
  | some (s', ok) => (s', if ok && (s.1.first.isSome || l.2.entry) then (l.1.nArg, l.1.toDef) :: s.2 else s.2)
  | none => s

/-- A function for any number of arguments, and one for two. -/
def anyAndTwo : Fns × History :=
  afterCall (afterCall (⟨fun _ => none, none⟩, []) (define (-1) (some 7) 0)) (define 2 (some 8) 1)

/-- The one for two arguments has been removed. -/
def twoRemoved : Fns × History := afterCall anyAndTwo (define 2 none 2)

theorem anyAndTwo_reachable : calls.Reachable anyAndTwo := by
  have hinit : calls.Reachable (⟨fun _ => none, none⟩, []) := LTS.Reachable.init ⟨rfl, rfl⟩
  have hany : calls.step (⟨fun _ => none, none⟩, []) (define (-1) (some 7) 0)
      (afterCall (⟨fun _ => none, none⟩, []) (define (-1) (some 7) 0)) := by
    refine ⟨fun _ _ => rfl, 1, true, fun rounds hle => ?_, rfl⟩
    obtain ⟨k, rfl⟩ : ∃ k, rounds = k + 1 := ⟨rounds - 1, by omega⟩
    rfl
  refine (hinit.step hany).step (l := define 2 (some 8) 1) ⟨?_, 2, true, fun rounds hle => ?_, rfl⟩
  · intro p hp
    obtain rfl : 1 = p := Option.some.inj hp
    rfl
  · obtain ⟨k, rfl⟩ : ∃ k, rounds = k + 2 := ⟨rounds - 2, by omega⟩
    rfl

theorem twoRemoved_reachable : calls.Reachable twoRemoved := by
  refine anyAndTwo_reachable.step (l := define 2 none 2) ⟨?_, 2, true, fun rounds hle => ?_, rfl⟩
  · intro p hp
    obtain rfl : 2 = p := Option.some.inj hp
    rfl
  · obtain ⟨k, rfl⟩ : ∃ k, rounds = k + 2 := ⟨rounds - 2, by omega⟩
    rfl

theorem findFunction_iff_two : Finds anyAndTwo.1 anyAndTwo.2 2 ↔ Unhidden anyAndTwo.2 2 :=
  findFunction_iff anyAndTwo_reachable

/-- Once the function for two arguments has been removed, the one for any number is not found for two. -/
theorem findFunction_hides :
    ¬∀ (s : Fns) (hist : History) (n : Int), calls.Reachable (s, hist) → 0 ≤ n → Finds s hist n := by
  intro h
  obtain ⟨k, p, hfind, heq⟩ := h twoRemoved.1 twoRemoved.2 2 twoRemoved_reachable (by decide)
  have hnothing : findFunction (k + 3) twoRemoved.1 2 false ⟨none, false⟩ = some (twoRemoved.1, none) := rfl
  rw [hfind (k + 3) (Nat.le_add_right k 3)] at hnothing
  obtain rfl : p = none := by simpa using hnothing
  exact absurd heq (by decide)

end Dbsql.L5.FindFunction
