import Dbsql.L7Lemon.FirstSets
/-!
# Lists of configurations (lemon.c, configlist.c)

A configuration is a rule with a dot in it. The list under construction is kept as the addresses
of its configurations, in a heap that only grows: that `deleteconfig` gives memory back is left
out, since no link points to a configuration that is eaten. `Configtable_find` looks the pair of
rule and dot up in the list, which is what its hash table has.

`Configlist_closure` goes over the list while it grows. For a configuration with a nonterminal
behind the dot it adds that nonterminal's rules with the dot at the left, gives their follow sets
what can come behind the nonterminal, and a link where that can be nothing.

Results:
* `Closing`: what the loop keeps, of the list it started with and of everything else in the heap.
* `closure_items`: the list has exactly the configurations of the closure in the end, each once.
* `closure_served`: for each configuration, and each rule of the nonterminal behind its dot, the
  follow set and the link are there.
-/
namespace Dbsql.L7
open Dbsql.Core ShiftReduce

/-- `struct config` (lemon.c:194-209), without the links of the lists it is in. -/
structure Config where
  rp : Nat
  dot : Nat
  fws : List Bool
  fplp : List Nat
  bplp : List Nat

/-- What `Configcmp` compares. -/
def Config.item (c : Config) : Nat × Nat := (c.rp, c.dot)

def configAt (heap : List Config) (cfp : Nat) : Config := heap.getD cfp ⟨0, 0, [], [], []⟩

/-- The variables `current` and `basis`, and the memory. -/
structure Configlist where
  heap : List Config
  current : List Nat
  basis : List Nat

def Configlist.item (l : Configlist) (cfp : Nat) : Nat × Nat := (configAt l.heap cfp).item

section
variable (lemp : Lemon)

/-- `Configtable_find`. -/
def Configlist.find (l : Configlist) (rp dot : Nat) : Option Nat :=
  l.current.find? fun cfp => l.item cfp = (rp, dot)

/-- `newconfig` with the fields filled in (lemon.c:1122-1132). -/
def Configlist.append (l : Configlist) (rp dot : Nat) : Configlist :=
  { l with
    heap := l.heap ++ [⟨rp, dot, setNew (lemp.nterminal + 1), [], []⟩]
    current := l.current ++ [l.heap.length] }

/-- `Configlist_add` (lemon.c:1112-1136). -/
def configlistAdd (l : Configlist) (rp dot : Nat) : Configlist × Nat :=
  match l.find rp dot with
  | some cfp => (l, cfp)
  | none => (l.append lemp rp dot, l.heap.length)

/-- `Configlist_addbasis` (lemon.c:1139-1166). -/
def configlistAddbasis (l : Configlist) (rp dot : Nat) : Configlist × Nat :=
  match l.find rp dot with
  | some cfp => (l, cfp)
  | none => ({ l.append lemp rp dot with basis := l.basis ++ [l.heap.length] }, l.heap.length)

/-- The loop over the symbols behind (lemon.c:1190-1199), and whether it got to the end. -/
def followRest : List Nat → List Bool → List Bool × Bool
  | [], fws => (fws, true)
  | xsp :: rhs, fws =>
    if lemp.isTerminal xsp then ((setAdd fws xsp).1, false)
    else
      let u := (setUnion fws (firstsetOf (firstSets lemp) xsp)).1
      if setFind (lambdas lemp) xsp then followRest rhs u else (u, false)

/-- One round of the loop over the rules of a nonterminal (lemon.c:1188-1201). -/
def closureRule (cfp : Nat) (rest : List Nat) (l : Configlist) (newrp : Nat) : Configlist :=
  let new := configlistAdd lemp l newrp 0
  let f := followRest lemp rest (configAt new.1.heap new.2).fws
  let heap := new.1.heap.modify new.2 fun c => { c with fws := f.1 }
  { new.1 with heap := if f.2 then heap.modify cfp fun c => { c with fplp := new.2 :: c.fplp } else heap }

/-- One round of the loop over the list (lemon.c:1177-1203). -/
def closureConfig (l : Configlist) (cfp : Nat) : Configlist :=
  match lemp.rules[(l.item cfp).1]? with
  | none => l
  | some rp =>
    match rp.rhs[(l.item cfp).2]? with
    | none => l
    | some sp =>
      if lemp.isTerminal sp then l
      else (lemp.rulesOf sp).foldl (closureRule lemp cfp (rp.rhs.drop ((l.item cfp).2 + 1))) l

/-- From the `k`-th element of the list on, for so many rounds. -/
def closureLoop : Nat → Nat → Configlist → Configlist
  | 0, _, l => l
  | n + 1, k, l =>
    match l.current[k]? with
    | none => l
    | some cfp => closureLoop n (k + 1) (closureConfig lemp l cfp)

/-- How many configurations there can be. -/
def Lemon.nconfig : Nat := (lemp.rules.map fun r => r.rhs.length + 1).sum

/-- `Configlist_closure` (lemon.c:1169-1206). -/
def configlistClosure (l : Configlist) : Configlist := closureLoop lemp lemp.nconfig 0 l

end

/-! ## What follows a symbol -/

variable {lemp : Lemon} {l l0 l' : Configlist} {cfp c d x t rp dot newrp : Nat} {rest : List Nat}

theorem begins_cons : Begins lemp (lemp.toSymbol x :: rest.map lemp.toSymbol) t ↔
    Begins lemp [lemp.toSymbol x] t ∨ (Nullable lemp x ∧ Begins lemp (rest.map lemp.toSymbol) t) := by
  constructor
  · intro h
    have hfirst := firstOf_of_begins h
    rcases Nat.lt_or_ge x lemp.nterminal with hx | hx
    · rw [Lemon.toSymbol_terminal hx] at hfirst ⊢
      obtain rfl : t = x := hfirst
      exact .inl ⟨[], .refl _⟩
    · rw [Lemon.toSymbol_nonterminal hx] at hfirst
      rcases hfirst with hfirst | ⟨hl, hfirst⟩
      · exact .inl ((first_iff hx).1 hfirst)
      · exact .inr ⟨lambda_iff.1 hl, firstOf_iff.1 hfirst⟩
  · intro h
    rcases h with h | ⟨hn, h⟩
    · exact h.head
    · exact h.skip hn

theorem begins_terminal (hx : x < lemp.nterminal) : Begins lemp [lemp.toSymbol x] t ↔ t = x := by
  constructor
  · intro h
    have hfirst := firstOf_of_begins h
    rw [Lemon.toSymbol_terminal hx] at hfirst
    exact hfirst
  · intro h
    rw [Lemon.toSymbol_terminal hx, h]
    exact ⟨[], .refl _⟩

theorem length_firstsetOf (hx : x < lemp.nsymbol) : (firstsetOf (firstSets lemp) x).length = lemp.nterminal + 1 := by
  have hinv : FirstInv lemp (firstSets lemp) := firstSets_stable.1
  apply hinv.size
  apply firstsetOf_mem
  rwa [hinv.length]

/-- The loop adds what the rest begins with. -/
theorem followRest_spec (hrest : ∀ x ∈ rest, x < lemp.nsymbol) {fws : List Bool}
    (hfws : fws.length = lemp.nterminal + 1) :
    (followRest lemp rest fws).1.length = lemp.nterminal + 1 ∧
      (∀ t, setFind (followRest lemp rest fws).1 t = true ↔
        setFind fws t = true ∨ Begins lemp (rest.map lemp.toSymbol) t) ∧
      ((followRest lemp rest fws).2 = true ↔ ∀ x ∈ rest, Nullable lemp x) := by
  induction rest generalizing fws with
  | nil =>
    refine ⟨hfws, fun t => ⟨.inl, fun h => ?_⟩, by simp [followRest]⟩
    rcases h with h | h
    · exact h
    · exact (firstOf_of_begins h).elim
  | cons x rest ih =>
    obtain ⟨hx, hrest⟩ := List.forall_mem_cons.1 hrest
    unfold followRest
    by_cases hterm : x < lemp.nterminal
    · rw [if_pos (by simpa [Lemon.isTerminal] using hterm)]
      have hnull : ¬ Nullable lemp x := fun h => absurd h.nonterminal (Nat.not_le.2 hterm)
      refine ⟨by simpa using hfws, fun t => ?_, by simp [hnull]⟩
      rw [setFind_setAdd (by omega), List.map_cons, begins_cons, begins_terminal hterm]
      simp [hnull, or_comm]
    · have hge : lemp.nterminal ≤ x := Nat.not_lt.1 hterm
      have hsize : fws.length = (firstsetOf (firstSets lemp) x).length := by rw [hfws, length_firstsetOf hx]
      have hu : (setUnion fws (firstsetOf (firstSets lemp) x)).1.length = lemp.nterminal + 1 := by
        rw [length_setUnion hsize, hfws]
      have hfind : ∀ t, setFind (setUnion fws (firstsetOf (firstSets lemp) x)).1 t = true ↔
          setFind fws t = true ∨ Begins lemp [lemp.toSymbol x] t := fun t => by
        rw [setFind_setUnion hsize, Bool.or_eq_true, first_iff hge]
      rw [if_neg (by simpa [Lemon.isTerminal] using hge)]
      simp only
      by_cases hl : setFind (lambdas lemp) x = true
      · rw [if_pos hl]
        obtain ⟨hlen, hmem, hend⟩ := ih hrest hu
        have hn : Nullable lemp x := lambda_iff.1 hl
        refine ⟨hlen, fun t => ?_, by rw [hend]; simp [hn]⟩
        rw [hmem, hfind, List.map_cons, begins_cons, or_assoc]
        simp [hn]
      · rw [if_neg hl]
        have hn : ¬ Nullable lemp x := fun h => hl (lambda_iff.2 h)
        refine ⟨hu, fun t => ?_, by simp [hn]⟩
        rw [hfind, List.map_cons, begins_cons]
        simp [hn]

/-! ## What the loop keeps -/

/-- The configuration has a nonterminal behind its dot, `j` is a rule of it and `rest` comes after. -/
def Expands (lemp : Lemon) (x : Nat × Nat) (j : Nat) (rest : List Nat) : Prop :=
  ∃ r r' : Rule, lemp.rules[x.1]? = some r ∧ r.rhs[x.2]? = some r'.lhs ∧ lemp.rules[j]? = some r' ∧
    rest = r.rhs.drop (x.2 + 1)

/-- The closure of a list of configurations. -/
inductive InClosure (lemp : Lemon) (B : List (Nat × Nat)) : Nat × Nat → Prop
  | base {x : Nat × Nat} : x ∈ B → InClosure lemp B x
  | step {x : Nat × Nat} {j : Nat} {rest : List Nat} :
      InClosure lemp B x → Expands lemp x j rest → InClosure lemp B (j, 0)

/-- What the list `l0` has become. -/
structure Closing (lemp : Lemon) (l0 l : Configlist) : Prop where
  basis : l.basis = l0.basis
  length_le : l0.heap.length ≤ l.heap.length
  current : l.current = l0.current ++ List.range' l0.heap.length (l.heap.length - l0.heap.length)
  live : ∀ c ∈ l.current, c < l.heap.length
  old : ∀ c < l0.heap.length, l.item c = l0.item c ∧ (configAt l.heap c).bplp = (configAt l0.heap c).bplp
  new : ∀ c, l0.heap.length ≤ c → (configAt l.heap c).bplp = []
  frame : ∀ c < l0.heap.length, c ∉ l0.current → configAt l.heap c = configAt l0.heap c
  nodup : (l.current.map l.item).Nodup
  closure : ∀ c ∈ l.current, InClosure lemp (l0.current.map l0.item) (l.item c)
  size : ∀ c ∈ l.current, (configAt l.heap c).fws.length = lemp.nterminal + 1
  fws : ∀ c ∈ l.current, ∀ a, setFind (configAt l.heap c).fws a = true →
    (c ∈ l0.current ∧ setFind (configAt l0.heap c).fws a = true) ∨
      ∃ d ∈ l.current, ∃ rest, Expands lemp (l.item d) (l.item c).1 rest ∧ (l.item c).2 = 0 ∧
        Begins lemp (rest.map lemp.toSymbol) a
  fplp : ∀ c ∈ l.current, ∀ d ∈ (configAt l.heap c).fplp,
    d ∈ l.current ∧ (l.item d).2 = 0 ∧
      ∃ rest, Expands lemp (l.item c) (l.item d).1 rest ∧ ∀ x ∈ rest, Nullable lemp x

/-- What is there stays there. -/
structure Grown (l l' : Configlist) : Prop where
  length_le : l.heap.length ≤ l'.heap.length
  current : l.current <+: l'.current
  item : ∀ c < l.heap.length, l'.item c = l.item c
  fws : ∀ c < l.heap.length, ∀ a, setFind (configAt l.heap c).fws a = true → setFind (configAt l'.heap c).fws a = true
  fplp : ∀ c < l.heap.length, ∀ d ∈ (configAt l.heap c).fplp, d ∈ (configAt l'.heap c).fplp

theorem Grown.refl (l : Configlist) : Grown l l :=
  ⟨Nat.le_refl _, List.prefix_refl _, fun _ _ => rfl, fun _ _ _ h => h, fun _ _ _ h => h⟩

theorem Grown.trans {l'' : Configlist} (h : Grown l l') (h' : Grown l' l'') : Grown l l'' where
  length_le := h.length_le.trans h'.length_le
  current := h.current.trans h'.current
  item c hc := (h'.item c (hc.trans_le h.length_le)).trans (h.item c hc)
  fws c hc a ha := h'.fws c (hc.trans_le h.length_le) a (h.fws c hc a ha)
  fplp c hc d hd := h'.fplp c (hc.trans_le h.length_le) d (h.fplp c hc d hd)

/-- Rule `j` has been added for the configuration `cfp`, with `rest` behind it. -/
def Linked (lemp : Lemon) (l : Configlist) (cfp j : Nat) (rest : List Nat) : Prop :=
  ∃ d ∈ l.current, l.item d = (j, 0) ∧
    (∀ a, Begins lemp (rest.map lemp.toSymbol) a → setFind (configAt l.heap d).fws a = true) ∧
    ((∀ x ∈ rest, Nullable lemp x) → d ∈ (configAt l.heap cfp).fplp)

theorem Linked.mono (h : Linked lemp l cfp newrp rest) (hg : Grown l l') (hlive : ∀ c ∈ l.current, c < l.heap.length)
    (hcfp : cfp < l.heap.length) : Linked lemp l' cfp newrp rest := by
  obtain ⟨d, hd, hitem, hfws, hlink⟩ := h
  have hlt := hlive d hd
  exact ⟨d, hg.current.subset hd, (hg.item d hlt).trans hitem, fun a ha => hg.fws d hlt a (hfws a ha),
    fun hn => hg.fplp cfp hcfp d (hlink hn)⟩

/-! ## The memory -/

variable {heap : List Config} {f : Config → Config} {new : Config}

theorem configAt_append (hc : c < heap.length) : configAt (heap ++ [new]) c = configAt heap c := by
  unfold configAt
  rw [List.getD_eq_getElem?_getD, List.getD_eq_getElem?_getD, List.getElem?_append_left hc]

@[simp] theorem configAt_append_self : configAt (heap ++ [new]) heap.length = new := by
  unfold configAt
  rw [List.getD_eq_getElem?_getD, List.getElem?_concat_length]
  rfl

theorem configAt_modify (hd : d < heap.length) :
    configAt (heap.modify d f) c = if c = d then f (configAt heap d) else configAt heap c := by
  unfold configAt
  rw [List.getD_eq_getElem?_getD, List.getD_eq_getElem?_getD, List.getD_eq_getElem?_getD, List.getElem?_modify]
  by_cases h : c = d
  · subst h
    rw [List.getElem?_eq_getElem hd]
    simp
  · simp [h, Ne.symm h]

/-- The address of nothing has no links. -/
theorem configAt_of_le (hc : heap.length ≤ c) : configAt heap c = ⟨0, 0, [], [], []⟩ := by
  unfold configAt
  rw [List.getD_eq_getElem?_getD, List.getElem?_eq_none hc]
  rfl

/-! ## One configuration more, or one changed -/

theorem find_eq_some (h : l.find rp dot = some d) : d ∈ l.current ∧ l.item d = (rp, dot) := by
  have hp := List.find?_some h
  exact ⟨List.mem_of_find?_eq_some h, of_decide_eq_true hp⟩

theorem find_eq_none (h : l.find rp dot = none) (hc : c ∈ l.current) : l.item c ≠ (rp, dot) := by
  have hp := List.find?_eq_none.1 h c hc
  simpa using hp

theorem append_item_old (hc : c < l.heap.length) : (l.append lemp rp dot).item c = l.item c :=
  congrArg Config.item (configAt_append hc)

theorem append_item_new : (l.append lemp rp dot).item l.heap.length = (rp, dot) :=
  congrArg Config.item configAt_append_self

theorem append_grown : Grown l (l.append lemp rp dot) where
  length_le := by simp [Configlist.append]
  current := List.prefix_append _ _
  item _ hc := append_item_old hc
  fws c hc a ha := by
    rw [Configlist.append, configAt_append hc]
    exact ha
  fplp c hc d hd := by
    rw [Configlist.append, configAt_append hc]
    exact hd

theorem append_nodup (hlive : ∀ c ∈ l.current, c < l.heap.length) (hnodup : (l.current.map l.item).Nodup)
    (h : l.find rp dot = none) :
    ((l.append lemp rp dot).current.map (l.append lemp rp dot).item).Nodup := by
  have hold : l.current.map (l.append lemp rp dot).item = l.current.map l.item :=
    List.map_congr_left fun c hc => append_item_old (hlive c hc)
  have hcur : (l.append lemp rp dot).current = l.current ++ [l.heap.length] := rfl
  rw [hcur, List.map_append, hold, List.map_singleton, append_item_new]
  refine List.nodup_append.2 ⟨hnodup, List.nodup_singleton _, fun x hx y hy => ?_⟩
  obtain ⟨c, hc, rfl⟩ := List.mem_map.1 hx
  rw [List.mem_singleton.1 hy]
  exact find_eq_none h hc

theorem Closing.append (h : Closing lemp l0 l) (hcfp : cfp ∈ l.current) (hx : Expands lemp (l.item cfp) newrp rest)
    (hnew : l.find newrp 0 = none) : Closing lemp l0 (l.append lemp newrp 0) := by
  have hg : Grown l (l.append lemp newrp 0) := append_grown
  have hlen : (l.append lemp newrp 0).heap.length = l.heap.length + 1 := by simp [Configlist.append]
  have hcur : (l.append lemp newrp 0).current = l.current ++ [l.heap.length] := rfl
  have hat : ∀ c < l.heap.length, configAt (l.append lemp newrp 0).heap c = configAt l.heap c :=
    fun c hc => configAt_append hc
  have hself : configAt (l.append lemp newrp 0).heap l.heap.length =
      ⟨newrp, 0, setNew (lemp.nterminal + 1), [], []⟩ := configAt_append_self
  refine ⟨h.basis, h.length_le.trans hg.length_le, ?_, ?_, fun c hc => ?_, fun c hc => ?_, fun c hc hno => ?_,
    append_nodup h.live h.nodup hnew, ?_, ?_, ?_, ?_⟩
  · have hcount : l.heap.length + 1 - l0.heap.length = l.heap.length - l0.heap.length + 1 := by
      have hle := h.length_le
      omega
    rw [hcur, hlen, hcount, List.range'_concat, h.current, List.append_assoc]
    have hlast : l0.heap.length + 1 * (l.heap.length - l0.heap.length) = l.heap.length := by
      have hle := h.length_le
      omega
    rw [hlast]
  · intro c hc
    rw [hcur, List.mem_append, List.mem_singleton] at hc
    rw [hlen]
    rcases hc with hc | rfl
    · exact Nat.lt_succ_of_lt (h.live c hc)
    · exact Nat.lt_succ_self _
  · have hlt := hc.trans_le h.length_le
    rw [hg.item c hlt, hat c hlt]
    exact h.old c hc
  · rcases Nat.lt_trichotomy c l.heap.length with hlt | rfl | hgt
    · rw [hat c hlt]
      exact h.new c hc
    · rw [hself]
    · rw [configAt_of_le (by rw [hlen]; exact hgt)]
  · rw [hat c (hc.trans_le h.length_le)]
    exact h.frame c hc hno
  all_goals
    intro c hc
    rw [hcur, List.mem_append, List.mem_singleton] at hc
  · rcases hc with hc | rfl
    · rw [hg.item c (h.live c hc)]
      exact h.closure c hc
    · rw [append_item_new]
      exact (h.closure cfp hcfp).step hx
  · rcases hc with hc | rfl
    · rw [hat c (h.live c hc)]
      exact h.size c hc
    · rw [hself]
      exact length_setNew
  · rcases hc with hc | rfl
    · intro a ha
      rw [hat c (h.live c hc)] at ha
      refine (h.fws c hc a ha).imp id fun hs => ?_
      obtain ⟨d, hd, rest, hs⟩ := hs
      refine ⟨d, hg.current.subset hd, rest, ?_⟩
      rw [hg.item d (h.live d hd), hg.item c (h.live c hc)]
      exact hs
    · intro a ha
      rw [hself] at ha
      simp at ha
  · rcases hc with hc | rfl
    · intro d hd
      rw [hat c (h.live c hc)] at hd
      obtain ⟨hmem, hs⟩ := h.fplp c hc d hd
      refine ⟨hg.current.subset hmem, ?_⟩
      rw [hg.item d (h.live d hmem), hg.item c (h.live c hc)]
      exact hs
    · intro d hd
      rw [hself] at hd
      cases hd

/-- The list with one configuration changed. -/
def Configlist.modify (l : Configlist) (d : Nat) (f : Config → Config) : Configlist :=
  { l with heap := l.heap.modify d f }

theorem modify_item (hd : d < l.heap.length) (hitem : ∀ c, (f c).item = c.item) : (l.modify d f).item c = l.item c := by
  unfold Configlist.item Configlist.modify
  rw [configAt_modify hd]
  split
  next heq => rw [hitem, heq]
  next => rfl

theorem modify_grown (hd : d < l.heap.length) (hitem : ∀ c, (f c).item = c.item)
    (hfws : ∀ a, setFind (configAt l.heap d).fws a = true → setFind (f (configAt l.heap d)).fws a = true)
    (hfplp : ∀ e ∈ (configAt l.heap d).fplp, e ∈ (f (configAt l.heap d)).fplp) : Grown l (l.modify d f) where
  length_le := by simp [Configlist.modify]
  current := List.prefix_refl _
  item _ _ := modify_item hd hitem
  fws c _ a ha := by
    rw [Configlist.modify, configAt_modify hd]
    split
    next heq => exact hfws a (heq ▸ ha)
    next => exact ha
  fplp c _ e he := by
    rw [Configlist.modify, configAt_modify hd]
    split
    next heq => exact hfplp e (heq ▸ he)
    next => exact he

theorem Closing.modify (h : Closing lemp l0 l) (hd : d ∈ l.current) (hitem : ∀ c, (f c).item = c.item)
    (hbplp : ∀ c, (f c).bplp = c.bplp) (hsize : (f (configAt l.heap d)).fws.length = lemp.nterminal + 1)
    (hfws : ∀ a, setFind (f (configAt l.heap d)).fws a = true → setFind (configAt l.heap d).fws a = true ∨
      ∃ c ∈ l.current, ∃ rest, Expands lemp (l.item c) (l.item d).1 rest ∧ (l.item d).2 = 0 ∧
        Begins lemp (rest.map lemp.toSymbol) a)
    (hfplp : ∀ e ∈ (f (configAt l.heap d)).fplp, e ∈ (configAt l.heap d).fplp ∨
      (e ∈ l.current ∧ (l.item e).2 = 0 ∧
        ∃ rest, Expands lemp (l.item d) (l.item e).1 rest ∧ ∀ x ∈ rest, Nullable lemp x)) :
    Closing lemp l0 (l.modify d f) := by
  have hlt := h.live d hd
  have hlen : (l.modify d f).heap.length = l.heap.length := by simp [Configlist.modify]
  have hcur : (l.modify d f).current = l.current := rfl
  have hit : (l.modify d f).item = l.item := funext fun c => modify_item hlt hitem
  have hat : ∀ c, configAt (l.modify d f).heap c = if c = d then f (configAt l.heap d) else configAt l.heap c :=
    fun c => configAt_modify hlt
  have hb : ∀ c, (configAt (l.modify d f).heap c).bplp = (configAt l.heap c).bplp := by
    intro c
    rw [hat]
    split
    next heq => rw [hbplp, heq]
    next => rfl
  refine ⟨h.basis, hlen ▸ h.length_le, by rw [hcur, hlen]; exact h.current, by rw [hcur, hlen]; exact h.live,
    fun c hc => ?_, fun c hc => ?_, fun c hc hno => ?_, by rw [hcur, hit]; exact h.nodup,
    by rw [hcur, hit]; exact h.closure, fun c hc => ?_, fun c hc a ha => ?_, fun c hc e he => ?_⟩
  · rw [hit, hb]
    exact h.old c hc
  · rw [hb]
    exact h.new c hc
  · rw [hat, if_neg]
    · exact h.frame c hc hno
    · rintro rfl
      rw [h.current, List.mem_append, List.mem_range'_1] at hd
      rcases hd with hd | hd
      · exact hno hd
      · exact absurd hd.1 (Nat.not_le.2 hc)
  · rw [hat]
    split
    next => exact hsize
    next => exact h.size c hc
  · rw [hat] at ha
    rw [hcur, hit]
    split at ha
    next heq =>
      subst heq
      rcases hfws a ha with ha | ha
      · exact h.fws c hd a ha
      · exact .inr ha
    next => exact h.fws c hc a ha
  · rw [hat] at he
    rw [hcur, hit]
    split at he
    next heq =>
      subst heq
      rcases hfplp e he with he | he
      · exact h.fplp c hd e he
      · exact he
    next => exact h.fplp c hc e he

/-! ## The closure -/

theorem add_spec (h : Closing lemp l0 l) (hcfp : cfp ∈ l.current) (hx : Expands lemp (l.item cfp) newrp rest) :
    Closing lemp l0 (configlistAdd lemp l newrp 0).1 ∧ Grown l (configlistAdd lemp l newrp 0).1 ∧
      (configlistAdd lemp l newrp 0).2 ∈ (configlistAdd lemp l newrp 0).1.current ∧
      (configlistAdd lemp l newrp 0).1.item (configlistAdd lemp l newrp 0).2 = (newrp, 0) := by
  unfold configlistAdd
  cases hfind : l.find newrp 0 with
  | some d =>
    obtain ⟨hd, hitem⟩ := find_eq_some hfind
    exact ⟨h, .refl l, hd, hitem⟩
  | none =>
    exact ⟨h.append hcfp hx hfind, append_grown, List.mem_append_right _ List.mem_cons_self, append_item_new⟩

theorem closureRule_eq : closureRule lemp cfp rest l newrp =
    let new := configlistAdd lemp l newrp 0
    let f := followRest lemp rest (configAt new.1.heap new.2).fws
    let l' := new.1.modify new.2 fun c => { c with fws := f.1 }
    if f.2 then l'.modify cfp fun c => { c with fplp := new.2 :: c.fplp } else l' := by
  unfold closureRule
  simp only [Configlist.modify]
  split <;> rfl

theorem Expands.rest_lt (h : Expands lemp (rp, dot) newrp rest) (hx : x ∈ rest) : x < lemp.nsymbol := by
  obtain ⟨r, r', hr, _, _, rfl⟩ := h
  exact (lemp.rhs_symbol r (Lemon.rule_mem hr) x (List.mem_of_mem_drop hx)).2

theorem closureRule_spec (h : Closing lemp l0 l) (hcfp : cfp ∈ l.current) (hx : Expands lemp (l.item cfp) newrp rest) :
    Closing lemp l0 (closureRule lemp cfp rest l newrp) ∧ Grown l (closureRule lemp cfp rest l newrp) ∧
      Linked lemp (closureRule lemp cfp rest l newrp) cfp newrp rest := by
  rw [closureRule_eq]
  obtain ⟨hc1, hg1, hd, hditem⟩ := add_spec h hcfp hx
  generalize configlistAdd lemp l newrp 0 = new at *
  obtain ⟨l1, d⟩ := new
  simp only at hc1 hg1 hd hditem ⊢
  have hcfplt := h.live cfp hcfp
  have hcfp1 : cfp ∈ l1.current := hg1.current.subset hcfp
  have hx1 : Expands lemp (l1.item cfp) newrp rest := by rwa [hg1.item cfp hcfplt]
  obtain ⟨hsize, hfind, hend⟩ := followRest_spec (fun x hxr => hx.rest_lt hxr) (hc1.size d hd)
  generalize followRest lemp rest (configAt l1.heap d).fws = f at *
  have hdlt := hc1.live d hd
  -- the follow set of the new configuration
  have hc2 : Closing lemp l0 (l1.modify d fun c => { c with fws := f.1 }) := by
    refine hc1.modify hd (fun _ => rfl) (fun _ => rfl) hsize (fun a ha => ?_) (fun e he => .inl he)
    refine ((hfind a).1 ha).imp id fun hb => ⟨cfp, hcfp1, rest, ?_, ?_, hb⟩
    · rwa [hditem]
    · rw [hditem]
  have hg2 : Grown l1 (l1.modify d fun c => { c with fws := f.1 }) :=
    modify_grown hdlt (fun _ => rfl) (fun a ha => (hfind a).2 (.inl ha)) fun e he => he
  have hfws2 : ∀ a, Begins lemp (rest.map lemp.toSymbol) a →
      setFind (configAt (l1.modify d fun c => { c with fws := f.1 }).heap d).fws a = true := by
    intro a ha
    rw [Configlist.modify, configAt_modify hdlt, if_pos rfl]
    exact (hfind a).2 (.inr ha)
  have hitem2 : (l1.modify d fun c => { c with fws := f.1 }).item d = (newrp, 0) := (hg2.item d hdlt).trans hditem
  have hcfp2 := hg2.current.subset hcfp1
  have hd2 := hg2.current.subset hd
  have hcfplt2 : cfp < (l1.modify d fun c => { c with fws := f.1 }).heap.length :=
    (hcfplt.trans_le hg1.length_le).trans_le hg2.length_le
  have hx2 : Expands lemp ((l1.modify d fun c => { c with fws := f.1 }).item cfp) newrp rest := by
    rwa [hg2.item cfp (hcfplt.trans_le hg1.length_le)]
  generalize l1.modify d (fun c => { c with fws := f.1 }) = l2 at *
  -- the link, where nothing has to come behind
  by_cases hnull : f.2 = true
  · rw [if_pos hnull]
    have hg3 : Grown l2 (l2.modify cfp fun c => { c with fplp := d :: c.fplp }) :=
      modify_grown hcfplt2 (fun _ => rfl) (fun _ ha => ha) fun e he => List.mem_cons_of_mem _ he
    refine ⟨?_, (hg1.trans hg2).trans hg3, d, hg3.current.subset hd2, ?_, fun a ha => ?_, fun _ => ?_⟩
    · refine hc2.modify hcfp2 (fun _ => rfl) (fun _ => rfl) (hc2.size cfp hcfp2) (fun a ha => .inl ha) fun e he => ?_
      rcases List.mem_cons.1 he with rfl | he
      · refine .inr ⟨hd2, by rw [hitem2], rest, ?_, hend.1 hnull⟩
        rwa [hitem2]
      · exact .inl he
    · rw [hg3.item d (hc2.live d hd2), hitem2]
    · exact hg3.fws d (hc2.live d hd2) a (hfws2 a ha)
    · rw [Configlist.modify, configAt_modify hcfplt2, if_pos rfl]
      exact List.mem_cons_self
  · rw [if_neg hnull]
    exact ⟨hc2, hg1.trans hg2, d, hd2, hitem2, hfws2, fun hn => absurd (hend.2 hn) hnull⟩

/-- All rules that the configuration asks for are there. -/
def Expanded (lemp : Lemon) (l : Configlist) (cfp : Nat) : Prop :=
  ∀ j rest, Expands lemp (l.item cfp) j rest → Linked lemp l cfp j rest

theorem Expanded.mono (h : Expanded lemp l cfp) (hg : Grown l l') (hlive : ∀ c ∈ l.current, c < l.heap.length)
    (hcfp : cfp < l.heap.length) : Expanded lemp l' cfp := by
  intro j rest hx
  rw [hg.item cfp hcfp] at hx
  exact (h j rest hx).mono hg hlive hcfp

theorem foldl_closureRule (h : Closing lemp l0 l) (hcfp : cfp ∈ l.current) (rps : List Nat)
    (hx : ∀ j ∈ rps, Expands lemp (l.item cfp) j rest) :
    Closing lemp l0 (rps.foldl (closureRule lemp cfp rest) l) ∧ Grown l (rps.foldl (closureRule lemp cfp rest) l) ∧
      ∀ j ∈ rps, Linked lemp (rps.foldl (closureRule lemp cfp rest) l) cfp j rest := by
  induction rps generalizing l with
  | nil => exact ⟨h, .refl l, by simp⟩
  | cons j rps ih =>
    obtain ⟨hj, hrps⟩ := List.forall_mem_cons.1 hx
    obtain ⟨hc, hg, hlink⟩ := closureRule_spec h hcfp hj
    have hitem := hg.item cfp (h.live cfp hcfp)
    obtain ⟨hc', hg', hlinks⟩ := ih hc (hg.current.subset hcfp) fun j' hj' => by
      rw [hitem]
      exact hrps j' hj'
    refine ⟨hc', hg.trans hg', fun j' hj' => ?_⟩
    rcases List.mem_cons.1 hj' with rfl | hj'
    · exact hlink.mono hg' hc.live ((h.live cfp hcfp).trans_le hg.length_le)
    · exact hlinks j' hj'

theorem expands_iff {r : Rule} (hr : lemp.rules[rp]? = some r) (hsp : r.rhs[dot]? = some x) {j : Nat} :
    Expands lemp (rp, dot) j rest ↔ j ∈ lemp.rulesOf x ∧ rest = r.rhs.drop (dot + 1) := by
  rw [Lemon.mem_rulesOf]
  constructor
  · intro h
    obtain ⟨r1, r', hr1, hsp1, hr', hrest⟩ := h
    cases hr.symm.trans hr1
    cases hsp.symm.trans hsp1
    exact ⟨⟨r', hr', rfl⟩, hrest⟩
  · intro h
    obtain ⟨⟨r', hr', hlhs⟩, hrest⟩ := h
    exact ⟨r, r', hr, hlhs ▸ hsp, hr', hrest⟩

/-- A configuration at the end of its rule, or before a token, asks for nothing. -/
theorem closureConfig_spec (h : Closing lemp l0 l) (hcfp : cfp ∈ l.current) :
    Closing lemp l0 (closureConfig lemp l cfp) ∧ Grown l (closureConfig lemp l cfp) ∧
      Expanded lemp (closureConfig lemp l cfp) cfp := by
  have hidle : (∀ j rest, ¬ Expands lemp (l.item cfp) j rest) →
      Closing lemp l0 l ∧ Grown l l ∧ Expanded lemp l cfp :=
    fun hno => ⟨h, .refl l, fun j rest hx => absurd hx (hno j rest)⟩
  unfold closureConfig
  cases hr : lemp.rules[(l.item cfp).1]? with
  | none =>
    apply hidle
    intro j rest hx
    obtain ⟨r, r', hr', _⟩ := hx
    rw [hr] at hr'
    cases hr'
  | some r =>
    cases hsp : r.rhs[(l.item cfp).2]? with
    | none =>
      simp only [hsp]
      apply hidle
      intro j rest hx
      obtain ⟨r1, r', hr1, hsp1, _⟩ := hx
      rw [hr] at hr1
      cases hr1
      rw [hsp] at hsp1
      cases hsp1
    | some sp =>
      simp only [hsp]
      have hexp : ∀ j rest, Expands lemp (l.item cfp) j rest ↔
          j ∈ lemp.rulesOf sp ∧ rest = r.rhs.drop ((l.item cfp).2 + 1) := fun j rest => expands_iff hr hsp
      split
      next hterm =>
        apply hidle
        intro j rest hx
        obtain ⟨r', hr', hlhs⟩ := Lemon.mem_rulesOf.1 ((hexp j rest).1 hx).1
        have hlt : sp < lemp.nterminal := of_decide_eq_true hterm
        exact absurd (lemp.lhs_nonterminal r' (Lemon.rule_mem hr')).1 (hlhs ▸ Nat.not_le.2 hlt)
      next =>
        have hall : ∀ j ∈ lemp.rulesOf sp, Expands lemp (l.item cfp) j (r.rhs.drop ((l.item cfp).2 + 1)) :=
          fun j hj => (hexp j _).2 ⟨hj, rfl⟩
        obtain ⟨hc, hg, hlinks⟩ := foldl_closureRule h hcfp (lemp.rulesOf sp) hall
        refine ⟨hc, hg, fun j rest hx => ?_⟩
        rw [hg.item cfp (h.live cfp hcfp), hexp] at hx
        obtain ⟨hj, rfl⟩ := hx
        exact hlinks j hj

/-- All rules with all places for the dot. -/
def Lemon.items (lemp : Lemon) : List (Nat × Nat) :=
  lemp.rules.zipIdx.flatMap fun e => (List.range (e.1.rhs.length + 1)).map fun k => (e.2, k)

theorem mem_items : (rp, dot) ∈ lemp.items ↔ ∃ r, lemp.rules[rp]? = some r ∧ dot ≤ r.rhs.length := by
  unfold Lemon.items
  rw [List.mem_flatMap]
  constructor
  · intro h
    obtain ⟨e, he, hk⟩ := h
    obtain ⟨k, hk, heq⟩ := List.mem_map.1 hk
    cases heq
    exact ⟨e.1, List.mem_zipIdx_iff_getElem?.1 he, Nat.le_of_lt_succ (List.mem_range.1 hk)⟩
  · intro h
    obtain ⟨r, hr, hk⟩ := h
    exact ⟨(r, rp), List.mem_zipIdx_iff_getElem?.2 hr,
      List.mem_map.2 ⟨dot, List.mem_range.2 (Nat.lt_succ_of_le hk), rfl⟩⟩

theorem length_items : lemp.items.length = lemp.nconfig := by
  unfold Lemon.items Lemon.nconfig
  rw [List.length_flatMap]
  have hfst : lemp.rules.zipIdx.map (fun e => e.1.rhs.length + 1) = lemp.rules.map fun r => r.rhs.length + 1 := by
    conv_rhs => rw [← List.zipIdx_map_fst 0 lemp.rules, List.map_map]
    rfl
  rw [← hfst]
  simp

theorem InClosure.mem_items {B : List (Nat × Nat)} (hB : ∀ x ∈ B, x ∈ lemp.items) {x : Nat × Nat}
    (h : InClosure lemp B x) : x ∈ lemp.items := by
  cases h with
  | base h => exact hB x h
  | step _ hx =>
    obtain ⟨_, r', _, _, hr', _⟩ := hx
    exact L7.mem_items.2 ⟨r', hr', Nat.zero_le _⟩

/-- The list is never longer than there are configurations. -/
theorem Closing.length_le_nconfig (h : Closing lemp l0 l) (hvalid : ∀ x ∈ l0.current.map l0.item, x ∈ lemp.items) :
    l.current.length ≤ lemp.nconfig := by
  have hsub : l.current.map l.item ⊆ lemp.items := by
    intro x hx
    obtain ⟨c, hc, rfl⟩ := List.mem_map.1 hx
    exact (h.closure c hc).mem_items hvalid
  rw [← length_items, ← List.length_map l.item]
  exact (h.nodup.subperm hsub).length_le

theorem closureLoop_spec (hvalid : ∀ x ∈ l0.current.map l0.item, x ∈ lemp.items) (n k : Nat)
    (h : Closing lemp l0 l) (hserved : ∀ i < k, ∀ c, l.current[i]? = some c → Expanded lemp l c)
    (hn : lemp.nconfig ≤ n + k) :
    Closing lemp l0 (closureLoop lemp n k l) ∧ Grown l (closureLoop lemp n k l) ∧
      ∀ c ∈ (closureLoop lemp n k l).current, Expanded lemp (closureLoop lemp n k l) c := by
  have hend : l.current.length ≤ k → ∀ c ∈ l.current, Expanded lemp l c := by
    intro hk c hc
    obtain ⟨i, hi⟩ := List.mem_iff_getElem?.1 hc
    exact hserved i ((List.getElem?_eq_some_iff.1 hi).1.trans_le hk) c hi
  induction n generalizing k l with
  | zero =>
    have hk : l.current.length ≤ k := (h.length_le_nconfig hvalid).trans (by omega)
    exact ⟨h, .refl l, hend hk⟩
  | succ n ih =>
    unfold closureLoop
    cases hcfp : l.current[k]? with
    | none => exact ⟨h, .refl l, hend (List.getElem?_eq_none_iff.1 hcfp)⟩
    | some cfp =>
      have hmem := List.mem_of_getElem? hcfp
      have hklt := (List.getElem?_eq_some_iff.1 hcfp).1
      obtain ⟨hc, hg, hs⟩ := closureConfig_spec h hmem
      have hserved' : ∀ i < k + 1, ∀ c, (closureConfig lemp l cfp).current[i]? = some c →
          Expanded lemp (closureConfig lemp l cfp) c := by
        intro i hi c hci
        have hsame : l.current[i]? = some c := by
          obtain ⟨t, ht⟩ := hg.current
          rw [← hci, ← ht, List.getElem?_append_left (by omega)]
        rcases Nat.lt_succ_iff_lt_or_eq.1 hi with hlt | rfl
        · exact (hserved i hlt c hsame).mono hg h.live (h.live c (List.mem_of_getElem? hsame))
        · rw [hcfp] at hsame
          cases hsame
          exact hs
      obtain ⟨hc', hg', hall⟩ := ih (k + 1) hc hserved' (by omega) fun hk c hc => by
        obtain ⟨i, hi⟩ := List.mem_iff_getElem?.1 hc
        exact hserved' i ((List.getElem?_eq_some_iff.1 hi).1.trans_le hk) c hi
      exact ⟨hc', hg.trans hg', hall⟩

/-- What a list of basis configurations has to be. -/
structure BasisOk (lemp : Lemon) (l : Configlist) : Prop where
  live : ∀ c ∈ l.current, c < l.heap.length
  nodup : (l.current.map l.item).Nodup
  valid : ∀ c ∈ l.current, l.item c ∈ lemp.items
  size : ∀ c ∈ l.current, (configAt l.heap c).fws.length = lemp.nterminal + 1
  fplp : ∀ c ∈ l.current, (configAt l.heap c).fplp = []

theorem BasisOk.closing (h : BasisOk lemp l) : Closing lemp l l where
  basis := rfl
  length_le := Nat.le_refl _
  current := by simp
  live := h.live
  old _ _ := ⟨rfl, rfl⟩
  new c hc := by rw [configAt_of_le hc]
  frame _ _ _ := rfl
  nodup := h.nodup
  closure c hc := .base (List.mem_map_of_mem hc)
  size := h.size
  fws c hc a ha := .inl ⟨hc, ha⟩
  fplp c hc d hd := by
    rw [h.fplp c hc] at hd
    cases hd

/-- **`Configlist_closure` ends with the closure of the list**: nothing asked for is missing. -/
theorem closure_served (h : BasisOk lemp l) :
    Closing lemp l (configlistClosure lemp l) ∧ Grown l (configlistClosure lemp l) ∧
      ∀ c ∈ (configlistClosure lemp l).current, Expanded lemp (configlistClosure lemp l) c := by
  refine closureLoop_spec (fun x hx => ?_) lemp.nconfig 0 h.closing (fun i hi => absurd hi (Nat.not_lt_zero i))
    (Nat.le_refl _)
  obtain ⟨c, hc, rfl⟩ := List.mem_map.1 hx
  exact h.valid c hc

/-- **The configurations of the list are those of the closure**, and no other. -/
theorem closure_items (h : BasisOk lemp l) {x : Nat × Nat} :
    (∃ c ∈ (configlistClosure lemp l).current, (configlistClosure lemp l).item c = x) ↔
      InClosure lemp (l.current.map l.item) x := by
  obtain ⟨hclosing, hgrown, hserved⟩ := closure_served h
  constructor
  · intro hx
    obtain ⟨c, hc, rfl⟩ := hx
    exact hclosing.closure c hc
  · intro hx
    induction hx with
    | base hmem =>
      obtain ⟨c, hc, rfl⟩ := List.mem_map.1 hmem
      exact ⟨c, hgrown.current.subset hc, hgrown.item c (h.live c hc)⟩
    | step _ hexp ih =>
      obtain ⟨c, hc, rfl⟩ := ih
      obtain ⟨d, hd, hitem, _⟩ := hserved c hc _ _ hexp
      exact ⟨d, hd, hitem⟩

end Dbsql.L7
