import Dbsql.L7Lemon.Actions
import Dbsql.L7Lemon.Configs
import Mathlib.Data.Finset.Powerset
/-!
# Making the states (lemon.c, FindStates, getstate and buildshifts)

`getstate` looks for a state with the basis at hand. Where there is one the links of the new
configurations go over to the ones there; otherwise the closure is a new state, and
`buildshifts` makes the states it can shift to, each by `getstate`. So the states are made depth
first, and while one is made the shifts of those above are not all there.

The calls of `getstate` are bounded: every call within another has one state more to compare with,
and there are not more bases than sets of configurations. `status` is local to a call of
`buildshifts`, which reads and writes it for the configurations of its own state only.

Results:
* `Inv`: what holds of the states and the links at every moment.
* `Later`: what is never taken back.
* `Done`: a state that has the shifts of all its configurations.
-/
namespace Dbsql.L7
open Dbsql.Core

/-- `struct state` (lemon.c:233-241) while the states are made: its index is its place. -/
structure State where
  bp : List Nat
  cfp : List Nat
  ap : List Action

/-- The memory and the states so far. -/
structure Build where
  heap : List Config
  states : List State

def itemAt (heap : List Config) (cfp : Nat) : Nat × Nat := (configAt heap cfp).item

/-- `Configcmp` (lemon.c:4074-4082). -/
def configcmp (heap : List Config) (a b : Nat) : Int :=
  let x := ((configAt heap a).rp : Int) - (configAt heap b).rp
  if x = 0 then ((configAt heap a).dot : Int) - (configAt heap b).dot else x

/-- `statecmp` (lemon.c:4085-4099). -/
def statecmp (heap : List Config) : List Nat → List Nat → Int
  | [], [] => 0
  | _ :: _, [] => 1
  | [], _ :: _ => -1
  | a :: as, b :: bs => if configcmp heap a b = 0 then statecmp heap as bs else configcmp heap a b

/-- `State_find`. -/
def stateFind (b : Build) (bp : List Nat) : Option Nat :=
  b.states.findIdx? fun stp => statecmp b.heap stp.bp bp = 0

/-- `Plink_copy` (lemon.c:2483-2494). -/
def plinkCopy (dst src : List Nat) : List Nat := src.foldl (fun dst cfp => cfp :: dst) dst

/-- The loop that hands the links over (lemon.c:766-770). -/
def copyLinks (heap : List Config) (bp ybp : List Nat) : List Config :=
  (bp.zip ybp).foldl (fun heap e =>
    let heap := heap.modify e.2 fun y => { y with bplp := plinkCopy y.bplp (configAt heap e.1).bplp }
    heap.modify e.1 fun x => { x with fplp := [], bplp := [] }) heap

section
variable (lemp : Lemon)

/-- The symbol behind the dot. -/
def nextSymbol (x : Nat × Nat) : Option Nat := (lemp.rules[x.1]?).bind fun rp => rp.rhs[x.2]?

/-- One round of the inner loop of `buildshifts` (lemon.c:818-826): what is COMPLETE, and the new
basis. -/
def basisStep (sp : Nat) (st : List Nat × Configlist) (bcfp : Nat) : List Nat × Configlist :=
  if bcfp ∈ st.1 then st
  else if nextSymbol lemp (st.2.item bcfp) ≠ some sp then st
  else
    let new := configlistAddbasis lemp st.2 (st.2.item bcfp).1 ((st.2.item bcfp).2 + 1)
    (bcfp :: st.1, new.1.modify new.2 fun c => { c with bplp := bcfp :: c.bplp })

/-- `Action_add` (lemon.c:400-416) to the state `stp`. -/
def Build.addAction (b : Build) (stp : Nat) (ap : Action) : Build :=
  { b with states := b.states.modify stp fun st => { st with ap := ap :: st.ap } }

/-- The loop of `buildshifts` (lemon.c:807-835) from here on, `rec` being `getstate`. -/
def buildshiftsLoop (rec : List State → Configlist → Build × Nat) (stp : Nat) :
    List Nat → List Nat → Build → Build
  | [], _, b => b
  | cfp :: next, complete, b =>
    if cfp ∈ complete then buildshiftsLoop rec stp next complete b
    else
      match nextSymbol lemp (itemAt b.heap cfp) with
      | none => buildshiftsLoop rec stp next complete b
      | some sp =>
        let st := (cfp :: next).foldl (basisStep lemp sp) (complete, ⟨b.heap, [], []⟩)
        let newstp := rec b.states st.2
        buildshiftsLoop rec stp next st.1 (newstp.1.addAction stp ⟨sp, .SHIFT, newstp.2⟩)

/-- `getstate` (lemon.c:747-789), with so many calls inside each other at most. -/
def getstate : Nat → List State → Configlist → Build × Nat
  | 0, states, l => (⟨l.heap, states⟩, 0)
  | n + 1, states, l =>
    let bp := MSort.msort (configcmp l.heap) l.basis
    match stateFind ⟨l.heap, states⟩ bp with
    | some i => (⟨copyLinks l.heap bp (states.getD i ⟨[], [], []⟩).bp, states⟩, i)
    | none =>
      let l' := configlistClosure lemp l
      let cfp := MSort.msort (configcmp l'.heap) l'.current
      (buildshiftsLoop lemp (getstate n) states.length cfp [] ⟨l'.heap, states ++ [⟨bp, cfp, []⟩]⟩, states.length)

/-- The basis of the first state (lemon.c:730-734). -/
def startBasis : Configlist :=
  (lemp.rulesOf lemp.startSymbol).foldl (fun l rp =>
    let newcfp := configlistAddbasis lemp l rp 0
    newcfp.1.modify newcfp.2 fun c => { c with fws := (setAdd c.fws 0).1 }) ⟨[], [], []⟩

/-- `FindStates` (lemon.c:688-740). -/
def findStates : Build := (getstate lemp (2 ^ lemp.nconfig + 1) [] (startBasis lemp)).1

end

/-! ## Bases in order -/

variable {lemp : Lemon} {heap heap' : List Config} {ids ids' : List Nat} {c d : Nat} {x y : Nat × Nat}

/-- The order of `Configcmp`. -/
def ItemLt (x y : Nat × Nat) : Prop := x.1 < y.1 ∨ (x.1 = y.1 ∧ x.2 < y.2)

theorem ItemLt.trans {z : Nat × Nat} (h : ItemLt x y) (h' : ItemLt y z) : ItemLt x z := by
  unfold ItemLt at *
  omega

theorem ItemLt.irrefl (x : Nat × Nat) : ¬ ItemLt x x := by
  unfold ItemLt
  omega

theorem ItemLt.ne (h : ItemLt x y) : x ≠ y := by
  intro heq
  exact ItemLt.irrefl y (heq ▸ h)

theorem ItemLt.total (x y : Nat × Nat) : ItemLt x y ∨ x = y ∨ ItemLt y x := by
  have hext : x = y ↔ x.1 = y.1 ∧ x.2 = y.2 := Prod.ext_iff
  unfold ItemLt
  rw [hext]
  omega

theorem configcmp_lt : configcmp heap c d < 0 ↔ ItemLt (itemAt heap c) (itemAt heap d) := by
  unfold configcmp ItemLt itemAt Config.item
  simp only
  split <;> omega

theorem configcmp_zero : configcmp heap c d = 0 ↔ itemAt heap c = itemAt heap d := by
  unfold configcmp itemAt Config.item
  simp only [Prod.mk.injEq]
  split <;> omega

theorem leOf_configcmp : MSort.leOf (configcmp heap) c d = true ↔ ¬ ItemLt (itemAt heap d) (itemAt heap c) := by
  unfold MSort.leOf
  rw [Bool.not_eq_true', decide_eq_false_iff_not, configcmp_lt]

theorem configcmp_preorder (ids : List Nat) : BinSort.PreorderOn (MSort.leOf (configcmp heap)) ids := by
  constructor
  · intro a _ b _
    rw [Bool.or_eq_true, leOf_configcmp, leOf_configcmp]
    unfold ItemLt
    omega
  · intro a _ b _ c _ hab hbc
    rw [leOf_configcmp] at *
    unfold ItemLt at *
    omega

/-- A sorted list of configurations that are all different is strictly in order. -/
theorem msort_sorted (hlen : ids.length < 2 ^ 30) (hnodup : (ids.map (itemAt heap)).Nodup) :
    ((MSort.msort (configcmp heap) ids).map (itemAt heap)).Pairwise ItemLt := by
  have hsort : BinSort.StableSort (MSort.leOf (configcmp heap)) ids (MSort.msort (configcmp heap) ids) :=
    MSort.msort_stable hlen (configcmp_preorder ids)
  have hnodup' : ((MSort.msort (configcmp heap) ids).map (itemAt heap)).Nodup :=
    (hsort.perm.map (itemAt heap)).nodup_iff.2 hnodup
  rw [List.pairwise_map]
  have hle := hsort.sorted
  rw [List.Nodup, List.pairwise_map] at hnodup'
  refine (hle.and hnodup').imp fun h => ?_
  obtain ⟨hle, hne⟩ := h
  rcases ItemLt.total (itemAt heap _) (itemAt heap _) with hlt | heq | hgt
  · exact hlt
  · exact absurd heq hne
  · exact absurd hgt (leOf_configcmp.1 hle)

theorem mem_msort (hlen : ids.length < 2 ^ 30) : c ∈ MSort.msort (configcmp heap) ids ↔ c ∈ ids :=
  (MSort.msort_perm hlen).mem_iff

/-- Sorted lists with the same elements are the same. -/
theorem eq_of_sorted {l l' : List (Nat × Nat)} (h : l.Pairwise ItemLt) (h' : l'.Pairwise ItemLt)
    (hmem : ∀ x, x ∈ l ↔ x ∈ l') : l = l' := by
  have hn : l.Nodup := h.imp ItemLt.ne
  have hn' : l'.Nodup := h'.imp ItemLt.ne
  have hperm : l.Perm l' := (List.perm_ext_iff_of_nodup hn hn').2 hmem
  exact hperm.eq_of_pairwise (fun a b _ _ hab hba => absurd (hab.trans hba) (ItemLt.irrefl a)) h h'

theorem statecmp_zero : statecmp heap ids ids' = 0 ↔ ids.map (itemAt heap) = ids'.map (itemAt heap) := by
  induction ids generalizing ids' with
  | nil => cases ids' <;> simp [statecmp]
  | cons a ids ih =>
    cases ids' with
    | nil => simp [statecmp]
    | cons b ids' =>
      unfold statecmp
      rw [List.map_cons, List.map_cons, List.cons.injEq, ← configcmp_zero]
      split
      next h => simp [h, ih]
      next h => simp [h]

/-- There are not more bases than sets of configurations. -/
theorem length_bases_le {bases : List (List (Nat × Nat))} (hnodup : bases.Nodup)
    (hsorted : ∀ B ∈ bases, B.Pairwise ItemLt) (hitems : ∀ B ∈ bases, ∀ x ∈ B, x ∈ lemp.items) :
    bases.length ≤ 2 ^ lemp.nconfig := by
  have hinj : (bases.map List.toFinset).Nodup := by
    refine (List.nodup_map_iff_inj_on hnodup).2 fun B hB B' hB' heq => ?_
    refine eq_of_sorted (hsorted B hB) (hsorted B' hB') fun x => ?_
    rw [← List.mem_toFinset, heq, List.mem_toFinset]
  have hsub : (bases.map List.toFinset).toFinset ⊆ lemp.items.toFinset.powerset := by
    intro S hS
    obtain ⟨B, hB, rfl⟩ := List.mem_map.1 (List.mem_toFinset.1 hS)
    rw [Finset.mem_powerset]
    intro x hx
    exact List.mem_toFinset.2 (hitems B hB x (List.mem_toFinset.1 hx))
  calc bases.length = (bases.map List.toFinset).toFinset.card := by
        rw [List.toFinset_card_of_nodup hinj, List.length_map]
    _ ≤ lemp.items.toFinset.powerset.card := Finset.card_le_card hsub
    _ = 2 ^ lemp.items.toFinset.card := Finset.card_powerset _
    _ ≤ 2 ^ lemp.nconfig := Nat.pow_le_pow_right (by decide) (length_items ▸ List.toFinset_card_le _)

/-! ## What holds of the states -/

/-- The configurations of a state, as a list in the memory. -/
def State.list (st : State) (heap : List Config) : Configlist := ⟨heap, st.cfp, st.bp⟩

/-- A state is the closure of its basis, with the follow sets and links inside it. -/
structure StateOk (lemp : Lemon) (l : Configlist) : Prop where
  live : ∀ c ∈ l.current, c < l.heap.length
  basis : ∀ c ∈ l.basis, c ∈ l.current
  sorted : (l.basis.map l.item).Pairwise ItemLt
  valid : ∀ c ∈ l.basis, l.item c ∈ lemp.items
  nodup : (l.current.map l.item).Nodup
  items : ∀ x, (∃ c ∈ l.current, l.item c = x) ↔ InClosure lemp (l.basis.map l.item) x
  size : ∀ c ∈ l.current, (configAt l.heap c).fws.length = lemp.nterminal + 1
  expanded : ∀ c ∈ l.current, Expanded lemp l c
  fws : ∀ c ∈ l.current, ∀ a, setFind (configAt l.heap c).fws a = true →
    (c ∈ l.basis ∧ (l.item c).2 = 0 ∧ a = 0) ∨
      ∃ d ∈ l.current, ∃ rest, Expands lemp (l.item d) (l.item c).1 rest ∧ (l.item c).2 = 0 ∧
        Begins lemp (rest.map lemp.toSymbol) a
  fplp : ∀ c ∈ l.current, ∀ d ∈ (configAt l.heap c).fplp,
    d ∈ l.current ∧ (l.item d).2 = 0 ∧
      ∃ rest, Expands lemp (l.item c) (l.item d).1 rest ∧ ∀ x ∈ rest, Nullable lemp x

/-- The configuration is one of the state `q`. -/
def Build.At (b : Build) (q c : Nat) : Prop := ∃ st, b.states[q]? = some st ∧ c ∈ st.cfp

/-- The basis of a state, as what it says. -/
def Build.bases (b : Build) : List (List (Nat × Nat)) := b.states.map fun st => st.bp.map (itemAt b.heap)

/-- The same item with the dot one further. -/
def advance (x : Nat × Nat) : Nat × Nat := (x.1, x.2 + 1)

/-- `q'` is the state that `q` shifts `X` to: its basis is what stands before `X`, dot behind it. -/
def Goto (lemp : Lemon) (b : Build) (q X q' : Nat) : Prop :=
  (∃ c, b.At q c ∧ nextSymbol lemp (itemAt b.heap c) = some X) ∧
    ∃ st', b.states[q']? = some st' ∧ ∀ x, x ∈ st'.bp.map (itemAt b.heap) ↔
      ∃ c, b.At q c ∧ nextSymbol lemp (itemAt b.heap c) = some X ∧ x = advance (itemAt b.heap c)

/-- What holds of the states and links at every moment. -/
structure Inv (lemp : Lemon) (b : Build) : Prop where
  ok : ∀ st ∈ b.states, StateOk lemp (st.list b.heap)
  apart : ∀ q q' c, b.At q c → b.At q' c → q = q'
  bases : b.bases.Nodup
  start : ∀ st, b.states[0]? = some st →
    (∀ x, x ∈ st.bp.map (itemAt b.heap) ↔ x.2 = 0 ∧ x.1 ∈ lemp.rulesOf lemp.startSymbol) ∧
      ∀ c ∈ st.bp, setFind (configAt b.heap c).fws 0 = true
  later : ∀ q st, b.states[q + 1]? = some st → ∀ c ∈ st.bp, 0 < (itemAt b.heap c).2
  links : ∀ q c, b.At q c → ∀ d ∈ (configAt b.heap c).bplp, ∃ q' X, b.At q' d ∧
    nextSymbol lemp (itemAt b.heap d) = some X ∧ itemAt b.heap c = advance (itemAt b.heap d) ∧ Goto lemp b q' X q
  acts : ∀ q st, b.states[q]? = some st → ∀ ap ∈ st.ap, ap.type = .SHIFT ∧ Goto lemp b q ap.sp ap.x
  one : ∀ st ∈ b.states, (st.ap.map Action.sp).Nodup
  made : ∀ q, q + 1 < b.states.length → ∃ q' ≤ q, ∃ X, Goto lemp b q' X (q + 1)

/-- What is never taken back. -/
structure Later (b b' : Build) : Prop where
  length_le : b.heap.length ≤ b'.heap.length
  config : ∀ q c, b.At q c → itemAt b'.heap c = itemAt b.heap c ∧
    (configAt b'.heap c).fws = (configAt b.heap c).fws ∧ (configAt b'.heap c).fplp = (configAt b.heap c).fplp ∧
    ∀ d ∈ (configAt b.heap c).bplp, d ∈ (configAt b'.heap c).bplp
  state : ∀ (q : Nat) (st : State), b.states[q]? = some st →
    ∃ st' : State, b'.states[q]? = some st' ∧ st'.bp = st.bp ∧ st'.cfp = st.cfp ∧ ∀ ap ∈ st.ap, ap ∈ st'.ap

/-- The shift that the configuration asks for is there, and the link that goes with it. -/
def ShiftDone (lemp : Lemon) (b : Build) (q c : Nat) : Prop :=
  ∀ X, nextSymbol lemp (itemAt b.heap c) = some X →
    ∃ st st' ap d, b.states[q]? = some st ∧ ap ∈ st.ap ∧ ap.sp = X ∧ b.states[ap.x]? = some st' ∧ d ∈ st'.bp ∧
      itemAt b.heap d = advance (itemAt b.heap c) ∧ c ∈ (configAt b.heap d).bplp

/-- All shifts of a state are there. -/
def Done (lemp : Lemon) (b : Build) (q : Nat) : Prop := ∀ c, b.At q c → ShiftDone lemp b q c

variable {b b' b'' : Build} {q q' X : Nat} {st : State}

theorem Later.refl (b : Build) : Later b b :=
  ⟨Nat.le_refl _, fun _ _ _ => ⟨rfl, rfl, rfl, fun _ h => h⟩, fun _ st h => ⟨st, h, rfl, rfl, fun _ h => h⟩⟩

theorem Later.at (h : Later b b') (hc : b.At q c) : b'.At q c := by
  obtain ⟨st, hst, hmem⟩ := hc
  obtain ⟨st', hst', _, hcfp, _⟩ := h.state q st hst
  exact ⟨st', hst', hcfp ▸ hmem⟩

theorem Later.of_at (h : Later b b') (hq : q < b.states.length) (hc : b'.At q c) : b.At q c := by
  obtain ⟨st', hst', hmem⟩ := hc
  obtain ⟨st'', hst'', _, hcfp, _⟩ := h.state q _ (List.getElem?_eq_getElem hq)
  rw [hst'] at hst''
  cases hst''
  exact ⟨_, List.getElem?_eq_getElem hq, hcfp ▸ hmem⟩

theorem Build.At.lt (h : b.At q c) : q < b.states.length := by
  obtain ⟨st, hst, _⟩ := h
  exact (List.getElem?_eq_some_iff.1 hst).1

theorem Later.trans (h : Later b b') (h' : Later b' b'') : Later b b'' where
  length_le := h.length_le.trans h'.length_le
  config q c hc := by
    obtain ⟨h1, h2, h3, h4⟩ := h.config q c hc
    obtain ⟨h1', h2', h3', h4'⟩ := h'.config q c (h.at hc)
    exact ⟨h1'.trans h1, h2'.trans h2, h3'.trans h3, fun d hd => h4' d (h4 d hd)⟩
  state q st hst := by
    obtain ⟨st', hst', hbp, hcfp, hap⟩ := h.state q st hst
    obtain ⟨st'', hst'', hbp', hcfp', hap'⟩ := h'.state q st' hst'
    exact ⟨st'', hst'', hbp'.trans hbp, hcfp'.trans hcfp, fun ap hmem => hap' ap (hap ap hmem)⟩

/-- The items of a basis stay what they are. -/
theorem Later.basis (h : Later b b') (hinv : Inv lemp b) {st' : State} (hst : b.states[q]? = some st)
    (hst' : b'.states[q]? = some st') : st'.bp = st.bp ∧ st'.bp.map (itemAt b'.heap) = st.bp.map (itemAt b.heap) := by
  obtain ⟨st'', hst'', hbp, _⟩ := h.state q st hst
  rw [hst'] at hst''
  cases hst''
  refine ⟨hbp, ?_⟩
  rw [hbp]
  refine List.map_congr_left fun c hc => (h.config q c ⟨st, hst, ?_⟩).1
  exact (hinv.ok st (List.mem_of_getElem? hst)).basis c hc

theorem Goto.mono (h : Goto lemp b q X q') (hinv : Inv lemp b) (hl : Later b b') : Goto lemp b' q X q' := by
  obtain ⟨⟨c, hc, hX⟩, st', hst', hbasis⟩ := h
  have hitem : ∀ c, b.At q c → itemAt b'.heap c = itemAt b.heap c := fun c hc => (hl.config q c hc).1
  obtain ⟨st'', hst'', _⟩ := hl.state q' st' hst'
  refine ⟨⟨c, hl.at hc, by rw [hitem c hc]; exact hX⟩, st'', hst'', fun x => ?_⟩
  rw [(hl.basis hinv hst' hst'').2, hbasis]
  constructor
  · intro hx
    obtain ⟨d, hd, hdX, rfl⟩ := hx
    exact ⟨d, hl.at hd, by rw [hitem d hd]; exact hdX, by rw [hitem d hd]⟩
  · intro hx
    obtain ⟨d, hd, hdX, rfl⟩ := hx
    have hd' := hl.of_at hc.lt hd
    rw [hitem d hd'] at hdX ⊢
    exact ⟨d, hd', hdX, rfl⟩

theorem ShiftDone.mono (h : ShiftDone lemp b q c) (hinv : Inv lemp b) (hl : Later b b') (hc : b.At q c) :
    ShiftDone lemp b' q c := by
  intro X hX
  rw [(hl.config q c hc).1] at hX
  obtain ⟨st, st', ap, d, hst, hap, hsp, hst', hd, hitem, hlink⟩ := h X hX
  obtain ⟨st2, hst2, _, _, hap2⟩ := hl.state q st hst
  obtain ⟨st2', hst2', hbp2, _⟩ := hl.state ap.x st' hst'
  have hat : b.At ap.x d := ⟨st', hst', (hinv.ok st' (List.mem_of_getElem? hst')).basis d hd⟩
  obtain ⟨hitem2, _, _, hbplp⟩ := hl.config ap.x d hat
  exact ⟨st2, st2', ap, d, hst2, hap2 ap hap, hsp, hst2', hbp2 ▸ hd, by rw [hitem2, (hl.config q c hc).1, hitem],
    hbplp c hlink⟩

theorem Done.mono (h : Done lemp b q) (hinv : Inv lemp b) (hl : Later b b') (hq : q < b.states.length) :
    Done lemp b' q := fun c hc => by
  have hc' := hl.of_at hq hc
  exact (h c hc').mono hinv hl hc'

/-! ## A new state -/

variable {l l' l2 : Configlist} {B B' : List (Nat × Nat)}

theorem InClosure.congr (hB : ∀ x ∈ B, x ∈ B') (h : InClosure lemp B x) : InClosure lemp B' x := by
  induction h with
  | base hmem => exact .base (hB _ hmem)
  | step _ hx ih => exact .step ih hx

theorem Expanded.congr (h : Expanded lemp l c) (hitem : ∀ c ∈ l.current, l2.item c = l.item c)
    (hfws : ∀ c ∈ l.current, (configAt l2.heap c).fws = (configAt l.heap c).fws)
    (hfplp : ∀ c ∈ l.current, (configAt l2.heap c).fplp = (configAt l.heap c).fplp)
    (hcur : ∀ c, c ∈ l.current → c ∈ l2.current) (hc : c ∈ l.current) : Expanded lemp l2 c := by
  intro j rest hx
  rw [hitem c hc] at hx
  obtain ⟨d, hd, hdi, hb, hlink⟩ := h j rest hx
  refine ⟨d, hcur d hd, by rw [hitem d hd, hdi], fun a ha => ?_, fun hn => ?_⟩
  · rw [hfws d hd]
    exact hb a ha
  · rw [hfplp c hc]
    exact hlink hn

theorem nconfig_lt (lemp : Lemon) : lemp.nconfig < 2 ^ 30 := lemp.items_small

theorem BasisOk.length_lt (h : BasisOk lemp l) : l.current.length < 2 ^ 30 := by
  refine (h.closing.length_le_nconfig fun x hx => ?_).trans_lt (nconfig_lt lemp)
  obtain ⟨c, hc, rfl⟩ := List.mem_map.1 hx
  exact h.valid c hc

/-- The state that `getstate` makes of a basis. -/
def newState (lemp : Lemon) (l : Configlist) : State :=
  ⟨MSort.msort (configcmp l.heap) l.basis,
    MSort.msort (configcmp (configlistClosure lemp l).heap) (configlistClosure lemp l).current, []⟩

theorem mem_newState_cfp (h : BasisOk lemp l) : c ∈ (newState lemp l).cfp ↔ c ∈ (configlistClosure lemp l).current := by
  obtain ⟨hclosing, _⟩ := closure_served h
  refine mem_msort ((hclosing.length_le_nconfig fun x hx => ?_).trans_lt (nconfig_lt lemp))
  obtain ⟨c, hc, rfl⟩ := List.mem_map.1 hx
  exact h.valid c hc

theorem mem_newState_bp (h : BasisOk lemp l) (hsame : l.basis = l.current) : c ∈ (newState lemp l).bp ↔ c ∈ l.current := by
  rw [← hsame]
  exact mem_msort (by rw [hsame]; exact h.length_lt)

theorem newState_ok (h : BasisOk lemp l) (hsame : l.basis = l.current)
    (hfws : ∀ c ∈ l.current, ∀ a, setFind (configAt l.heap c).fws a = true → (l.item c).2 = 0 ∧ a = 0) :
    StateOk lemp ((newState lemp l).list (configlistClosure lemp l).heap) := by
  obtain ⟨hclosing, hgrown, hexpanded⟩ := closure_served h
  have hbp : ∀ c, c ∈ (newState lemp l).bp ↔ c ∈ l.current := fun c => mem_newState_bp h hsame
  have hcfp : ∀ c, c ∈ (newState lemp l).cfp ↔ c ∈ (configlistClosure lemp l).current := fun c => mem_newState_cfp h
  have hitem : ∀ c ∈ l.current, (configlistClosure lemp l).item c = l.item c := fun c hc => hgrown.item c (h.live c hc)
  have hbasis : (newState lemp l).bp.map (configlistClosure lemp l).item = (newState lemp l).bp.map l.item :=
    List.map_congr_left fun c hc => hitem c ((hbp c).1 hc)
  have hmem : ∀ x, x ∈ (newState lemp l).bp.map l.item ↔ x ∈ l.current.map l.item := by
    intro x
    simp only [List.mem_map, hbp]
  have hlen : l.basis.length < 2 ^ 30 := by
    rw [hsame]
    exact h.length_lt
  have hnodup : (l.basis.map l.item).Nodup := by
    rw [hsame]
    exact h.nodup
  have hperm : (newState lemp l).cfp.Perm (configlistClosure lemp l).current := by
    refine MSort.msort_perm ((hclosing.length_le_nconfig fun x hx => ?_).trans_lt (nconfig_lt lemp))
    obtain ⟨c, hc, rfl⟩ := List.mem_map.1 hx
    exact h.valid c hc
  refine ⟨fun c hc => hclosing.live c ((hcfp c).1 hc),
    fun c hc => (hcfp c).2 (hgrown.current.subset ((hbp c).1 hc)), ?_, fun c hc => ?_,
    (hperm.map _).nodup_iff.2 hclosing.nodup, fun x => ?_, fun c hc => hclosing.size c ((hcfp c).1 hc), fun c hc => ?_,
    fun c hc a ha => ?_, fun c hc d hd => ?_⟩
  · change ((newState lemp l).bp.map (configlistClosure lemp l).item).Pairwise ItemLt
    rw [hbasis]
    exact msort_sorted hlen hnodup
  · have hc' := (hbp c).1 hc
    change (configlistClosure lemp l).item c ∈ lemp.items
    rw [hitem c hc']
    exact h.valid c hc'
  · change (∃ c ∈ (newState lemp l).cfp, (configlistClosure lemp l).item c = x) ↔
      InClosure lemp ((newState lemp l).bp.map (configlistClosure lemp l).item) x
    rw [hbasis]
    simp only [hcfp]
    rw [closure_items h]
    exact ⟨.congr fun x => (hmem x).2, .congr fun x => (hmem x).1⟩
  · have hc' := (hcfp c).1 hc
    exact (hexpanded c hc').congr (fun _ _ => rfl) (fun _ _ => rfl) (fun _ _ => rfl) (fun d hd => (hcfp d).2 hd) hc'
  · rcases hclosing.fws c ((hcfp c).1 hc) a ha with ⟨hcur, ha⟩ | ⟨d, hd, hs⟩
    · obtain ⟨hdot, ha⟩ := hfws c hcur a ha
      refine .inl ⟨(hbp c).2 hcur, ?_, ha⟩
      change ((configlistClosure lemp l).item c).2 = 0
      rw [hitem c hcur]
      exact hdot
    · exact .inr ⟨d, (hcfp d).2 hd, hs⟩
  · obtain ⟨hmem, hs⟩ := hclosing.fplp c ((hcfp c).1 hc) d hd
    exact ⟨(hcfp d).2 hmem, hs⟩

theorem StateOk.congr (h : StateOk lemp l) (hcur : l2.current = l.current) (hbasis : l2.basis = l.basis)
    (hlen : l.heap.length ≤ l2.heap.length)
    (hitem : ∀ c ∈ l.current, l2.item c = l.item c)
    (hfws : ∀ c ∈ l.current, (configAt l2.heap c).fws = (configAt l.heap c).fws)
    (hfplp : ∀ c ∈ l.current, (configAt l2.heap c).fplp = (configAt l.heap c).fplp) : StateOk lemp l2 := by
  have hb : l2.basis.map l2.item = l.basis.map l.item := by
    rw [hbasis]
    exact List.map_congr_left fun c hc => hitem c (h.basis c hc)
  have hcs : l2.current.map l2.item = l.current.map l.item := by
    rw [hcur]
    exact List.map_congr_left hitem
  refine ⟨?_, ?_, hb ▸ h.sorted, ?_, hcs ▸ h.nodup, fun x => ?_, ?_, ?_, ?_, ?_⟩
  · rw [hcur]
    exact fun c hc => (h.live c hc).trans_le hlen
  · rw [hbasis, hcur]
    exact h.basis
  · intro c hc
    rw [hbasis] at hc
    rw [hitem c (h.basis c hc)]
    exact h.valid c hc
  · rw [hb, ← h.items, hcur]
    constructor
    · intro hx
      obtain ⟨c, hc, rfl⟩ := hx
      exact ⟨c, hc, (hitem c hc).symm⟩
    · intro hx
      obtain ⟨c, hc, rfl⟩ := hx
      exact ⟨c, hc, hitem c hc⟩
  all_goals
    intro c hc
    rw [hcur] at hc
  · rw [hfws c hc]
    exact h.size c hc
  · exact (h.expanded c hc).congr hitem hfws hfplp (fun c hc => hcur ▸ hc) hc
  · intro a ha
    rw [hfws c hc] at ha
    rw [hbasis, hcur, hitem c hc]
    refine (h.fws c hc a ha).imp id fun hs => ?_
    obtain ⟨d, hd, rest, hx⟩ := hs
    refine ⟨d, hd, rest, ?_⟩
    rw [hitem d hd]
    exact hx
  · intro d hd
    rw [hfplp c hc] at hd
    obtain ⟨hmem, hx⟩ := h.fplp c hc d hd
    rw [hcur, hitem c hc, hitem d hmem]
    exact ⟨hmem, hx⟩

/-- What holds of the states does not depend on the links back, nor on what is not in a state. -/
theorem Inv.relink {states : List State} (h : Inv lemp ⟨heap, states⟩) (hlater : Later ⟨heap, states⟩ ⟨heap', states⟩)
    (hlinks : ∀ q c, (Build.mk heap states).At q c → ∀ d ∈ (configAt heap' c).bplp,
      d ∈ (configAt heap c).bplp ∨ ∃ q' X, (Build.mk heap states).At q' d ∧
        nextSymbol lemp (itemAt heap d) = some X ∧ itemAt heap c = advance (itemAt heap d) ∧
        Goto lemp ⟨heap, states⟩ q' X q) : Inv lemp ⟨heap', states⟩ := by
  have hat : ∀ q c, (Build.mk heap' states).At q c ↔ (Build.mk heap states).At q c := fun q c => Iff.rfl
  have hitem : ∀ q c, (Build.mk heap states).At q c → itemAt heap' c = itemAt heap c :=
    fun q c hc => (hlater.config q c hc).1
  have hmem : ∀ st ∈ states, ∀ c ∈ st.cfp, ∃ q, (Build.mk heap states).At q c := by
    intro st hst c hc
    obtain ⟨q, hq⟩ := List.mem_iff_getElem?.1 hst
    exact ⟨q, st, hq, hc⟩
  have hbasis : ∀ st ∈ states, st.bp.map (itemAt heap') = st.bp.map (itemAt heap) := by
    intro st hst
    refine List.map_congr_left fun c hc => ?_
    obtain ⟨q, hq⟩ := hmem st hst c ((h.ok st hst).basis c hc)
    exact hitem q c hq
  refine ⟨fun st hst => ?_, h.apart, ?_, fun st hst => ?_, fun q st hst c hc => ?_, fun q c hc d hd => ?_,
    fun q st hst ap hap => ?_, h.one, fun q hq => ?_⟩
  · have hsame : ∀ c ∈ st.cfp, itemAt heap' c = itemAt heap c ∧ (configAt heap' c).fws = (configAt heap c).fws ∧
        (configAt heap' c).fplp = (configAt heap c).fplp := by
      intro c hc
      obtain ⟨q, hq⟩ := hmem st hst c hc
      obtain ⟨h1, h2, h3, _⟩ := hlater.config q c hq
      exact ⟨h1, h2, h3⟩
    exact (h.ok st hst).congr rfl rfl hlater.length_le (fun c hc => (hsame c hc).1) (fun c hc => (hsame c hc).2.1)
      fun c hc => (hsame c hc).2.2
  · have hsame : (Build.mk heap' states).bases = (Build.mk heap states).bases := List.map_congr_left hbasis
    rw [hsame]
    exact h.bases
  · have hst' : st ∈ states := List.mem_of_getElem? hst
    obtain ⟨hx, heof⟩ := h.start st hst
    refine ⟨?_, fun c hc => ?_⟩
    · simp only at hx ⊢
      rw [hbasis st hst']
      exact hx
    · have hcat : (Build.mk heap states).At 0 c := ⟨st, hst, (h.ok st hst').basis c hc⟩
      have hfws := (hlater.config 0 c hcat).2.1
      simp only at hfws ⊢
      rw [hfws]
      exact heof c hc
  · have hst' : st ∈ states := List.mem_of_getElem? hst
    have hcat : (Build.mk heap states).At (q + 1) c := ⟨st, hst, (h.ok st hst').basis c hc⟩
    simp only
    rw [hitem _ c hcat]
    exact h.later q st hst c hc
  · rw [hat] at hc
    have hlink : ∃ q' X, (Build.mk heap states).At q' d ∧ nextSymbol lemp (itemAt heap d) = some X ∧
        itemAt heap c = advance (itemAt heap d) ∧ Goto lemp ⟨heap, states⟩ q' X q := by
      rcases hlinks q c hc d hd with hd | hd
      · exact h.links q c hc d hd
      · exact hd
    obtain ⟨q', X, hd', hX, hadv, hgoto⟩ := hlink
    refine ⟨q', X, hd', ?_, ?_, hgoto.mono h hlater⟩
    · simp only
      rw [hitem q' d hd', hX]
    · simp only
      rw [hitem q' d hd', hitem q c hc, hadv]
  · obtain ⟨htype, hgoto⟩ := h.acts q st hst ap hap
    exact ⟨htype, hgoto.mono h hlater⟩
  · obtain ⟨q', hle, X, hgoto⟩ := h.made q hq
    exact ⟨q', hle, X, hgoto.mono h hlater⟩

theorem later_push (heap : List Config) (states : List State) (st : State) :
    Later ⟨heap, states⟩ ⟨heap, states ++ [st]⟩ where
  length_le := Nat.le_refl _
  config _ _ _ := ⟨rfl, rfl, rfl, fun _ h => h⟩
  state q st' h := by
    have hq : q < states.length := (List.getElem?_eq_some_iff.1 h).1
    refine ⟨st', ?_, rfl, rfl, fun _ h => h⟩
    simp only
    rw [List.getElem?_append_left hq]
    exact h

theorem push_state {states : List State} {st' : State} (h : (states ++ [st])[q]? = some st') :
    states[q]? = some st' ∨ (q = states.length ∧ st' = st) := by
  rcases Nat.lt_or_ge q states.length with hq | hq
  · rw [List.getElem?_append_left hq] at h
    exact .inl h
  · rw [List.getElem?_append_right hq, List.getElem?_singleton] at h
    split at h
    next hz => exact .inr ⟨by omega, (Option.some.inj h).symm⟩
    next => cases h

/-- A state that is not there yet, with the links to what its basis comes from. -/
theorem Inv.push {states : List State} (h : Inv lemp ⟨heap, states⟩) (hok : StateOk lemp (st.list heap))
    (hap : st.ap = []) (hfresh : ∀ q c, (Build.mk heap states).At q c → c ∉ st.cfp)
    (hnew : st.bp.map (itemAt heap) ∉ (Build.mk heap states).bases)
    (hstart : states = [] → (∀ x, x ∈ st.bp.map (itemAt heap) ↔ x.2 = 0 ∧ x.1 ∈ lemp.rulesOf lemp.startSymbol) ∧
      ∀ c ∈ st.bp, setFind (configAt heap c).fws 0 = true)
    (hlater : states ≠ [] → ∀ c ∈ st.bp, 0 < (itemAt heap c).2)
    (hlinks : ∀ c ∈ st.cfp, ∀ d ∈ (configAt heap c).bplp, ∃ q' X, (Build.mk heap states).At q' d ∧
      nextSymbol lemp (itemAt heap d) = some X ∧ itemAt heap c = advance (itemAt heap d) ∧
      ∀ x, x ∈ st.bp.map (itemAt heap) ↔ ∃ c, (Build.mk heap states).At q' c ∧
        nextSymbol lemp (itemAt heap c) = some X ∧ x = advance (itemAt heap c))
    (hmade : states ≠ [] → ∃ q' X, (∃ c, (Build.mk heap states).At q' c ∧ nextSymbol lemp (itemAt heap c) = some X) ∧
      ∀ x, x ∈ st.bp.map (itemAt heap) ↔ ∃ c, (Build.mk heap states).At q' c ∧
        nextSymbol lemp (itemAt heap c) = some X ∧ x = advance (itemAt heap c)) :
    Inv lemp ⟨heap, states ++ [st]⟩ := by
  have hpush := later_push heap states st
  have hself : (states ++ [st])[states.length]? = some st := List.getElem?_concat_length
  have hat : ∀ q c, (Build.mk heap (states ++ [st])).At q c →
      (Build.mk heap states).At q c ∨ (q = states.length ∧ c ∈ st.cfp) := by
    intro q c hc
    obtain ⟨st', hst', hmem⟩ := hc
    rcases push_state hst' with hst' | ⟨hq, rfl⟩
    · exact .inl ⟨st', hst', hmem⟩
    · exact .inr ⟨hq, hmem⟩
  have hnext : ∀ q' X, (∃ c, (Build.mk heap states).At q' c ∧ nextSymbol lemp (itemAt heap c) = some X) →
      (∀ x, x ∈ st.bp.map (itemAt heap) ↔ ∃ c, (Build.mk heap states).At q' c ∧
        nextSymbol lemp (itemAt heap c) = some X ∧ x = advance (itemAt heap c)) →
      Goto lemp ⟨heap, states ++ [st]⟩ q' X states.length := by
    intro q' X hsome hbasis
    obtain ⟨d, hd, hX⟩ := hsome
    refine ⟨⟨d, hpush.at hd, hX⟩, st, hself, fun x => ?_⟩
    rw [hbasis]
    constructor
    · intro hx
      obtain ⟨e, he, hs⟩ := hx
      exact ⟨e, hpush.at he, hs⟩
    · intro hx
      obtain ⟨e, he, hs⟩ := hx
      exact ⟨e, hpush.of_at hd.lt he, hs⟩
  refine ⟨fun st' hst' => ?_, fun q q' c hc hc' => ?_, ?_, fun st' hst' => ?_, fun q st' hst' => ?_,
    fun q c hc d hd => ?_, fun q st' hst' ap hmem => ?_, fun st' hst' => ?_, fun q hq => ?_⟩
  · rcases List.mem_append.1 hst' with hst' | hst'
    · exact h.ok st' hst'
    · rw [List.mem_singleton.1 hst']
      exact hok
  · rcases hat q c hc with hc | ⟨rfl, hmem⟩
    · rcases hat q' c hc' with hc' | ⟨rfl, hmem'⟩
      · exact h.apart q q' c hc hc'
      · exact absurd hmem' (hfresh q c hc)
    · rcases hat q' c hc' with hc' | ⟨rfl, _⟩
      · exact absurd hmem (hfresh q' c hc')
      · rfl
  · have hb : (Build.mk heap (states ++ [st])).bases = (Build.mk heap states).bases ++ [st.bp.map (itemAt heap)] := by
      simp [Build.bases]
    rw [hb]
    refine List.nodup_append.2 ⟨h.bases, List.nodup_singleton _, fun B hB B' hB' heq => ?_⟩
    rw [List.mem_singleton] at hB'
    exact hnew (hB' ▸ heq ▸ hB)
  · rcases push_state hst' with hst' | ⟨hq, rfl⟩
    · exact h.start st' hst'
    · exact hstart (List.eq_nil_of_length_eq_zero hq.symm)
  · rcases push_state hst' with hst' | ⟨hq, rfl⟩
    · exact h.later q st' hst'
    · exact hlater fun hnil => by
        rw [hnil] at hq
        cases hq
  · rcases hat q c hc with hc | ⟨rfl, hmem⟩
    · obtain ⟨q', X, hd', hX, hadv, hgoto⟩ := h.links q c hc d hd
      exact ⟨q', X, hpush.at hd', hX, hadv, hgoto.mono h hpush⟩
    · obtain ⟨q', X, hd', hX, hadv, hbasis⟩ := hlinks c hmem d hd
      exact ⟨q', X, hpush.at hd', hX, hadv, hnext q' X ⟨d, hd', hX⟩ hbasis⟩
  · rcases push_state hst' with hst' | ⟨hq, rfl⟩
    · obtain ⟨htype, hgoto⟩ := h.acts q st' hst' ap hmem
      exact ⟨htype, hgoto.mono h hpush⟩
    · rw [hap] at hmem
      cases hmem
  · rcases List.mem_append.1 hst' with hst' | hst'
    · exact h.one st' hst'
    · rw [List.mem_singleton.1 hst', hap]
      exact .nil
  · simp only [List.length_append, List.length_singleton] at hq
    rcases Nat.lt_or_ge (q + 1) states.length with hlt | hge
    · obtain ⟨q', hle, X, hgoto⟩ := h.made q hlt
      exact ⟨q', hle, X, hgoto.mono h hpush⟩
    · have heq : q + 1 = states.length := by omega
      obtain ⟨q', X, hsome, hbasis⟩ := hmade fun hnil => by
        rw [hnil] at heq
        cases heq
      obtain ⟨c, hc, _⟩ := id hsome
      have hlt := hc.lt
      simp only at hlt
      exact ⟨q', by omega, X, heq ▸ hnext q' X hsome hbasis⟩

/-! ## A shift more -/

variable {ap : Action}

theorem addAction_state {p : Nat} : (b.addAction p ap).states[q]? =
    (b.states[q]?).map fun st => if p = q then { st with ap := ap :: st.ap } else st := by
  unfold Build.addAction
  simp only
  rw [List.getElem?_modify]
  rfl

theorem later_addAction {p : Nat} : Later b (b.addAction p ap) where
  length_le := Nat.le_refl _
  config _ _ _ := ⟨rfl, rfl, rfl, fun _ h => h⟩
  state q st h := by
    rw [addAction_state, h]
    refine ⟨_, rfl, ?_⟩
    split
    · exact ⟨rfl, rfl, fun _ h => List.mem_cons_of_mem _ h⟩
    · exact ⟨rfl, rfl, fun _ h => h⟩

theorem addAction_bases {p : Nat} : (b.addAction p ap).bases = b.bases := by
  refine List.ext_getElem? fun i => ?_
  have hheap : (b.addAction p ap).heap = b.heap := rfl
  unfold Build.bases
  rw [List.getElem?_map, List.getElem?_map, addAction_state, Option.map_map, hheap]
  refine Option.map_congr fun st _ => ?_
  simp only [Function.comp]
  split <;> rfl

theorem Inv.addAction (h : Inv lemp b) (hgoto : Goto lemp b q X q')
    (hnew : ∀ st, b.states[q]? = some st → ∀ ap ∈ st.ap, ap.sp ≠ X) : Inv lemp (b.addAction q ⟨X, .SHIFT, q'⟩) := by
  have hl : Later b (b.addAction q ⟨X, .SHIFT, q'⟩) := later_addAction
  have hget : ∀ i st', (b.addAction q ⟨X, .SHIFT, q'⟩).states[i]? = some st' → ∃ st, b.states[i]? = some st ∧
      st'.bp = st.bp ∧ st'.cfp = st.cfp ∧ (st'.ap = st.ap ∨ (i = q ∧ st'.ap = ⟨X, .SHIFT, q'⟩ :: st.ap)) := by
    intro i st' hst'
    rw [addAction_state, Option.map_eq_some_iff] at hst'
    obtain ⟨st, hst, rfl⟩ := hst'
    refine ⟨st, hst, ?_⟩
    split
    next heq => exact ⟨rfl, rfl, .inr ⟨heq.symm, rfl⟩⟩
    next => exact ⟨rfl, rfl, .inl rfl⟩
  have hmem : ∀ st' ∈ (b.addAction q ⟨X, .SHIFT, q'⟩).states, ∃ i, (b.addAction q ⟨X, .SHIFT, q'⟩).states[i]? = some st' :=
    fun st' hst' => List.mem_iff_getElem?.1 hst'
  have hat : ∀ i c, (b.addAction q ⟨X, .SHIFT, q'⟩).At i c → b.At i c := by
    intro i c hc
    obtain ⟨st', hst', hc⟩ := hc
    obtain ⟨st, hst, _, hcfp, _⟩ := hget i st' hst'
    exact ⟨st, hst, hcfp ▸ hc⟩
  refine ⟨fun st' hst' => ?_, fun i j c hc hc' => h.apart i j c (hat i c hc) (hat j c hc'), ?_, fun st' hst' => ?_,
    fun i st' hst' => ?_, fun i c hc d hd => ?_, fun i st' hst' ap hap => ?_, fun st' hst' => ?_, fun i hi => ?_⟩
  · obtain ⟨i, hi⟩ := hmem st' hst'
    obtain ⟨st, hst, hbp, hcfp, _⟩ := hget i st' hi
    exact (h.ok st (List.mem_of_getElem? hst)).congr hcfp hbp (Nat.le_refl _) (fun _ _ => rfl) (fun _ _ => rfl)
      fun _ _ => rfl
  · rw [addAction_bases]
    exact h.bases
  · obtain ⟨st, hst, hbp, _⟩ := hget 0 st' hst'
    rw [hbp]
    exact h.start st hst
  · obtain ⟨st, hst, hbp, _⟩ := hget (i + 1) st' hst'
    rw [hbp]
    exact h.later i st hst
  · obtain ⟨j, Y, hd', hY, hadv, hg⟩ := h.links i c (hat i c hc) d hd
    exact ⟨j, Y, hl.at hd', hY, hadv, hg.mono h hl⟩
  · obtain ⟨st, hst, _, _, hcase⟩ := hget i st' hst'
    have hold : ap ∈ st.ap → ap.type = .SHIFT ∧ Goto lemp (b.addAction q ⟨X, .SHIFT, q'⟩) i ap.sp ap.x := by
      intro hap
      obtain ⟨htype, hg⟩ := h.acts i st hst ap hap
      exact ⟨htype, hg.mono h hl⟩
    rcases hcase with heq | ⟨rfl, heq⟩
    · exact hold (heq ▸ hap)
    · rw [heq] at hap
      rcases List.mem_cons.1 hap with rfl | hap
      · exact ⟨rfl, hgoto.mono h hl⟩
      · exact hold hap
  · obtain ⟨i, hi⟩ := hmem st' hst'
    obtain ⟨st, hst, _, _, hcase⟩ := hget i st' hi
    have hone := h.one st (List.mem_of_getElem? hst)
    rcases hcase with heq | ⟨rfl, heq⟩
    · rw [heq]
      exact hone
    · rw [heq, List.map_cons]
      refine List.nodup_cons.2 ⟨fun hX => ?_, hone⟩
      obtain ⟨ap, hap, hsp⟩ := List.mem_map.1 hX
      exact hnew st hst ap hap hsp
  · have hlen : (b.addAction q ⟨X, .SHIFT, q'⟩).states.length = b.states.length := by simp [Build.addAction]
    obtain ⟨j, hle, Y, hg⟩ := h.made i (hlen ▸ hi)
    exact ⟨j, hle, Y, hg.mono h hl⟩

end Dbsql.L7
