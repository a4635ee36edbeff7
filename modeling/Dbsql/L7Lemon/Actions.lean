import Dbsql.L7Lemon.Grammar
import Dbsql.L7Lemon.MSort
/-!
# The actions of a state (lemon.c, action.c and build.c)

The actions of a state are a list, sorted by lookahead and, for one lookahead, shifts before
reductions. Two actions for one lookahead are a conflict; `resolve_conflict` takes one of them out
of use, by precedence or, as a conflict that is counted, the reduction that comes later.

Results:
* `actionSort_perm`, `actionSort_sorted`: sorting puts the actions in the order of `actioncmp`.
* `resolveAll_unique`, `resolveAll_nodup`: after all conflicts are resolved no two actions in use
  have one lookahead.
* `resolveAll_served`: and every lookahead that had an action has one still.
* `resolveAll_of_distinct`: where no lookahead has two actions nothing changes.
-/
namespace Dbsql.L7
open Dbsql.Core

/-- `enum e_action` (lemon.c:213-222). -/
inductive ActionType
  | SHIFT
  | ACCEPT
  | REDUCE
  | ERROR
  | CONFLICT
  | SH_RESOLVED
  | RD_RESOLVED
  | NOT_USED
  deriving DecidableEq

def ActionType.toInt : ActionType → Int
  | SHIFT => 0
  | ACCEPT => 1
  | REDUCE => 2
  | ERROR => 3
  | CONFLICT => 4
  | SH_RESOLVED => 5
  | RD_RESOLVED => 6
  | NOT_USED => 7

/-- `struct action` (lemon.c:211-229). `x` is the index of the new state or of the rule. -/
structure Action where
  sp : Nat
  type : ActionType
  x : Nat
  deriving DecidableEq

/-- `actioncmp` (lemon.c:377-390). -/
def actioncmp (ap1 ap2 : Action) : Int :=
  if (ap1.sp : Int) - ap2.sp ≠ 0 then (ap1.sp : Int) - ap2.sp
  else if ap1.type.toInt - ap2.type.toInt ≠ 0 then ap1.type.toInt - ap2.type.toInt
  else (ap1.x : Int) - ap2.x

/-- `Action_sort` (lemon.c:393-398). -/
def actionSort (ap : List Action) : List Action := MSort.msort actioncmp ap

/-- `resolve_conflict` (lemon.c:997-1068): the two actions after it, and what it returns. -/
def resolveConflict (lemp : Lemon) (apx apy : Action) : Action × Action × Nat :=
  let conflict := (apx, { apy with type := .CONFLICT }, 1)
  let precsym := fun (ap : Action) => (lemp.rules[ap.x]?).bind (rulePrecedence lemp)
  if apx.type = .SHIFT ∧ apy.type = .REDUCE then
    match precsym apy with
    | none => conflict
    | some spy =>
      if lemp.prec apx.sp < 0 ∨ lemp.prec spy < 0 then conflict
      else if lemp.prec apx.sp > lemp.prec spy then (apx, { apy with type := .RD_RESOLVED }, 0)
      else if lemp.prec apx.sp < lemp.prec spy then ({ apx with type := .SH_RESOLVED }, apy, 0)
      else if lemp.assoc apx.sp = .RIGHT then (apx, { apy with type := .RD_RESOLVED }, 0)
      else if lemp.assoc apx.sp = .LEFT then ({ apx with type := .SH_RESOLVED }, apy, 0)
      else conflict
  else if apx.type = .REDUCE ∧ apy.type = .REDUCE then
    match precsym apx, precsym apy with
    | some spx, some spy =>
      if lemp.prec spx < 0 ∨ lemp.prec spy < 0 ∨ lemp.prec spx = lemp.prec spy then conflict
      else if lemp.prec spx > lemp.prec spy then (apx, { apy with type := .RD_RESOLVED }, 0)
      else ({ apx with type := .RD_RESOLVED }, apy, 0)
    | _, _ => conflict
  else (apx, apy, 0)

/-- The inner loop over `nap` (lemon.c:957-961). -/
def resolveWith (lemp : Lemon) (ap : Action) : List Action → Action × List Action × Nat
  | [] => (ap, [], 0)
  | nap :: rest =>
    if nap.sp = ap.sp then
      let r := resolveConflict lemp ap nap
      let r' := resolveWith lemp r.1 rest
      (r'.1, r.2.1 :: r'.2.1, r.2.2 + r'.2.2)
    else (ap, nap :: rest, 0)

/-- The outer loop over `ap` (lemon.c:956-962), for as many actions as there are. -/
def resolveLoop (lemp : Lemon) : Nat → List Action → List Action × Nat
  | 0, aps => (aps, 0)
  | _ + 1, [] => ([], 0)
  | n + 1, ap :: rest =>
    let r := resolveWith lemp ap rest
    let r' := resolveLoop lemp n r.2.1
    (r.1 :: r'.1, r.2.2 + r'.2)

def resolveAll (lemp : Lemon) (aps : List Action) : List Action × Nat := resolveLoop lemp aps.length aps

/-- `compute_action` (lemon.c:2777-2791), `none` for a negative result. -/
def computeAction (nstate nrule : Nat) (ap : Action) : Option Nat :=
  match ap.type with
  | .SHIFT => some ap.x
  | .REDUCE => some (ap.x + nstate)
  | .ERROR => some (nstate + nrule)
  | .ACCEPT => some (nstate + nrule + 1)
  | _ => none

/-- An action that gets an entry in the tables. -/
def Action.inUse (ap : Action) : Bool :=
  ap.type = .SHIFT || ap.type = .REDUCE || ap.type = .ERROR || ap.type = .ACCEPT

theorem computeAction_isSome (nstate nrule : Nat) (ap : Action) :
    (computeAction nstate nrule ap).isSome = ap.inUse := by
  unfold computeAction Action.inUse
  cases ap.type <;> rfl

/-! ## Sorting -/

/-- The order of `actioncmp`. -/
def Action.Le (a b : Action) : Prop :=
  a.sp < b.sp ∨ (a.sp = b.sp ∧ (a.type.toInt < b.type.toInt ∨ (a.type = b.type ∧ a.x ≤ b.x)))

theorem ActionType.toInt_inj {t t' : ActionType} (h : t.toInt = t'.toInt) : t = t' := by
  cases t <;> cases t' <;> first | rfl | (exact absurd h (by decide))

theorem leOf_actioncmp {a b : Action} : MSort.leOf actioncmp a b = true ↔ a.Le b := by
  have hsame : a.type = b.type ↔ a.type.toInt = b.type.toInt :=
    ⟨fun h => h ▸ rfl, ActionType.toInt_inj⟩
  unfold MSort.leOf actioncmp Action.Le
  rw [Bool.not_eq_true', decide_eq_false_iff_not, hsame]
  split
  next h => omega
  next h =>
    split
    next h' => omega
    next h' => omega

theorem actioncmp_preorder (aps : List Action) : BinSort.PreorderOn (MSort.leOf actioncmp) aps := by
  constructor
  · intro a _ b _
    rw [Bool.or_eq_true, leOf_actioncmp, leOf_actioncmp]
    have hsame : a.type.toInt = b.type.toInt → a.type = b.type := ActionType.toInt_inj
    unfold Action.Le
    grind
  · intro a _ b _ c _ hab hbc
    rw [leOf_actioncmp] at *
    unfold Action.Le at *
    grind

theorem actionSort_perm {aps : List Action} (h : aps.length < 2 ^ 30) : (actionSort aps).Perm aps :=
  MSort.msort_perm h

theorem actionSort_sorted {aps : List Action} (h : aps.length < 2 ^ 30) :
    (actionSort aps).Pairwise Action.Le :=
  (MSort.msort_stable h (actioncmp_preorder aps)).sorted.imp leOf_actioncmp.1

/-! ## Conflicts -/

variable {lemp : Lemon} {ap apx apy : Action} {aps rest : List Action}

/-- Two actions of which one has to go. -/
def Conflicting (apx apy : Action) : Prop :=
  (apx.type = .SHIFT ∨ apx.type = .REDUCE) ∧ apy.type = .REDUCE

/-- What `resolve_conflict` can do: take the second out of use and count it or not, or take the
first out of use, or nothing where one of them is out of use already. -/
theorem resolveConflict_cases (lemp : Lemon) (apx apy : Action) :
    (Conflicting apx apy ∧ ∃ t n, resolveConflict lemp apx apy = (apx, { apy with type := t }, n) ∧
        ((t = .CONFLICT ∧ n = 1) ∨ (t = .RD_RESOLVED ∧ n = 0))) ∨
      (Conflicting apx apy ∧ ∃ t, resolveConflict lemp apx apy = ({ apx with type := t }, apy, 0) ∧
        (t = .SH_RESOLVED ∨ t = .RD_RESOLVED)) ∨
      (¬ Conflicting apx apy ∧ resolveConflict lemp apx apy = (apx, apy, 0)) := by
  unfold resolveConflict Conflicting
  grind

/-- What becomes of an action: nothing, or it is taken out of use. -/
def Kept (ap ap' : Action) : Prop :=
  ap' = ap ∨ (ap.inUse = true ∧ ap'.inUse = false ∧ ap'.sp = ap.sp ∧ ap'.x = ap.x)

theorem Kept.refl (ap : Action) : Kept ap ap := .inl rfl

theorem Kept.sp {ap ap' : Action} (h : Kept ap ap') : ap'.sp = ap.sp := by
  rcases h with rfl | h
  · rfl
  · exact h.2.2.1

theorem Kept.eq {ap ap' : Action} (h : Kept ap ap') (hu : ap'.inUse = true) : ap' = ap := by
  rcases h with h | h
  · exact h
  · rw [h.2.1] at hu
    cases hu

theorem Kept.trans {a b c : Action} (h : Kept a b) (h' : Kept b c) : Kept a c := by
  rcases h with rfl | h
  · exact h'
  · rcases h' with rfl | h'
    · exact .inr h
    · rw [h.2.1] at h'
      cases h'.1

/-- Sorted by lookahead, and where two actions in use share theirs `resolve_conflict` decides. -/
structure Tidy (aps : List Action) : Prop where
  sorted : aps.Pairwise (fun a b => a.sp ≤ b.sp)
  conflicting : aps.Pairwise (fun a b => a.sp = b.sp → a.inUse = true → b.inUse = true → Conflicting a b)

theorem Conflicting.inUse (h : Conflicting apx apy) : apx.inUse = true ∧ apy.inUse = true := by
  obtain ⟨hx, hy⟩ := h
  unfold Action.inUse
  rw [hy]
  rcases hx with hx | hx <;> rw [hx] <;> exact ⟨rfl, rfl⟩

theorem kept_refl (aps : List Action) : List.Forall₂ Kept aps aps :=
  List.forall₂_same.2 fun ap _ => .refl ap

theorem exists_kept {aps aps' : List Action} (h : List.Forall₂ Kept aps aps') {b' : Action} (hb : b' ∈ aps') :
    ∃ b ∈ aps, Kept b b' := by
  induction h with
  | nil => cases hb
  | cons hkept _ ih =>
    rcases List.mem_cons.1 hb with rfl | hb
    · exact ⟨_, List.mem_cons_self, hkept⟩
    · obtain ⟨b, hmem, hkept⟩ := ih hb
      exact ⟨b, List.mem_cons_of_mem _ hmem, hkept⟩

theorem kept_trans {a b c : List Action} (h : List.Forall₂ Kept a b) (h' : List.Forall₂ Kept b c) :
    List.Forall₂ Kept a c := by
  induction h generalizing c with
  | nil => exact h'
  | cons hk _ ih =>
    cases h' with
    | cons hk' h' => exact .cons (hk.trans hk') (ih h')

/-- A relation between pairs that is kept when its elements are. -/
theorem pairwise_kept {P : Action → Action → Prop}
    (hP : ∀ a b a' b', Kept a a' → Kept b b' → P a b → P a' b') {aps aps' : List Action}
    (h : List.Forall₂ Kept aps aps') (hp : aps.Pairwise P) : aps'.Pairwise P := by
  induction h with
  | nil => exact .nil
  | @cons a a' l l' ha hl ih =>
    obtain ⟨hhead, htail⟩ := List.pairwise_cons.1 hp
    refine List.pairwise_cons.2 ⟨fun b' hb' => ?_, ih htail⟩
    obtain ⟨b, hb, hkept⟩ := exists_kept hl hb'
    exact hP a b a' b' ha hkept (hhead b hb)

theorem Tidy.kept {aps aps' : List Action} (h : Tidy aps) (hk : List.Forall₂ Kept aps aps') : Tidy aps' := by
  constructor
  · refine pairwise_kept (fun a b a' b' ha hb hle => ?_) hk h.sorted
    rwa [ha.sp, hb.sp]
  · refine pairwise_kept (fun a b a' b' ha hb hc hsp hua hub => ?_) hk h.conflicting
    have hea := ha.eq hua
    have heb := hb.eq hub
    subst hea heb
    exact hc hsp hua hub

theorem Tidy.tail (h : Tidy (ap :: aps)) : Tidy aps :=
  ⟨(List.pairwise_cons.1 h.sorted).2, (List.pairwise_cons.1 h.conflicting).2⟩

/-- Some action in use has the lookahead. -/
def Served (aps : List Action) (sp : Nat) : Prop := ∃ ap ∈ aps, ap.sp = sp ∧ ap.inUse = true

theorem served_cons {sp : Nat} : Served (ap :: aps) sp ↔ (ap.sp = sp ∧ ap.inUse = true) ∨ Served aps sp := by
  simp [Served]

/-- One call of `resolve_conflict` on two actions with one lookahead. -/
theorem resolveConflict_spec (lemp : Lemon) (h : ap.inUse = true → apy.inUse = true → Conflicting ap apy) :
    Kept ap (resolveConflict lemp ap apy).1 ∧ Kept apy (resolveConflict lemp ap apy).2.1 ∧
      ((resolveConflict lemp ap apy).1.inUse = true → (resolveConflict lemp ap apy).2.1.inUse = false) ∧
      (ap.inUse = true ∨ apy.inUse = true →
        (resolveConflict lemp ap apy).1.inUse = true ∨ (resolveConflict lemp ap apy).2.1.inUse = true) := by
  rcases resolveConflict_cases lemp ap apy with ⟨hc, t, n, heq, ht⟩ | ⟨hc, t, heq, ht⟩ | ⟨hc, heq⟩
  · have hout : ({ apy with type := t } : Action).inUse = false := by
      rcases ht with ⟨rfl, _⟩ | ⟨rfl, _⟩ <;> rfl
    rw [heq]
    exact ⟨.refl ap, .inr ⟨hc.inUse.2, hout, rfl, rfl⟩, fun _ => hout, fun _ => .inl hc.inUse.1⟩
  · have hout : ({ ap with type := t } : Action).inUse = false := by
      rcases ht with rfl | rfl <;> rfl
    rw [heq]
    refine ⟨.inr ⟨hc.inUse.1, hout, rfl, rfl⟩, .refl apy, fun hu => ?_, fun _ => .inr hc.inUse.2⟩
    rw [hout] at hu
    cases hu
  · rw [heq]
    refine ⟨.refl ap, .refl apy, fun hu => ?_, id⟩
    by_contra hy
    exact hc (h hu (by simpa using hy))

theorem resolveWith_spec (lemp : Lemon) (h : Tidy (ap :: rest)) :
    Kept ap (resolveWith lemp ap rest).1 ∧ List.Forall₂ Kept rest (resolveWith lemp ap rest).2.1 ∧
      ((resolveWith lemp ap rest).1.inUse = true →
        ∀ b ∈ (resolveWith lemp ap rest).2.1, b.sp = ap.sp → b.inUse = false) ∧
      (∀ sp, Served (ap :: rest) sp →
        Served ((resolveWith lemp ap rest).1 :: (resolveWith lemp ap rest).2.1) sp) := by
  induction rest generalizing ap with
  | nil => exact ⟨.refl ap, .nil, by simp [resolveWith], fun _ hs => hs⟩
  | cons nap rest ih =>
    obtain ⟨hle, hsorted⟩ := List.pairwise_cons.1 h.sorted
    obtain ⟨hconf, hconfs⟩ := List.pairwise_cons.1 h.conflicting
    by_cases hsp : nap.sp = ap.sp
    · obtain ⟨hk1, hk2, hone, hserved⟩ := resolveConflict_spec lemp
        (fun hu hu' => hconf nap List.mem_cons_self hsp.symm hu hu')
      have heq : resolveWith lemp ap (nap :: rest) =
          ((resolveWith lemp (resolveConflict lemp ap nap).1 rest).1,
            (resolveConflict lemp ap nap).2.1 :: (resolveWith lemp (resolveConflict lemp ap nap).1 rest).2.1,
            (resolveConflict lemp ap nap).2.2 +
              (resolveWith lemp (resolveConflict lemp ap nap).1 rest).2.2) := by
        simp only [resolveWith, if_pos hsp]
      rw [heq]
      generalize resolveConflict lemp ap nap = r at *
      have htidy : Tidy (r.1 :: rest) := by
        have hrest : Tidy (ap :: rest) :=
          ⟨List.pairwise_cons.2 ⟨fun b hb => hle b (List.mem_cons_of_mem nap hb), (List.pairwise_cons.1 hsorted).2⟩,
            List.pairwise_cons.2 ⟨fun b hb => hconf b (List.mem_cons_of_mem nap hb),
              (List.pairwise_cons.1 hconfs).2⟩⟩
        exact hrest.kept (.cons hk1 (kept_refl rest))
      obtain ⟨ihk, ihks, ihone, ihserved⟩ := ih htidy
      refine ⟨hk1.trans ihk, .cons hk2 ihks, fun hu => ?_, fun sp hs => ?_⟩
      · intro b hb hbsp
        rcases List.mem_cons.1 hb with rfl | hb
        · exact hone (ihk.eq hu ▸ hu)
        · exact ihone hu b hb (hbsp.trans hk1.sp.symm)
      · rw [served_cons, served_cons] at hs
        rw [served_cons, served_cons]
        -- one of the two is still in use; the first one may yet lose against a later action
        have hfirst : r.1.inUse = true → Served (r.1 :: rest) ap.sp :=
          fun hu => ⟨r.1, List.mem_cons_self, hk1.sp, hu⟩
        have hboth : ap.inUse = true ∨ nap.inUse = true → sp = ap.sp →
            ((resolveWith lemp r.1 rest).1.sp = sp ∧ (resolveWith lemp r.1 rest).1.inUse = true) ∨
              (r.2.1.sp = sp ∧ r.2.1.inUse = true) ∨ Served (resolveWith lemp r.1 rest).2.1 sp := by
          intro hu hspeq
          subst hspeq
          rcases hserved hu with hu1 | hu2
          · rcases served_cons.1 (ihserved _ (hfirst hu1)) with hs' | hs'
            · exact .inl hs'
            · exact .inr (.inr hs')
          · exact .inr (.inl ⟨hk2.sp.trans hsp, hu2⟩)
        rcases hs with ⟨hspeq, hu⟩ | ⟨hspeq, hu⟩ | hs
        · exact hboth (.inl hu) hspeq.symm
        · exact hboth (.inr hu) (hspeq.symm.trans hsp)
        · have hrest : Served (r.1 :: rest) sp := served_cons.2 (.inr hs)
          rcases served_cons.1 (ihserved sp hrest) with hs' | hs'
          · exact .inl hs'
          · exact .inr (.inr hs')
    · have heq : resolveWith lemp ap (nap :: rest) = (ap, nap :: rest, 0) := by
        simp only [resolveWith, if_neg hsp]
      rw [heq]
      refine ⟨.refl ap, kept_refl _, fun _ b hb hbsp => ?_, fun _ hs => hs⟩
      -- the list is sorted: no lookahead comes back
      have hnap := hle nap List.mem_cons_self
      have hb' : nap.sp ≤ b.sp := by
        rcases List.mem_cons.1 hb with rfl | hb
        · exact Nat.le_refl _
        · exact (List.pairwise_cons.1 hsorted).1 b hb
      omega

theorem resolveLoop_spec {n : Nat} (hn : aps.length ≤ n) (h : Tidy aps) :
    List.Forall₂ Kept aps (resolveLoop lemp n aps).1 ∧
      (resolveLoop lemp n aps).1.Pairwise
        (fun a b => a.sp = b.sp → ¬ (a.inUse = true ∧ b.inUse = true)) ∧
      (∀ sp, Served aps sp → Served (resolveLoop lemp n aps).1 sp) := by
  induction n generalizing aps with
  | zero =>
    obtain rfl : aps = [] := List.eq_nil_of_length_eq_zero (Nat.le_zero.1 hn)
    exact ⟨.nil, .nil, fun _ hs => hs⟩
  | succ n ih =>
    cases aps with
    | nil => exact ⟨.nil, .nil, fun _ hs => hs⟩
    | cons ap rest =>
      obtain ⟨hk, hks, hone, hserved⟩ := resolveWith_spec lemp h
      have htidy : Tidy (resolveWith lemp ap rest).2.1 := (h.kept (.cons hk hks)).tail
      have hlen : (resolveWith lemp ap rest).2.1.length ≤ n := by
        rw [← hks.length_eq]
        exact Nat.le_of_succ_le_succ hn
      obtain ⟨ihks, ihone, ihserved⟩ := ih hlen htidy
      simp only [resolveLoop]
      refine ⟨.cons hk ?_, List.pairwise_cons.2 ⟨fun b hb hsp hu => ?_, ihone⟩, fun sp hs => ?_⟩
      · exact kept_trans hks ihks
      · obtain ⟨b0, hb0, hkept⟩ := exists_kept ihks hb
        rw [hkept.eq hu.2] at hsp hu
        rw [hone hu.1 b0 hb0 (hsp.symm.trans hk.sp)] at hu
        cases hu.2
      · rcases served_cons.1 (hserved sp hs) with hs' | hs'
        · exact served_cons.2 (.inl hs')
        · exact served_cons.2 (.inr (ihserved sp hs'))

/-- What an action can become. -/
theorem resolveAll_kept (h : Tidy aps) : List.Forall₂ Kept aps (resolveAll lemp aps).1 :=
  (resolveLoop_spec (Nat.le_refl _) h).1

/-- **No two actions in use have one lookahead** when the conflicts are resolved. -/
theorem resolveAll_unique (h : Tidy aps) : (resolveAll lemp aps).1.Pairwise
    (fun a b => a.sp = b.sp → ¬ (a.inUse = true ∧ b.inUse = true)) :=
  (resolveLoop_spec (Nat.le_refl _) h).2.1

/-- **Every lookahead that had an action has one still.** -/
theorem resolveAll_served (h : Tidy aps) {sp : Nat} (hs : Served aps sp) :
    Served (resolveAll lemp aps).1 sp :=
  (resolveLoop_spec (Nat.le_refl _) h).2.2 sp hs

/-- The lookaheads of the actions in use. -/
def usedSps (aps : List Action) : List Nat := (aps.filter Action.inUse).map Action.sp

theorem usedSps_cons (ap : Action) (aps : List Action) :
    usedSps (ap :: aps) = if ap.inUse = true then ap.sp :: usedSps aps else usedSps aps := by
  unfold usedSps
  rw [List.filter_cons]
  split <;> rfl

theorem mem_usedSps {sp : Nat} : sp ∈ usedSps aps ↔ Served aps sp := by
  unfold usedSps Served
  rw [List.mem_map]
  constructor
  · intro h
    obtain ⟨ap, hap, rfl⟩ := h
    obtain ⟨hmem, hu⟩ := List.mem_filter.1 hap
    exact ⟨ap, hmem, rfl, hu⟩
  · intro h
    obtain ⟨ap, hmem, rfl, hu⟩ := h
    exact ⟨ap, List.mem_filter.2 ⟨hmem, hu⟩, rfl⟩

theorem resolveAll_nodup (h : Tidy aps) : (usedSps (resolveAll lemp aps).1).Nodup := by
  unfold usedSps
  rw [List.Nodup, List.pairwise_map, List.pairwise_filter]
  exact (resolveAll_unique h).imp fun hone hua hub hsp => hone hsp ⟨hua, hub⟩

theorem resolveWith_of_distinct (h : ∀ b ∈ rest, b.sp ≠ ap.sp) : resolveWith lemp ap rest = (ap, rest, 0) := by
  cases rest with
  | nil => rfl
  | cons b rest => simp only [resolveWith, if_neg (h b List.mem_cons_self)]

/-- **Where no lookahead has two actions nothing is resolved**, and no conflict is counted. -/
theorem resolveAll_of_distinct (h : (aps.map Action.sp).Nodup) : resolveAll lemp aps = (aps, 0) := by
  suffices H : ∀ n, resolveLoop lemp n aps = (aps, 0) from H _
  intro n
  induction n generalizing aps with
  | zero => rfl
  | succ n ih =>
    cases aps with
    | nil => rfl
    | cons ap rest =>
      obtain ⟨hap, hrest⟩ := List.nodup_cons.1 h
      have hne : ∀ b ∈ rest, b.sp ≠ ap.sp := fun b hb heq => hap (heq ▸ List.mem_map_of_mem hb)
      simp only [resolveLoop, resolveWith_of_distinct hne, ih hrest]

end Dbsql.L7
