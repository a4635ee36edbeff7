import Dbsql.L7Lemon.GetState
import Mathlib.Algebra.Order.BigOperators.Group.List
/-!
# Follow sets (lemon.c, FindLinks and FindFollowSets)

`FindLinks` turns the links back around, so that every configuration has the links to those that
get what it has. `FindFollowSets` hands the follow sets on along the links until nothing changes.
A configuration is COMPLETE while all it has is known to be handed on; it is INCOMPLETE again when
it gets something new.

Results:
* `findLinks_spec`: the links forward are those there were and the links back, turned around.
* `findFollowSets_spec`: a follow set has what is handed on from somewhere, and nothing else.
-/
namespace Dbsql.L7
open Dbsql.Core Saturate

/-- The configurations in the order the loops go over them. -/
def Build.configs (b : Build) : List Nat := b.states.flatMap State.cfp

/-- The inner loop of `FindLinks` (lemon.c:862-866). -/
def linkStep (heap : List Config) (cfp : Nat) : List Config :=
  (configAt heap cfp).bplp.foldl (fun heap other => heap.modify other fun c => { c with fplp := cfp :: c.fplp }) heap

/-- `FindLinks` (lemon.c:840-869). -/
def findLinks (b : Build) : Build := { b with heap := b.configs.foldl linkStep b.heap }

/-- The memory and the configurations with the status COMPLETE. -/
structure Follow where
  heap : List Config
  complete : List Nat

/-- The loop over the links of a configuration (lemon.c:895-901), with `progress`. -/
def followLink (cfp : Nat) (st : Follow × Bool) (plp : Nat) : Follow × Bool :=
  let u := setUnion (configAt st.1.heap plp).fws (configAt st.1.heap cfp).fws
  (⟨st.1.heap.modify plp fun c => { c with fws := u.1 },
    if u.2 then st.1.complete.filter (· ≠ plp) else st.1.complete⟩, st.2 || u.2)

/-- The loop over the configurations (lemon.c:893-903). -/
def followConfig (st : Follow × Bool) (cfp : Nat) : Follow × Bool :=
  if cfp ∈ st.1.complete then st
  else
    let st' := (configAt st.1.heap cfp).fplp.foldl (followLink cfp) st
    ({ st'.1 with complete := cfp :: st'.1.complete }, st'.2)

/-- `FindFollowSets` (lemon.c:876-906). -/
def findFollowSets (lemp : Lemon) (b : Build) : Build :=
  { b with heap := (doWhile (pass followConfig b.configs) (b.configs.length * (lemp.nterminal + 1) + 1) ⟨b.heap, []⟩).heap }

variable {lemp : Lemon} {heap heap0 : List Config} {all cs : List Nat} {N a c d cfp plp : Nat} {st : Follow} {b b' : Build}
  {g : Bool}

/-! ## Links -/

/-- The links turned around for the configurations so far. -/
theorem foldl_linkStep (hlive : ∀ c ∈ cs, ∀ d ∈ (configAt heap c).bplp, d < heap.length) :
    (cs.foldl linkStep heap).length = heap.length ∧ ∀ c,
      itemAt (cs.foldl linkStep heap) c = itemAt heap c ∧
      (configAt (cs.foldl linkStep heap) c).fws = (configAt heap c).fws ∧
      (configAt (cs.foldl linkStep heap) c).bplp = (configAt heap c).bplp ∧
      ∀ d, d ∈ (configAt (cs.foldl linkStep heap) c).fplp ↔
        d ∈ (configAt heap c).fplp ∨ (d ∈ cs ∧ c ∈ (configAt heap d).bplp) := by
  -- one configuration's links
  have hone : ∀ (cfp : Nat) (ls : List Nat) (heap : List Config), (∀ d ∈ ls, d < heap.length) →
      let h' := ls.foldl (fun heap other => heap.modify other fun c => { c with fplp := cfp :: c.fplp }) heap
      h'.length = heap.length ∧ ∀ c, itemAt h' c = itemAt heap c ∧ (configAt h' c).fws = (configAt heap c).fws ∧
        (configAt h' c).bplp = (configAt heap c).bplp ∧
        ∀ d, d ∈ (configAt h' c).fplp ↔ d ∈ (configAt heap c).fplp ∨ (d = cfp ∧ c ∈ ls) := by
    intro cfp ls
    induction ls with
    | nil => exact fun heap _ => ⟨rfl, fun c => ⟨rfl, rfl, rfl, fun d => by simp⟩⟩
    | cons x ls ih =>
      intro heap hls
      obtain ⟨hx, hls⟩ := List.forall_mem_cons.1 hls
      have hlen : (heap.modify x fun c => { c with fplp := cfp :: c.fplp }).length = heap.length := List.length_modify _ _ _
      obtain ⟨h1, h2⟩ := ih (heap.modify x fun c => { c with fplp := cfp :: c.fplp }) (by rwa [hlen])
      rw [List.foldl_cons]
      refine ⟨h1.trans hlen, fun c => ?_⟩
      obtain ⟨hi, hf, hb, hl⟩ := h2 c
      simp only [hi, hf, hb, hl]
      unfold itemAt
      rw [configAt_modify hx]
      split
      next heq =>
        subst heq
        refine ⟨rfl, rfl, rfl, fun d => ?_⟩
        simp only [List.mem_cons]
        tauto
      next hne => exact ⟨rfl, rfl, rfl, fun d => by simp [hne]⟩
  induction cs generalizing heap with
  | nil => exact ⟨rfl, fun c => ⟨rfl, rfl, rfl, fun d => by simp⟩⟩
  | cons x cs ih =>
    obtain ⟨hx, hcs⟩ := List.forall_mem_cons.1 hlive
    obtain ⟨hlen, hx'⟩ := hone x _ heap hx
    have hcs' : ∀ c ∈ cs, ∀ d ∈ (configAt (linkStep heap x) c).bplp, d < (linkStep heap x).length := by
      intro c hc d hd
      have hb : d ∈ (configAt heap c).bplp := by
        rw [← (hx' c).2.2.1]
        exact hd
      exact (hcs c hc d hb).trans_eq hlen.symm
    obtain ⟨hlen', hrest⟩ := ih hcs'
    rw [List.foldl_cons]
    refine ⟨hlen'.trans hlen, fun c => ?_⟩
    obtain ⟨hi, hf, hb, hl⟩ := hrest c
    obtain ⟨hi', hf', hb', hl'⟩ := hx' c
    refine ⟨hi.trans hi', hf.trans hf', hb.trans hb', fun d => ?_⟩
    have hbd : (configAt (linkStep heap x) d).bplp = (configAt heap d).bplp := (hx' d).2.2.1
    have hld : d ∈ (configAt (linkStep heap x) c).fplp ↔
        d ∈ (configAt heap c).fplp ∨ (d = x ∧ c ∈ (configAt heap x).bplp) := hl' d
    rw [hl, hbd, hld, List.mem_cons]
    constructor
    · intro h
      rcases h with (h | ⟨rfl, h⟩) | ⟨h1, h2⟩
      · exact .inl h
      · exact .inr ⟨.inl rfl, h⟩
      · exact .inr ⟨.inr h1, h2⟩
    · intro h
      rcases h with h | ⟨rfl | h1, h2⟩
      · exact .inl (.inl h)
      · exact .inl (.inr ⟨rfl, h2⟩)
      · exact .inr ⟨h1, h2⟩

/-! ## Handing on -/

/-- What gets to a configuration along the links. -/
inductive Follows (heap0 : List Config) (all : List Nat) : Nat → Nat → Prop
  | own {c a : Nat} : c ∈ all → setFind (configAt heap0 c).fws a = true → Follows heap0 all c a
  | link {c d a : Nat} : Follows heap0 all c a → d ∈ (configAt heap0 c).fplp → Follows heap0 all d a

/-- What holds of the sets and the status all along. -/
structure FollowInv (heap0 : List Config) (all : List Nat) (N : Nat) (st : Follow) : Prop where
  length : st.heap.length = heap0.length
  item : ∀ c, itemAt st.heap c = itemAt heap0 c
  fplp : ∀ c, (configAt st.heap c).fplp = (configAt heap0 c).fplp
  size : ∀ c ∈ all, (configAt st.heap c).fws.length = N
  own : ∀ c ∈ all, ∀ a, setFind (configAt heap0 c).fws a = true → setFind (configAt st.heap c).fws a = true
  sound : ∀ c ∈ all, ∀ a, setFind (configAt st.heap c).fws a = true → Follows heap0 all c a
  closed : ∀ c ∈ st.complete, c ∈ all ∧ ∀ d ∈ (configAt heap0 c).fplp, ∀ a,
    setFind (configAt st.heap c).fws a = true → setFind (configAt st.heap d).fws a = true

/-- How many elements the follow sets have together. -/
def followSize (all : List Nat) (st : Follow) : Nat := (all.map fun c => members (configAt st.heap c).fws).sum

/-- What a step can do to the sets: they grow, and without progress nothing changes. -/
structure Handed (all : List Nat) (st st' : Follow × Bool) : Prop where
  grow : ∀ c ∈ all, ∀ a, setFind (configAt st.1.heap c).fws a = true → setFind (configAt st'.1.heap c).fws a = true
  still : st'.2 = false → st.2 = false ∧ ∀ c ∈ st.1.complete, c ∈ st'.1.complete
  size : followSize all st.1 ≤ followSize all st'.1
  progress : st'.2 = true → st.2 = true ∨ followSize all st.1 < followSize all st'.1

theorem Handed.refl (st : Follow × Bool) : Handed all st st :=
  ⟨fun _ _ _ h => h, fun h => ⟨h, fun _ h => h⟩, Nat.le_refl _, .inl⟩

theorem Handed.trans {st st' st'' : Follow × Bool} (h : Handed all st st') (h' : Handed all st' st'') : Handed all st st'' where
  grow c hc a ha := h'.grow c hc a (h.grow c hc a ha)
  still hf := by
    obtain ⟨hf', hsub⟩ := h'.still hf
    obtain ⟨hf'', hsub'⟩ := h.still hf'
    exact ⟨hf'', fun c hc => hsub c (hsub' c hc)⟩
  size := h.size.trans h'.size
  progress hp := by
    rcases h'.progress hp with hp | hlt
    · exact (h.progress hp).imp id fun hlt => hlt.trans_le h'.size
    · exact .inr (h.size.trans_lt hlt)

theorem followSize_modify {s : List Bool} (hnodup : all.Nodup) (hd : d < st.heap.length) (hmem : d ∈ all)
    (h : members (configAt st.heap d).fws ≤ members s) (complete : List Nat) :
    followSize all st ≤ followSize all ⟨st.heap.modify d fun c => { c with fws := s }, complete⟩ ∧
      (members (configAt st.heap d).fws < members s →
        followSize all st < followSize all ⟨st.heap.modify d fun c => { c with fws := s }, complete⟩) := by
  have hat : ∀ c, members (configAt (st.heap.modify d fun c => { c with fws := s }) c).fws =
      if c = d then members s else members (configAt st.heap c).fws := by
    intro c
    rw [configAt_modify hd]
    split <;> rfl
  unfold followSize
  simp only [hat]
  clear hat
  induction all with
  | nil => cases hmem
  | cons x all ih =>
    rw [List.nodup_cons] at hnodup
    rw [List.map_cons, List.map_cons, List.sum_cons, List.sum_cons]
    rcases List.mem_cons.1 hmem with rfl | hmem
    · have hrest : (all.map fun c => if c = d then members s else members (configAt st.heap c).fws) =
          all.map fun c => members (configAt st.heap c).fws :=
        List.map_congr_left fun c hc => if_neg fun (heq : c = d) => hnodup.1 (heq ▸ hc)
      rw [if_pos rfl, hrest]
      constructor
      · omega
      · omega
    · have hne : x ≠ d := fun heq => hnodup.1 (heq ▸ hmem)
      obtain ⟨h1, h2⟩ := ih hnodup.2 hmem
      rw [if_neg hne]
      constructor
      · omega
      · intro hlt
        have := h2 hlt
        omega

theorem followLink_spec (h : FollowInv heap0 all N st) (hall : ∀ c ∈ all, c < heap0.length) (hnodup : all.Nodup)
    (hcfp : cfp ∈ all) (hplp : plp ∈ (configAt heap0 cfp).fplp) (hmem : plp ∈ all) (hnot : cfp ∉ st.complete) :
    FollowInv heap0 all N (followLink cfp (st, g) plp).1 ∧ Handed all (st, g) (followLink cfp (st, g) plp) ∧
      cfp ∉ (followLink cfp (st, g) plp).1.complete ∧
      (∀ a, setFind (configAt (followLink cfp (st, g) plp).1.heap cfp).fws a = setFind (configAt st.heap cfp).fws a) ∧
      ∀ a, setFind (configAt st.heap cfp).fws a = true →
        setFind (configAt (followLink cfp (st, g) plp).1.heap plp).fws a = true := by
  have hd : plp < st.heap.length := by
    rw [h.length]
    exact hall plp hmem
  have hlen : (configAt st.heap plp).fws.length = (configAt st.heap cfp).fws.length := by
    rw [h.size plp hmem, h.size cfp hcfp]
  unfold followLink
  simp only
  generalize hu : setUnion (configAt st.heap plp).fws (configAt st.heap cfp).fws = u
  have hfind : ∀ a, setFind u.1 a = (setFind (configAt st.heap plp).fws a || setFind (configAt st.heap cfp).fws a) := by
    intro a
    rw [← hu]
    exact setFind_setUnion hlen
  have hat : ∀ c, configAt (st.heap.modify plp fun c => { c with fws := u.1 }) c =
      if c = plp then { configAt st.heap plp with fws := u.1 } else configAt st.heap c := fun c => configAt_modify hd
  have hfws : ∀ c, (configAt (st.heap.modify plp fun c => { c with fws := u.1 }) c).fws =
      if c = plp then u.1 else (configAt st.heap c).fws := by
    intro c
    rw [hat]
    split <;> rfl
  have hgrow : ∀ c a, setFind (configAt st.heap c).fws a = true →
      setFind (configAt (st.heap.modify plp fun c => { c with fws := u.1 }) c).fws a = true := by
    intro c a ha
    rw [hfws]
    split
    next heq =>
      rw [hfind, ← heq, ha, Bool.true_or]
    next => exact ha
  have hstill : u.2 = false → ∀ c, (configAt (st.heap.modify plp fun c => { c with fws := u.1 }) c).fws =
      (configAt st.heap c).fws := by
    intro hf c
    have hsame : u.1 = (configAt st.heap plp).fws := by
      rw [← hu] at hf ⊢
      exact (setUnion_still hlen hf).1
    rw [hfws]
    split
    next heq => rw [hsame, heq]
    next => rfl
  have hmembers : members (configAt st.heap plp).fws ≤ members u.1 := by
    rw [← hu]
    exact members_setUnion_le hlen
  obtain ⟨hle, hlt⟩ := followSize_modify hnodup hd hmem hmembers
    (if u.2 then st.complete.filter (· ≠ plp) else st.complete)
  refine ⟨⟨?_, fun c => ?_, fun c => ?_, fun c hc => ?_, fun c hc a ha => hgrow c a (h.own c hc a ha), fun c hc a ha => ?_,
    fun c hc => ?_⟩, ⟨fun c _ a ha => hgrow c a ha, fun hf => ?_, hle, fun hp => ?_⟩, ?_, fun a => ?_, fun a ha => ?_⟩
  · rw [List.length_modify, h.length]
  · rw [← h.item c]
    unfold itemAt
    rw [hat]
    split
    next heq => rw [heq]; rfl
    next => rfl
  · rw [← h.fplp c, hat]
    split
    next heq => rw [heq]
    next => rfl
  · rw [hfws]
    split
    next =>
      rw [← hu, length_setUnion hlen]
      exact h.size plp hmem
    next => exact h.size c hc
  · rw [hfws] at ha
    split at ha
    next heq =>
      subst heq
      rw [hfind, Bool.or_eq_true] at ha
      rcases ha with ha | ha
      · exact h.sound c hc a ha
      · exact (h.sound cfp hcfp a ha).link hplp
    next => exact h.sound c hc a ha
  · simp only at hc
    split at hc
    next hp =>
      obtain ⟨hcm, hne⟩ := List.mem_filter.1 hc
      have hne' : c ≠ plp := by simpa using hne
      obtain ⟨hca, hlinks⟩ := h.closed c hcm
      refine ⟨hca, fun d hd a ha => hgrow d a (hlinks d hd a ?_)⟩
      rwa [hfws, if_neg hne'] at ha
    next hp =>
      have hf : u.2 = false := by simpa using hp
      obtain ⟨hca, hlinks⟩ := h.closed c hc
      refine ⟨hca, fun d hd a ha => ?_⟩
      rw [hstill hf] at ha ⊢
      exact hlinks d hd a ha
  · simp only [Bool.or_eq_false_iff] at hf
    refine ⟨hf.1, fun c hc => ?_⟩
    simp only [hf.2]
    exact hc
  · simp only [Bool.or_eq_true] at hp
    refine hp.imp id fun hp => hlt ?_
    rw [← hu]
    exact members_setUnion hlen (hu ▸ hp)
  · intro hc
    split at hc
    next => exact hnot (List.mem_filter.1 hc).1
    next => exact hnot hc
  · rw [hfws]
    split
    next heq => rw [hfind, heq, Bool.or_self]
    next => rfl
  · rw [hfws, if_pos rfl, hfind, ha, Bool.or_true]

theorem foldl_followLink (h : FollowInv heap0 all N st) (hall : ∀ c ∈ all, c < heap0.length) (hnodup : all.Nodup)
    (hcfp : cfp ∈ all) (hnot : cfp ∉ st.complete) (hcs : ∀ d ∈ cs, d ∈ (configAt heap0 cfp).fplp ∧ d ∈ all) :
    FollowInv heap0 all N (cs.foldl (followLink cfp) (st, g)).1 ∧ Handed all (st, g) (cs.foldl (followLink cfp) (st, g)) ∧
      (∀ a, setFind (configAt (cs.foldl (followLink cfp) (st, g)).1.heap cfp).fws a = setFind (configAt st.heap cfp).fws a) ∧
      ∀ d ∈ cs, ∀ a, setFind (configAt st.heap cfp).fws a = true →
        setFind (configAt (cs.foldl (followLink cfp) (st, g)).1.heap d).fws a = true := by
  induction cs generalizing st g with
  | nil => exact ⟨h, .refl _, fun _ => rfl, by simp⟩
  | cons d cs ih =>
    obtain ⟨⟨hd, hmem⟩, hcs⟩ := List.forall_mem_cons.1 hcs
    obtain ⟨hinv, hh, hnot', hsame, hgot⟩ := followLink_spec (g := g) h hall hnodup hcfp hd hmem hnot
    obtain ⟨hinv', hh', hsame', hgot'⟩ := ih (g := (followLink cfp (st, g) d).2) hinv hnot' hcs
    rw [List.foldl_cons]
    refine ⟨hinv', hh.trans hh', fun a => (hsame' a).trans (hsame a), fun e he a ha => ?_⟩
    rcases List.mem_cons.1 he with rfl | he
    · exact hh'.grow e hmem a (hgot a ha)
    · exact hgot' e he a ((hsame a).trans ha)

/-- One configuration has handed on what it has. -/
theorem followConfig_spec (h : FollowInv heap0 all N st) (hall : ∀ c ∈ all, c < heap0.length) (hnodup : all.Nodup)
    (hlinks : ∀ c ∈ all, ∀ d ∈ (configAt heap0 c).fplp, d ∈ all) (hcfp : cfp ∈ all) :
    FollowInv heap0 all N (followConfig (st, g) cfp).1 ∧ Handed all (st, g) (followConfig (st, g) cfp) ∧
      cfp ∈ (followConfig (st, g) cfp).1.complete := by
  unfold followConfig
  by_cases hin : cfp ∈ st.complete
  · rw [if_pos hin]
    exact ⟨h, .refl _, hin⟩
  · rw [if_neg hin]
    simp only
    rw [h.fplp cfp]
    obtain ⟨hinv, hh, hsame, hgot⟩ := foldl_followLink (g := g) h hall hnodup hcfp hin
      fun d hd => ⟨hd, hlinks cfp hcfp d hd⟩
    generalize (configAt heap0 cfp).fplp.foldl (followLink cfp) (st, g) = st' at *
    refine ⟨{ hinv with closed := fun c hc => ?_ }, ⟨hh.grow, fun hf => ?_, hh.size, hh.progress⟩, List.mem_cons_self⟩
    · rcases List.mem_cons.1 hc with rfl | hc
      · exact ⟨hcfp, fun d hd a ha => hgot d hd a ((hsame a).symm.trans ha)⟩
      · exact hinv.closed c hc
    · obtain ⟨hf', hsub⟩ := hh.still hf
      exact ⟨hf', fun c hc => List.mem_cons_of_mem _ (hsub c hc)⟩

/-- A pass without progress leaves every configuration COMPLETE. -/
theorem followPass_spec (h : FollowInv heap0 all N st) (hall : ∀ c ∈ all, c < heap0.length) (hnodup : all.Nodup)
    (hlinks : ∀ c ∈ all, ∀ d ∈ (configAt heap0 c).fplp, d ∈ all) (hcs : ∀ c ∈ cs, c ∈ all) :
    FollowInv heap0 all N (cs.foldl followConfig (st, g)).1 ∧ Handed all (st, g) (cs.foldl followConfig (st, g)) ∧
      ((cs.foldl followConfig (st, g)).2 = false → ∀ c ∈ cs, c ∈ (cs.foldl followConfig (st, g)).1.complete) := by
  induction cs generalizing st g with
  | nil => exact ⟨h, .refl _, by simp⟩
  | cons c cs ih =>
    obtain ⟨hc, hcs⟩ := List.forall_mem_cons.1 hcs
    obtain ⟨hinv, hh, hin⟩ := followConfig_spec (g := g) h hall hnodup hlinks hc
    obtain ⟨hinv', hh', hdone⟩ := ih (g := (followConfig (st, g) c).2) hinv hcs
    rw [List.foldl_cons]
    refine ⟨hinv', hh.trans hh', fun hf d hd => ?_⟩
    rcases List.mem_cons.1 hd with rfl | hd
    · exact (hh'.still hf).2 d hin
    · exact hdone hf d hd

theorem followSize_le (h : FollowInv heap0 all N st) : followSize all st ≤ all.length * N := by
  unfold followSize
  have hle : ∀ x ∈ all.map fun c => members (configAt st.heap c).fws, x ≤ N := by
    intro x hx
    obtain ⟨c, hc, rfl⟩ := List.mem_map.1 hx
    exact (members_le _).trans_eq (h.size c hc)
  have hsum := List.sum_le_card_nsmul _ N hle
  rw [List.length_map] at hsum
  exact hsum

/-- **A follow set has what is handed on from somewhere, and nothing else.** -/
theorem findFollowSets_spec (lemp : Lemon) (b : Build) (hall : ∀ c ∈ b.configs, c < b.heap.length) (hnodup : b.configs.Nodup)
    (hlinks : ∀ c ∈ b.configs, ∀ d ∈ (configAt b.heap c).fplp, d ∈ b.configs)
    (hsize : ∀ c ∈ b.configs, (configAt b.heap c).fws.length = lemp.nterminal + 1) :
    (findFollowSets lemp b).states = b.states ∧ (∀ c, itemAt (findFollowSets lemp b).heap c = itemAt b.heap c) ∧
      ∀ c ∈ b.configs, ∀ a, setFind (configAt (findFollowSets lemp b).heap c).fws a = true ↔ Follows b.heap b.configs c a := by
  have hinit : FollowInv b.heap b.configs (lemp.nterminal + 1) ⟨b.heap, []⟩ :=
    ⟨rfl, fun _ => rfl, fun _ => rfl, hsize, fun _ _ _ h => h, fun _ hc _ h => .own hc h, by simp⟩
  have hP : ∀ st, FollowInv b.heap b.configs (lemp.nterminal + 1) st →
      FollowInv b.heap b.configs (lemp.nterminal + 1) (pass followConfig b.configs st).1 :=
    fun st hst => (followPass_spec hst hall hnodup hlinks fun _ h => h).1
  have hgrow : ∀ st, FollowInv b.heap b.configs (lemp.nterminal + 1) st →
      (pass followConfig b.configs st).2 = true →
      followSize b.configs st < followSize b.configs (pass followConfig b.configs st).1 := by
    intro st hst hp
    obtain ⟨_, hh, _⟩ := followPass_spec (g := false) hst hall hnodup hlinks fun _ h => h
    exact (hh.progress hp).resolve_left Bool.false_ne_true
  obtain ⟨st, hst, hf, heq⟩ := doWhile_stable hP (fun st hst => followSize_le hst) hgrow hinit
    (Nat.lt_add_left (followSize b.configs ⟨b.heap, []⟩) (Nat.lt_succ_self (b.configs.length * (lemp.nterminal + 1))))
  obtain ⟨hinv, _, hdone⟩ := followPass_spec (g := false) hst hall hnodup hlinks fun _ h => h
  have hcomplete := hdone hf
  have hheap : (findFollowSets lemp b).heap = (pass followConfig b.configs st).1.heap := by
    unfold findFollowSets
    rw [heq]
  refine ⟨rfl, fun c => ?_, fun c hc a => ⟨fun ha => ?_, fun ha => ?_⟩⟩
  · rw [hheap]
    exact hinv.item c
  · rw [hheap] at ha
    exact hinv.sound c hc a ha
  · rw [hheap]
    have hgen : c ∈ b.configs ∧ setFind (configAt (pass followConfig b.configs st).1.heap c).fws a = true := by
      clear hc
      induction ha with
      | own hc ha => exact ⟨hc, hinv.own _ hc _ ha⟩
      | link _ hd ih =>
        obtain ⟨hc, ha⟩ := ih
        exact ⟨hlinks _ hc _ hd, (hinv.closed _ (hcomplete _ hc)).2 _ hd _ ha⟩
    exact hgen.2

end Dbsql.L7
