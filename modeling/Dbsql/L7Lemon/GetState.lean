import Dbsql.L7Lemon.States
/-!
# The calls of getstate (lemon.c, getstate and buildshifts)

The inner loop of `buildshifts` collects, behind one symbol, the basis of the next state, and
links each new configuration back to the one it comes from. `getstate` finds a state with this
basis or makes it, and the links end up in that state's configurations.

Results:
* `collect_spec`: the basis has exactly the configurations with the dot moved over the symbol.
* `getstate_spec`: a call keeps `Inv`, gives back a state with the basis it was called with, and
  leaves no new state without its shifts.
* `findStates_spec`: so in the end every state has all its shifts.
-/
namespace Dbsql.L7

variable {lemp : Lemon} {heap heap' : List Config} {l : Configlist} {states : List State} {b b' : Build}
  {complete seen cs bp ybp : List Nat} {st : List Nat × Configlist} {c d q p sp X : Nat}

/-! ## Collecting a basis -/

/-- What the inner loop has done when it has gone over `seen`. -/
structure Collected (lemp : Lemon) (heap : List Config) (complete : List Nat) (sp : Nat) (seen : List Nat)
    (st : List Nat × Configlist) : Prop where
  length_le : heap.length ≤ st.2.heap.length
  old : ∀ c < heap.length, configAt st.2.heap c = configAt heap c
  same : st.2.basis = st.2.current
  fresh : ∀ c ∈ st.2.current, heap.length ≤ c ∧ c < st.2.heap.length
  nodup : (st.2.current.map st.2.item).Nodup
  fields : ∀ c ∈ st.2.current, (configAt st.2.heap c).fws = setNew (lemp.nterminal + 1) ∧ (configAt st.2.heap c).fplp = []
  marked : ∀ c, c ∈ st.1 ↔ c ∈ complete ∨ (c ∈ seen ∧ nextSymbol lemp (itemAt heap c) = some sp)
  links : ∀ c ∈ st.2.current, (∃ d, d ∈ (configAt st.2.heap c).bplp) ∧ ∀ d ∈ (configAt st.2.heap c).bplp,
    d ∈ seen ∧ nextSymbol lemp (itemAt heap d) = some sp ∧ st.2.item c = advance (itemAt heap d)
  all : ∀ d ∈ seen, d ∉ complete → nextSymbol lemp (itemAt heap d) = some sp →
    ∃ c ∈ st.2.current, st.2.item c = advance (itemAt heap d) ∧ d ∈ (configAt st.2.heap c).bplp

theorem collected_nil : Collected lemp heap complete sp [] (complete, ⟨heap, [], []⟩) where
  length_le := Nat.le_refl _
  old _ _ := rfl
  same := rfl
  fresh := by simp
  nodup := .nil
  fields := by simp
  marked := by simp
  links := by simp
  all := by simp

/-- What `Configlist_addbasis` does. -/
theorem addbasis_spec (lemp : Lemon) (rp dot : Nat) (hsame : l.basis = l.current) (hlive : ∀ c ∈ l.current, c < l.heap.length)
    (hnodup : (l.current.map l.item).Nodup) :
    let r := configlistAddbasis lemp l rp dot
    l.heap.length ≤ r.1.heap.length ∧ (∀ c < l.heap.length, configAt r.1.heap c = configAt l.heap c) ∧
      r.1.basis = r.1.current ∧ r.2 ∈ r.1.current ∧ r.1.item r.2 = (rp, dot) ∧ (r.1.current.map r.1.item).Nodup ∧
      (∀ c ∈ l.current, c ∈ r.1.current) ∧
      ∀ c ∈ r.1.current, c ∈ l.current ∨ (c = l.heap.length ∧ c < r.1.heap.length ∧ c = r.2 ∧
        configAt r.1.heap c = ⟨rp, dot, setNew (lemp.nterminal + 1), [], []⟩) := by
  intro r
  have hr : r = configlistAddbasis lemp l rp dot := rfl
  unfold configlistAddbasis at hr
  cases hfind : l.find rp dot with
  | some cfp =>
    rw [hfind] at hr
    obtain ⟨hmem, hitem⟩ := find_eq_some hfind
    rw [hr]
    exact ⟨Nat.le_refl _, fun _ _ => rfl, hsame, hmem, hitem, hnodup, fun _ h => h, fun c hc => .inl hc⟩
  | none =>
    rw [hfind] at hr
    have hnd : ((l.append lemp rp dot).current.map (l.append lemp rp dot).item).Nodup :=
      append_nodup hlive hnodup hfind
    have hself : configAt (l.append lemp rp dot).heap l.heap.length =
        ⟨rp, dot, setNew (lemp.nterminal + 1), [], []⟩ := configAt_append_self
    have hlen : (l.append lemp rp dot).heap.length = l.heap.length + 1 := by simp [Configlist.append]
    rw [hr]
    refine ⟨?_, fun c hc => configAt_append hc, ?_, ?_, append_item_new, hnd, fun c hc => ?_, fun c hc => ?_⟩
    · simp only [hlen]
      exact Nat.le_succ _
    · simp only [Configlist.append, hsame]
    · exact List.mem_append_right _ List.mem_cons_self
    · exact List.mem_append_left _ hc
    · rcases List.mem_append.1 hc with hc | hc
      · exact .inl hc
      · rw [List.mem_singleton] at hc
        refine .inr ⟨hc, ?_, hc, hc ▸ hself⟩
        simp only [hlen, hc]
        exact Nat.lt_succ_self _

/-- A round of the loop that does nothing. -/
theorem Collected.skip (h : Collected lemp heap complete sp seen st) {bcfp : Nat}
    (hno : bcfp ∈ complete ∨ nextSymbol lemp (itemAt heap bcfp) ≠ some sp) :
    Collected lemp heap complete sp (seen ++ [bcfp]) st := by
  refine { h with marked := fun c => ?_, links := fun c hc => ?_, all := fun d hd hdc hX => ?_ }
  · rw [h.marked, List.mem_append, List.mem_singleton]
    constructor
    · intro hc
      exact hc.imp id fun hc => ⟨.inl hc.1, hc.2⟩
    · intro hc
      rcases hc with hc | ⟨hc | rfl, hX⟩
      · exact .inl hc
      · exact .inr ⟨hc, hX⟩
      · exact .inl (hno.resolve_right fun hne => hne hX)
  · obtain ⟨hne, hall⟩ := h.links c hc
    exact ⟨hne, fun d hd => ⟨List.mem_append_left _ (hall d hd).1, (hall d hd).2⟩⟩
  · rcases List.mem_append.1 hd with hd | hd
    · exact h.all d hd hdc hX
    · rw [List.mem_singleton] at hd
      subst hd
      exact (hno.elim hdc fun hne => hne hX).elim

/-- A round that moves the dot of one configuration, and links the new one back to it. -/
theorem Collected.take (h : Collected lemp heap complete sp seen st) {bcfp n : Nat}
    (hX : nextSymbol lemp (itemAt heap bcfp) = some sp)
    (hr : configlistAddbasis lemp st.2 (itemAt heap bcfp).1 ((itemAt heap bcfp).2 + 1) = (l, n)) :
    Collected lemp heap complete sp (seen ++ [bcfp])
      (bcfp :: st.1, l.modify n fun x => { x with bplp := bcfp :: x.bplp }) := by
  have hlv : ∀ c ∈ st.2.current, c < st.2.heap.length := fun c hc => (h.fresh c hc).2
  obtain ⟨hle, hold, hsame, hmem, hri, hnd, hkeep, hcases⟩ :=
    addbasis_spec lemp (itemAt heap bcfp).1 ((itemAt heap bcfp).2 + 1) h.same hlv h.nodup
  rw [hr] at hle hold hsame hmem hri hnd hkeep hcases
  simp only at hle hold hsame hmem hri hnd hkeep hcases
  have hbounds : ∀ c ∈ l.current, heap.length ≤ c ∧ c < l.heap.length := by
    intro c hc
    rcases hcases c hc with hc | ⟨rfl, hlt, _⟩
    · exact ⟨(h.fresh c hc).1, (h.fresh c hc).2.trans_le hle⟩
    · exact ⟨h.length_le, hlt⟩
  have hn := (hbounds n hmem).2
  have hat : ∀ c, configAt (l.modify n fun x => { x with bplp := bcfp :: x.bplp }).heap c =
      if c = n then { configAt l.heap n with bplp := bcfp :: (configAt l.heap n).bplp } else configAt l.heap c :=
    fun c => configAt_modify hn
  have hit : (l.modify n fun x => { x with bplp := bcfp :: x.bplp }).item = l.item :=
    funext fun c => modify_item hn fun _ => rfl
  have hio : ∀ c ∈ st.2.current, l.item c = st.2.item c :=
    fun c hc => congrArg Config.item (hold c (h.fresh c hc).2)
  have hbplp : ∀ c, (configAt (l.modify n fun x => { x with bplp := bcfp :: x.bplp }).heap c).bplp =
      if c = n then bcfp :: (configAt l.heap n).bplp else (configAt l.heap c).bplp := by
    intro c
    rw [hat]
    split <;> rfl
  have hprev : ∀ c ∈ l.current, ∀ d ∈ (configAt l.heap c).bplp,
      d ∈ seen ∧ nextSymbol lemp (itemAt heap d) = some sp ∧ l.item c = advance (itemAt heap d) := by
    intro c hc d hd
    rcases hcases c hc with hc | ⟨_, _, _, hfields⟩
    · rw [hold c (h.fresh c hc).2] at hd
      rw [hio c hc]
      exact (h.links c hc).2 d hd
    · rw [hfields] at hd
      cases hd
  refine ⟨h.length_le.trans (hle.trans (by simp [Configlist.modify])), fun c hc => ?_, hsame, fun c hc => ?_, ?_,
    fun c hc => ?_, fun c => ?_, fun c hc => ⟨?_, fun d hd => ?_⟩, fun d hd hdc hdX => ?_⟩
  · rw [hat, if_neg (by have hge := (hbounds n hmem).1; omega), hold c (hc.trans_le h.length_le)]
    exact h.old c hc
  · have hb := hbounds c hc
    exact ⟨hb.1, by simpa [Configlist.modify] using hb.2⟩
  · rw [hit]
    exact hnd
  · have hf : (configAt l.heap c).fws = setNew (lemp.nterminal + 1) ∧ (configAt l.heap c).fplp = [] := by
      rcases hcases c hc with hc | ⟨_, _, _, hfields⟩
      · rw [hold c (h.fresh c hc).2]
        exact h.fields c hc
      · rw [hfields]
        exact ⟨rfl, rfl⟩
    rw [hat]
    split
    next heq => exact heq ▸ hf
    next => exact hf
  · rw [List.mem_cons, h.marked, List.mem_append, List.mem_singleton]
    constructor
    · intro hc
      rcases hc with rfl | hc | ⟨hc, hcX⟩
      · exact .inr ⟨.inr rfl, hX⟩
      · exact .inl hc
      · exact .inr ⟨.inl hc, hcX⟩
    · intro hc
      rcases hc with hc | ⟨hc | hc, hcX⟩
      · exact .inr (.inl hc)
      · exact .inr (.inr ⟨hc, hcX⟩)
      · exact .inl hc
  · rw [hbplp]
    split
    next => exact ⟨bcfp, List.mem_cons_self⟩
    next hne =>
      rcases hcases c hc with hc | ⟨_, _, heq, _⟩
      · rw [hold c (h.fresh c hc).2]
        exact (h.links c hc).1
      · exact absurd heq hne
  · rw [hbplp] at hd
    rw [hit]
    split at hd
    next heq =>
      rcases List.mem_cons.1 hd with rfl | hd
      · exact ⟨List.mem_append_right _ List.mem_cons_self, hX, heq ▸ hri⟩
      · obtain ⟨h1, h2, h3⟩ := hprev n hmem d hd
        exact ⟨List.mem_append_left _ h1, h2, heq ▸ h3⟩
    next =>
      obtain ⟨h1, h2, h3⟩ := hprev c hc d hd
      exact ⟨List.mem_append_left _ h1, h2, h3⟩
  · rcases List.mem_append.1 hd with hd | hd
    · obtain ⟨c, hc, hci, hlink⟩ := h.all d hd hdc hdX
      refine ⟨c, hkeep c hc, ?_, ?_⟩
      · rw [hit, hio c hc, hci]
      · rw [hbplp]
        split
        next heq =>
          rw [← heq, hold c (h.fresh c hc).2]
          exact List.mem_cons_of_mem _ hlink
        next =>
          rw [hold c (h.fresh c hc).2]
          exact hlink
    · rw [List.mem_singleton] at hd
      subst hd
      refine ⟨n, hmem, ?_, ?_⟩
      · rw [hit]
        exact hri
      · rw [hbplp, if_pos rfl]
        exact List.mem_cons_self

theorem basisStep_spec (h : Collected lemp heap complete sp seen st) {bcfp : Nat} (hlive : bcfp < heap.length)
    (hnew : bcfp ∉ complete → bcfp ∉ seen) : Collected lemp heap complete sp (seen ++ [bcfp]) (basisStep lemp sp st bcfp) := by
  have hitem : st.2.item bcfp = itemAt heap bcfp := congrArg Config.item (h.old bcfp hlive)
  unfold basisStep
  by_cases hin : bcfp ∈ st.1
  · rw [if_pos hin]
    rcases (h.marked bcfp).1 hin with hc | ⟨hs, _⟩
    · exact h.skip (.inl hc)
    · by_cases hc : bcfp ∈ complete
      · exact h.skip (.inl hc)
      · exact absurd hs (hnew hc)
  · rw [if_neg hin, hitem]
    by_cases hX : nextSymbol lemp (itemAt heap bcfp) = some sp
    · rw [if_neg (not_not.2 hX)]
      exact h.take hX rfl
    · rw [if_pos hX]
      exact h.skip (.inr hX)

theorem foldl_basisStep (h : Collected lemp heap complete sp seen st) (hlive : ∀ c ∈ cs, c < heap.length)
    (hnodup : (seen ++ cs).Nodup) : Collected lemp heap complete sp (seen ++ cs) (cs.foldl (basisStep lemp sp) st) := by
  induction cs generalizing seen st with
  | nil => simpa using h
  | cons c cs ih =>
    obtain ⟨hc, hcs⟩ := List.forall_mem_cons.1 hlive
    have happ : seen ++ c :: cs = seen ++ [c] ++ cs := by simp
    have hnot : c ∉ seen := fun hin => (List.nodup_append.1 hnodup).2.2 c hin c List.mem_cons_self rfl
    rw [List.foldl_cons, happ]
    exact ih (basisStep_spec h hc fun _ => hnot) hcs (happ ▸ hnodup)

/-- **The inner loop collects the configurations with the symbol behind the dot**, moved over it. -/
theorem collect_spec (hlive : ∀ c ∈ cs, c < heap.length) (hnodup : cs.Nodup) :
    Collected lemp heap complete sp cs (cs.foldl (basisStep lemp sp) (complete, ⟨heap, [], []⟩)) :=
  foldl_basisStep collected_nil hlive hnodup

/-! ## Handing links over -/

theorem mem_plinkCopy {dst src : List Nat} : d ∈ plinkCopy dst src ↔ d ∈ src ∨ d ∈ dst := by
  unfold plinkCopy
  induction src generalizing dst with
  | nil => simp
  | cons x src ih =>
    rw [List.foldl_cons, ih, List.mem_cons, List.mem_cons]
    grind

/-- One round of the loop of `copyLinks`. -/
def copyStep (heap : List Config) (e : Nat × Nat) : List Config :=
  let heap := heap.modify e.2 fun y => { y with bplp := plinkCopy y.bplp (configAt heap e.1).bplp }
  heap.modify e.1 fun x => { x with fplp := [], bplp := [] }

theorem copyLinks_eq : copyLinks heap bp ybp = (bp.zip ybp).foldl copyStep heap := rfl

/-- All but the configurations the links are taken from keep what they have. -/
theorem copyStep_spec {e : Nat × Nat} (h1 : e.1 < heap.length) (h2 : e.2 < heap.length) (hc : c ≠ e.1) :
    itemAt (copyStep heap e) c = itemAt heap c ∧ (configAt (copyStep heap e) c).fws = (configAt heap c).fws ∧
      (configAt (copyStep heap e) c).fplp = (configAt heap c).fplp ∧
      ∀ d, d ∈ (configAt (copyStep heap e) c).bplp ↔
        d ∈ (configAt heap c).bplp ∨ (c = e.2 ∧ d ∈ (configAt heap e.1).bplp) := by
  unfold itemAt copyStep
  simp only
  rw [configAt_modify (by simpa using h1), if_neg hc, configAt_modify h2]
  split
  next heq =>
    subst heq
    refine ⟨rfl, rfl, rfl, fun d => ?_⟩
    simp only [mem_plinkCopy]
    tauto
  next hne => exact ⟨rfl, rfl, rfl, fun d => by simp [hne]⟩

theorem length_copyStep (e : Nat × Nat) : (copyStep heap e).length = heap.length := by simp [copyStep]

theorem foldl_copyStep (es : List (Nat × Nat)) (hlive : ∀ e ∈ es, e.1 < heap.length ∧ e.2 < heap.length)
    (hnodup : (es.map Prod.fst).Nodup) (hapart : ∀ e ∈ es, ∀ e' ∈ es, e'.2 ≠ e.1) :
    (es.foldl copyStep heap).length = heap.length ∧ ∀ c, (∀ e ∈ es, c ≠ e.1) →
      itemAt (es.foldl copyStep heap) c = itemAt heap c ∧
      (configAt (es.foldl copyStep heap) c).fws = (configAt heap c).fws ∧
      (configAt (es.foldl copyStep heap) c).fplp = (configAt heap c).fplp ∧
      ∀ d, d ∈ (configAt (es.foldl copyStep heap) c).bplp ↔
        d ∈ (configAt heap c).bplp ∨ ∃ e ∈ es, c = e.2 ∧ d ∈ (configAt heap e.1).bplp := by
  induction es generalizing heap with
  | nil => exact ⟨rfl, fun c _ => ⟨rfl, rfl, rfl, fun d => by simp⟩⟩
  | cons e es ih =>
    obtain ⟨⟨h1, h2⟩, hlive⟩ := List.forall_mem_cons.1 hlive
    rw [List.map_cons, List.nodup_cons] at hnodup
    have hne : ∀ e' ∈ es, e'.1 ≠ e.1 := fun e' he' heq => hnodup.1 (heq ▸ List.mem_map_of_mem he')
    have hlive' : ∀ e' ∈ es, e'.1 < (copyStep heap e).length ∧ e'.2 < (copyStep heap e).length := by
      simpa [length_copyStep] using hlive
    obtain ⟨hlen, hrest⟩ := ih hlive' hnodup.2
      fun e1 h1 e2 h2 => hapart e1 (List.mem_cons_of_mem _ h1) e2 (List.mem_cons_of_mem _ h2)
    rw [List.foldl_cons]
    refine ⟨by rw [hlen, length_copyStep], fun c hc => ?_⟩
    obtain ⟨hce, hces⟩ := List.forall_mem_cons.1 hc
    obtain ⟨hi, hf, hl, hb⟩ := hrest c hces
    obtain ⟨hi', hf', hl', hb'⟩ := copyStep_spec h1 h2 hce
    refine ⟨hi.trans hi', hf.trans hf', hl.trans hl', fun d => ?_⟩
    -- what the others are taken from is not changed by this one
    have hsame : ∀ e' ∈ es, ∀ d, d ∈ (configAt (copyStep heap e) e'.1).bplp ↔ d ∈ (configAt heap e'.1).bplp := by
      intro e' he' d
      rw [(copyStep_spec h1 h2 (hne e' he')).2.2.2 d]
      have hno : e'.1 ≠ e.2 := (hapart e' (List.mem_cons_of_mem _ he') e List.mem_cons_self).symm
      simp [hno]
    rw [hb, hb', or_assoc, List.exists_mem_cons_iff]
    refine or_congr Iff.rfl (or_congr Iff.rfl ?_)
    constructor
    · intro h
      obtain ⟨e', he', hce', hd⟩ := h
      exact ⟨e', he', hce', (hsame e' he' d).1 hd⟩
    · intro h
      obtain ⟨e', he', hce', hd⟩ := h
      exact ⟨e', he', hce', (hsame e' he' d).2 hd⟩

/-! ## Calls -/

/-- What `getstate` is called with: the basis of the first state, or what a state shifts. -/
structure Ready (lemp : Lemon) (states : List State) (l : Configlist) : Prop where
  ok : BasisOk lemp l
  same : l.basis = l.current
  fresh : ∀ q c, (Build.mk l.heap states).At q c → c ∉ l.current
  fws : ∀ c ∈ l.current, ∀ a, setFind (configAt l.heap c).fws a = true → (l.item c).2 = 0 ∧ a = 0
  origin : (states = [] ∧
      (∀ x, x ∈ l.current.map l.item ↔ x.2 = 0 ∧ x.1 ∈ lemp.rulesOf lemp.startSymbol) ∧
      ∀ c ∈ l.current, setFind (configAt l.heap c).fws 0 = true ∧ (configAt l.heap c).bplp = []) ∨
    ∃ p X, (∃ c, (Build.mk l.heap states).At p c ∧ nextSymbol lemp (itemAt l.heap c) = some X) ∧
      (∀ x, x ∈ l.current.map l.item ↔ ∃ c, (Build.mk l.heap states).At p c ∧
        nextSymbol lemp (itemAt l.heap c) = some X ∧ x = advance (itemAt l.heap c)) ∧
      ∀ c ∈ l.current, ∀ d ∈ (configAt l.heap c).bplp, (Build.mk l.heap states).At p d ∧
        nextSymbol lemp (itemAt l.heap d) = some X ∧ l.item c = advance (itemAt l.heap d)

/-- What `getstate` has done when it returns. -/
structure Found (lemp : Lemon) (states : List State) (l : Configlist) (r : Build × Nat) : Prop where
  inv : Inv lemp r.1
  later : Later ⟨l.heap, states⟩ r.1
  old : ∀ q < states.length, r.1.states[q]? = states[q]?
  found : ∃ st, r.1.states[r.2]? = some st ∧
    (∀ x, x ∈ st.bp.map (itemAt r.1.heap) ↔ x ∈ l.current.map l.item) ∧
    ∀ c ∈ l.current, ∃ d ∈ st.bp, itemAt r.1.heap d = l.item c ∧
      ∀ e ∈ (configAt l.heap c).bplp, e ∈ (configAt r.1.heap d).bplp
  done : ∀ q, states.length ≤ q → q < r.1.states.length → Done lemp r.1 q

/-- What the loop of `buildshifts` for the state `p` keeps. -/
structure Shifting (lemp : Lemon) (p : Nat) (cs pre complete : List Nat) (b : Build) : Prop where
  inv : Inv lemp b
  here : ∃ st, b.states[p]? = some st ∧ st.cfp = cs ∧ ∀ ap ∈ st.ap, ∃ c ∈ complete, nextSymbol lemp (itemAt b.heap c) = some ap.sp
  pre : ∀ c ∈ pre, nextSymbol lemp (itemAt b.heap c) = none ∨ c ∈ complete
  shifted : ∀ c ∈ complete, c ∈ cs ∧ ShiftDone lemp b p c
  closed : ∀ c ∈ complete, ∀ d ∈ cs, ∀ X, nextSymbol lemp (itemAt b.heap c) = some X →
    nextSymbol lemp (itemAt b.heap d) = some X → d ∈ complete
  done : ∀ q, p < q → q < b.states.length → Done lemp b q

section
variable {pre next : List Nat} {cfp : Nat}

theorem Shifting.at_iff (h : Shifting lemp p cs pre complete b) : b.At p c ↔ c ∈ cs := by
  obtain ⟨st, hst, hcfp, _⟩ := h.here
  constructor
  · intro hc
    obtain ⟨st', hst', hmem⟩ := hc
    rw [hst] at hst'
    cases hst'
    exact hcfp ▸ hmem
  · intro hc
    exact ⟨st, hst, hcfp ▸ hc⟩

/-- Everything the symbol stands before is still to be done. -/
theorem Shifting.open (h : Shifting lemp p cs pre complete b) (hcs : cs = pre ++ cfp :: next) (hnot : cfp ∉ complete)
    (hX : nextSymbol lemp (itemAt b.heap cfp) = some X) (hd : d ∈ cs) (hdX : nextSymbol lemp (itemAt b.heap d) = some X) :
    d ∈ cfp :: next ∧ d ∉ complete := by
  have hcfp : cfp ∈ cs := by simp [hcs]
  have hdc : d ∉ complete := fun hin => hnot (h.closed d hin cfp hcfp X hdX hX)
  rw [hcs] at hd
  rcases List.mem_append.1 hd with hd | hd
  · rcases h.pre d hd with hnone | hin
    · rw [hdX] at hnone
      cases hnone
    · exact absurd hin hdc
  · exact ⟨hd, hdc⟩

/-- The basis that is collected is ready for `getstate`. -/
theorem Shifting.ready (h : Shifting lemp p cs pre complete b) (hcs : cs = pre ++ cfp :: next) (hnot : cfp ∉ complete)
    (hX : nextSymbol lemp (itemAt b.heap cfp) = some X) (hcol : Collected lemp b.heap complete X (cfp :: next) st) :
    Later b ⟨st.2.heap, b.states⟩ ∧ Inv lemp ⟨st.2.heap, b.states⟩ ∧ Ready lemp b.states st.2 := by
  have hlive : ∀ q c, b.At q c → c < b.heap.length := by
    intro q c hc
    obtain ⟨st', hst', hmem⟩ := hc
    exact (h.inv.ok st' (List.mem_of_getElem? hst')).live c hmem
  have hkeep : ∀ q c, b.At q c → configAt st.2.heap c = configAt b.heap c := fun q c hc => hcol.old c (hlive q c hc)
  have hitem : ∀ q c, b.At q c → itemAt st.2.heap c = itemAt b.heap c := fun q c hc => congrArg Config.item (hkeep q c hc)
  have hlater : Later b ⟨st.2.heap, b.states⟩ := by
    refine ⟨hcol.length_le, fun q c hc => ⟨hitem q c hc, ?_, ?_, fun d hd => ?_⟩,
      fun q st' hst' => ⟨st', hst', rfl, rfl, fun _ hap => hap⟩⟩
    · exact congrArg Config.fws (hkeep q c hc)
    · exact congrArg Config.fplp (hkeep q c hc)
    · simp only
      rw [hkeep q c hc]
      exact hd
  have hseen : ∀ d ∈ cfp :: next, b.At p d := by
    intro d hd
    rw [h.at_iff, hcs]
    exact List.mem_append_right _ hd
  refine ⟨hlater, h.inv.relink hlater fun q c hc d hd => .inl (hkeep q c hc ▸ hd), ⟨⟨?_, hcol.nodup, fun c hc => ?_, ?_, ?_⟩,
    hcol.same, fun q c hc hin => ?_, fun c hc a ha => ?_, .inr ⟨p, X, ?_, fun x => ?_, fun c hc d hd => ?_⟩⟩⟩
  · exact fun c hc => (hcol.fresh c hc).2
  · obtain ⟨⟨d, hd⟩, hall⟩ := hcol.links c hc
    obtain ⟨_, hdX, heq⟩ := hall d hd
    rw [heq]
    obtain ⟨r, hr, hsym⟩ := Option.bind_eq_some_iff.1 hdX
    exact mem_items.2 ⟨r, hr, (List.getElem?_eq_some_iff.1 hsym).1⟩
  · intro c hc
    rw [(hcol.fields c hc).1]
    exact length_setNew
  · exact fun c hc => (hcol.fields c hc).2
  · exact absurd (hlive q c hc) (Nat.not_lt.2 (hcol.fresh c hin).1)
  · rw [(hcol.fields c hc).1, setFind_setNew] at ha
    cases ha
  · refine ⟨cfp, hseen cfp List.mem_cons_self, ?_⟩
    rw [hitem p cfp (hseen cfp List.mem_cons_self)]
    exact hX
  · constructor
    · intro hx
      obtain ⟨c, hc, rfl⟩ := List.mem_map.1 hx
      obtain ⟨⟨d, hd⟩, hall⟩ := hcol.links c hc
      obtain ⟨hmem, hdX, heq⟩ := hall d hd
      refine ⟨d, hseen d hmem, ?_⟩
      rw [hitem p d (hseen d hmem)]
      exact ⟨hdX, heq⟩
    · intro hx
      obtain ⟨d, hd, hdX, rfl⟩ := hx
      have hd' : b.At p d := hd
      rw [hitem p d hd'] at hdX ⊢
      obtain ⟨hmem, hdc⟩ := h.open hcs hnot hX (h.at_iff.1 hd') hdX
      obtain ⟨c, hc, heq, _⟩ := hcol.all d hmem hdc hdX
      exact List.mem_map.2 ⟨c, hc, heq⟩
  · obtain ⟨hmem, hdX, heq⟩ := (hcol.links c hc).2 d hd
    refine ⟨hseen d hmem, ?_⟩
    rw [hitem p d (hseen d hmem)]
    exact ⟨hdX, heq⟩

/-- The state found has the basis collected, so `p` shifts the symbol to it. -/
theorem Shifting.goto (h : Shifting lemp p cs pre complete b) (hcs : cs = pre ++ cfp :: next) (hnot : cfp ∉ complete)
    (hX : nextSymbol lemp (itemAt b.heap cfp) = some X) (hcol : Collected lemp b.heap complete X (cfp :: next) st)
    {r : Build × Nat} (hr : Found lemp b.states st.2 r) (hl1 : Later b r.1) : Goto lemp r.1 p X r.2 := by
  obtain ⟨stp, hstp, _⟩ := h.here
  have hp : p < b.states.length := (List.getElem?_eq_some_iff.1 hstp).1
  have hitem : ∀ c ∈ cs, itemAt r.1.heap c = itemAt b.heap c := fun c hc => (hl1.config p c (h.at_iff.2 hc)).1
  have hcfp : cfp ∈ cs := by simp [hcs]
  obtain ⟨stn, hstn, hbasis, _⟩ := hr.found
  refine ⟨⟨cfp, hl1.at (h.at_iff.2 hcfp), by rw [hitem cfp hcfp]; exact hX⟩, stn, hstn, fun x => ?_⟩
  rw [hbasis]
  constructor
  · intro hx
    obtain ⟨c, hc, rfl⟩ := List.mem_map.1 hx
    obtain ⟨⟨d, hd⟩, hall⟩ := hcol.links c hc
    obtain ⟨hmem, hdX, heq⟩ := hall d hd
    have hdcs : d ∈ cs := by
      rw [hcs]
      exact List.mem_append_right _ hmem
    refine ⟨d, hl1.at (h.at_iff.2 hdcs), ?_⟩
    rw [hitem d hdcs]
    exact ⟨hdX, heq⟩
  · intro hx
    obtain ⟨d, hd, hdX, rfl⟩ := hx
    have hdcs : d ∈ cs := h.at_iff.1 (hl1.of_at hp hd)
    rw [hitem d hdcs] at hdX ⊢
    obtain ⟨hmem, hdc⟩ := h.open hcs hnot hX hdcs hdX
    obtain ⟨c, hc, heq, _⟩ := hcol.all d hmem hdc hdX
    exact List.mem_map.2 ⟨c, hc, heq⟩

/-- **One shift more**: the state of the symbol is found or made, and the action added. -/
theorem Shifting.step (h : Shifting lemp p cs pre complete b) (hcs : cs = pre ++ cfp :: next) (hnot : cfp ∉ complete)
    (hX : nextSymbol lemp (itemAt b.heap cfp) = some X) (hcol : Collected lemp b.heap complete X (cfp :: next) st)
    {r : Build × Nat} (hr : Found lemp b.states st.2 r) :
    Shifting lemp p cs (pre ++ [cfp]) st.1 (r.1.addAction p ⟨X, .SHIFT, r.2⟩) ∧
      Later b (r.1.addAction p ⟨X, .SHIFT, r.2⟩) ∧
      ∀ q < b.states.length, q ≠ p → (r.1.addAction p ⟨X, .SHIFT, r.2⟩).states[q]? = b.states[q]? := by
  obtain ⟨hlater, _, hready⟩ := h.ready hcs hnot hX hcol
  have hl1 : Later b r.1 := hlater.trans hr.later
  have hl2 : Later r.1 (r.1.addAction p ⟨X, .SHIFT, r.2⟩) := later_addAction
  have hl : Later b (r.1.addAction p ⟨X, .SHIFT, r.2⟩) := hl1.trans hl2
  obtain ⟨stp, hstp, hcfps, hacts⟩ := h.here
  have hp : p < b.states.length := (List.getElem?_eq_some_iff.1 hstp).1
  have hstp1 : r.1.states[p]? = some stp := by rw [hr.old p hp, hstp]
  have hitem : ∀ c ∈ cs, itemAt r.1.heap c = itemAt b.heap c := fun c hc => (hl1.config p c (h.at_iff.2 hc)).1
  have hcfp : cfp ∈ cs := by simp [hcs]
  obtain ⟨stn, hstn, _, hlinks⟩ := hr.found
  have hgoto := h.goto hcs hnot hX hcol hr hl1
  have hinv : Inv lemp (r.1.addAction p ⟨X, .SHIFT, r.2⟩) := by
    refine hr.inv.addAction hgoto fun st' hst' ap hap hsp => ?_
    rw [hstp1] at hst'
    cases hst'
    obtain ⟨c, hc, hcX⟩ := hacts ap hap
    rw [hsp] at hcX
    exact hnot (h.closed c hc cfp hcfp X hcX hX)
  have hstp2 : (r.1.addAction p ⟨X, .SHIFT, r.2⟩).states[p]? = some { stp with ap := ⟨X, .SHIFT, r.2⟩ :: stp.ap } := by
    rw [addAction_state, hstp1]
    simp
  have hheap : (r.1.addAction p ⟨X, .SHIFT, r.2⟩).heap = r.1.heap := rfl
  have hmarked : ∀ c ∈ complete, c ∈ st.1 := fun c hc => (hcol.marked c).2 (.inl hc)
  have hcfp1 : cfp ∈ st.1 := (hcol.marked cfp).2 (.inr ⟨List.mem_cons_self, hX⟩)
  refine ⟨⟨hinv, ⟨_, hstp2, hcfps, fun ap hap => ?_⟩, fun c hc => ?_, fun c hc => ?_, fun c hc d hd Y hcY hdY => ?_,
    fun q hq hlt => ?_⟩, hl, fun q hq hne => ?_⟩
  · rw [hheap]
    rcases List.mem_cons.1 hap with rfl | hap
    · exact ⟨cfp, hcfp1, by rw [hitem cfp hcfp]; exact hX⟩
    · obtain ⟨c, hc, hcX⟩ := hacts ap hap
      exact ⟨c, hmarked c hc, by rw [hitem c (h.shifted c hc).1]; exact hcX⟩
  · rw [hheap]
    rcases List.mem_append.1 hc with hc | hc
    · have hccs : c ∈ cs := by
        rw [hcs]
        exact List.mem_append_left _ hc
      rw [hitem c hccs]
      exact (h.pre c hc).imp id (hmarked c)
    · rw [List.mem_singleton.1 hc]
      exact .inr hcfp1
  · -- what was shifted before, and what is shifted now
    rcases (hcol.marked c).1 hc with hc | ⟨hmem, hcX⟩
    · obtain ⟨hccs, hs⟩ := h.shifted c hc
      exact ⟨hccs, hs.mono h.inv hl (h.at_iff.2 hccs)⟩
    · have hccs : c ∈ cs := by
        rw [hcs]
        exact List.mem_append_right _ hmem
      obtain ⟨_, hdc⟩ := h.open hcs hnot hX hccs hcX
      obtain ⟨e, he, heq, hlink⟩ := hcol.all c hmem hdc hcX
      obtain ⟨d, hd, hdi, hback⟩ := hlinks e he
      refine ⟨hccs, fun Y hY => ?_⟩
      rw [hheap, hitem c hccs, hcX] at hY
      cases hY
      obtain ⟨stn2, hstn2, hbp2, _⟩ := hl2.state r.2 stn hstn
      refine ⟨_, stn2, ⟨X, .SHIFT, r.2⟩, d, hstp2, List.mem_cons_self, rfl, hstn2, hbp2 ▸ hd, ?_, ?_⟩
      · rw [hheap, hitem c hccs, hdi, heq]
      · exact hback c hlink
  · rw [hheap] at hcY hdY
    rcases (hcol.marked c).1 hc with hc | ⟨hmem, hcX⟩
    · rw [hitem c (h.shifted c hc).1] at hcY
      rw [hitem d hd] at hdY
      exact hmarked d (h.closed c hc d hd Y hcY hdY)
    · have hccs : c ∈ cs := by
        rw [hcs]
        exact List.mem_append_right _ hmem
      rw [hitem c hccs, hcX] at hcY
      cases hcY
      rw [hitem d hd] at hdY
      exact (hcol.marked d).2 (.inr ⟨(h.open hcs hnot hX hd hdY).1, hdY⟩)
  · have hlen : (r.1.addAction p ⟨X, .SHIFT, r.2⟩).states.length = r.1.states.length := by simp [Build.addAction]
    rw [hlen] at hlt
    rcases Nat.lt_or_ge q b.states.length with hqb | hqb
    · exact (h.done q hq hqb).mono h.inv hl hqb
    · exact (hr.done q hqb hlt).mono hr.inv hl2 hlt
  · rw [addAction_state, hr.old q hq]
    cases hb : b.states[q]? with
    | none => rfl
    | some st' => simp [Ne.symm hne]

/-- A configuration that shifts nothing, or has done so, is passed over. -/
theorem Shifting.skip (h : Shifting lemp p cs pre complete b)
    (hcfp : nextSymbol lemp (itemAt b.heap cfp) = none ∨ cfp ∈ complete) :
    Shifting lemp p cs (pre ++ [cfp]) complete b := by
  refine { h with pre := fun c hc => ?_ }
  rcases List.mem_append.1 hc with hc | hc
  · exact h.pre c hc
  · rw [List.mem_singleton.1 hc]
    exact hcfp

/-- **The loop makes all shifts of the state**, given that `getstate` does what it should. -/
theorem buildshiftsLoop_spec {rec : List State → Configlist → Build × Nat}
    (hrec : ∀ states l, p < states.length → Inv lemp ⟨l.heap, states⟩ → Ready lemp states l →
      Found lemp states l (rec states l))
    (h : Shifting lemp p cs pre complete b) (hcs : cs = pre ++ next) :
    ∃ complete', Shifting lemp p cs cs complete' (buildshiftsLoop lemp rec p next complete b) ∧
      Later b (buildshiftsLoop lemp rec p next complete b) ∧
      ∀ q < b.states.length, q ≠ p → (buildshiftsLoop lemp rec p next complete b).states[q]? = b.states[q]? := by
  induction next generalizing pre complete b with
  | nil =>
    rw [List.append_nil] at hcs
    subst hcs
    exact ⟨complete, h, .refl b, fun _ _ _ => rfl⟩
  | cons cfp next ih =>
    have happ : cs = pre ++ [cfp] ++ next := by simp [hcs]
    unfold buildshiftsLoop
    by_cases hin : cfp ∈ complete
    · rw [if_pos hin]
      exact ih (h.skip (.inr hin)) happ
    · rw [if_neg hin]
      cases hX : nextSymbol lemp (itemAt b.heap cfp) with
      | none => exact ih (h.skip (.inl hX)) happ
      | some X =>
        simp only
        have hcol : Collected lemp b.heap complete X (cfp :: next)
            ((cfp :: next).foldl (basisStep lemp X) (complete, ⟨b.heap, [], []⟩)) := by
          obtain ⟨st, hst, hcfps, _⟩ := h.here
          have hok := h.inv.ok st (List.mem_of_getElem? hst)
          have hsub : (cfp :: next).Sublist st.cfp := by
            rw [hcfps, hcs]
            exact List.sublist_append_right _ _
          exact collect_spec (fun c hc => hok.live c (hsub.subset hc)) (hsub.nodup (List.Nodup.of_map _ hok.nodup))
        generalize (cfp :: next).foldl (basisStep lemp X) (complete, ⟨b.heap, [], []⟩) = st at hcol ⊢
        obtain ⟨hlater, hinv, hready⟩ := h.ready hcs hin hX hcol
        have hp : p < b.states.length := by
          obtain ⟨stp, hstp, _⟩ := h.here
          exact (List.getElem?_eq_some_iff.1 hstp).1
        have hfound := hrec b.states st.2 hp hinv hready
        obtain ⟨hstep, hl, hold⟩ := h.step hcs hin hX hcol hfound
        obtain ⟨complete', hend, hl', hold'⟩ := ih hstep happ
        refine ⟨complete', hend, hl.trans hl', fun q hq hne => ?_⟩
        have hq' : q < (((rec b.states st.2).1.addAction p ⟨X, .SHIFT, (rec b.states st.2).2⟩).states).length := by
          obtain ⟨stq, hstq, _⟩ := hl.state q _ (List.getElem?_eq_getElem hq)
          exact (List.getElem?_eq_some_iff.1 hstq).1
        rw [hold' q hq' hne, hold q hq hne]

/-- When the loop is through every shift of the state is there. -/
theorem Shifting.done_here (h : Shifting lemp p cs cs complete b) : Done lemp b p := by
  intro c hc
  rcases h.pre c (h.at_iff.1 hc) with hnone | hin
  · intro X hX
    rw [hnone] at hX
    cases hX
  · exact (h.shifted c hin).2

end

/-! ## A state that is there already -/

theorem zip_of_map_eq {f : Nat → Nat × Nat} {as bs : List Nat} (h : as.map f = bs.map f) :
    (∀ e ∈ as.zip bs, f e.1 = f e.2) ∧ (∀ a ∈ as, ∃ b, (a, b) ∈ as.zip bs) ∧ (as.zip bs).map Prod.fst = as := by
  induction as generalizing bs with
  | nil => simp
  | cons a as ih =>
    cases bs with
    | nil => cases h
    | cons b bs =>
      rw [List.map_cons, List.map_cons, List.cons.injEq] at h
      obtain ⟨hab, hrest⟩ := h
      obtain ⟨hall, hex, hfst⟩ := ih hrest
      rw [List.zip_cons_cons]
      refine ⟨fun e he => ?_, fun x hx => ?_, by rw [List.map_cons, hfst]⟩
      · rcases List.mem_cons.1 he with rfl | he
        · exact hab
        · exact hall e he
      · rcases List.mem_cons.1 hx with rfl | hx
        · exact ⟨b, List.mem_cons_self⟩
        · obtain ⟨y, hy⟩ := hex x hx
          exact ⟨y, List.mem_cons_of_mem _ hy⟩

theorem stateFind_some {i : Nat} (h : stateFind b bp = some i) :
    ∃ st, b.states[i]? = some st ∧ st.bp.map (itemAt b.heap) = bp.map (itemAt b.heap) := by
  obtain ⟨hi, hp, _⟩ := List.findIdx?_eq_some_iff_getElem.1 h
  exact ⟨b.states[i], List.getElem?_eq_getElem hi, statecmp_zero.1 (of_decide_eq_true hp)⟩

theorem stateFind_none (h : stateFind b bp = none) : bp.map (itemAt b.heap) ∉ b.bases := by
  intro hmem
  obtain ⟨st, hst, heq⟩ := List.mem_map.1 hmem
  have hno := List.findIdx?_eq_none_iff.1 h st hst
  exact (of_decide_eq_false hno) (statecmp_zero.2 heq)

/-- The links of the new configurations go over to the state with their basis. -/
theorem found_spec (hinv : Inv lemp ⟨l.heap, states⟩) (hready : Ready lemp states l) {i : Nat}
    (hfind : stateFind ⟨l.heap, states⟩ (newState lemp l).bp = some i) :
    Found lemp states l
      (⟨copyLinks l.heap (newState lemp l).bp (states.getD i ⟨[], [], []⟩).bp, states⟩, i) := by
  obtain ⟨st, hst, hbases⟩ := stateFind_some hfind
  simp only at hst hbases
  have hget : states.getD i ⟨[], [], []⟩ = st := by rw [List.getD_eq_getElem?_getD, hst, Option.getD_some]
  rw [hget, copyLinks_eq]
  have hbp : ∀ c, c ∈ (newState lemp l).bp ↔ c ∈ l.current := fun c => mem_newState_bp hready.ok hready.same
  have hok := hinv.ok st (List.mem_of_getElem? hst)
  obtain ⟨hitems, hpartner, hfst⟩ := zip_of_map_eq hbases.symm
  have hat : ∀ e ∈ (newState lemp l).bp.zip st.bp, e.1 ∈ l.current ∧ (Build.mk l.heap states).At i e.2 := by
    intro e he
    obtain ⟨h1, h2⟩ := List.of_mem_zip (a := e.1) (b := e.2) he
    exact ⟨(hbp e.1).1 h1, st, hst, hok.basis e.2 h2⟩
  have hnodup : (newState lemp l).bp.Nodup := by
    refine (MSort.msort_perm ?_).nodup_iff.2 ?_
    · rw [hready.same]
      exact hready.ok.length_lt
    · rw [hready.same]
      exact List.Nodup.of_map _ hready.ok.nodup
  have hlive : ∀ e ∈ (newState lemp l).bp.zip st.bp, e.1 < l.heap.length ∧ e.2 < l.heap.length := by
    intro e he
    obtain ⟨h1, st', hst', h2⟩ := hat e he
    exact ⟨hready.ok.live e.1 h1, (hinv.ok st' (List.mem_of_getElem? hst')).live e.2 h2⟩
  obtain ⟨hlen, hcopy⟩ := foldl_copyStep _ hlive (by rw [hfst]; exact hnodup)
    fun e he e' he' heq => hready.fresh i e'.2 (hat e' he').2 (heq ▸ (hat e he).1)
  have hout : ∀ q c, (Build.mk l.heap states).At q c → ∀ e ∈ (newState lemp l).bp.zip st.bp, c ≠ e.1 :=
    fun q c hc e he heq => hready.fresh q c hc (heq ▸ (hat e he).1)
  have hlater : Later ⟨l.heap, states⟩ ⟨((newState lemp l).bp.zip st.bp).foldl copyStep l.heap, states⟩ := by
    refine ⟨hlen.ge, fun q c hc => ?_, fun q st' hst' => ⟨st', hst', rfl, rfl, fun _ h => h⟩⟩
    obtain ⟨h1, h2, h3, h4⟩ := hcopy c (hout q c hc)
    exact ⟨h1, h2, h3, fun d hd => (h4 d).2 (.inl hd)⟩
  refine ⟨hinv.relink hlater fun q c hc d hd => ?_, hlater, fun q _ => rfl, ⟨st, hst, fun x => ?_, fun c hc => ?_⟩,
    fun q hle hlt => absurd hlt (Nat.not_lt.2 hle)⟩
  · refine (((hcopy c (hout q c hc)).2.2.2 d).1 hd).imp id fun hlink => ?_
    obtain ⟨e, he, rfl, hde⟩ := hlink
    obtain ⟨h1, h2⟩ := hat e he
    obtain rfl : q = i := hinv.apart q i e.2 hc h2
    rcases hready.origin with ⟨hnil, _⟩ | ⟨p, X, hsome, hbasis, hlinks⟩
    · rw [hnil] at hst
      cases hst
    · obtain ⟨hd', hX, hadv⟩ := hlinks e.1 h1 d hde
      refine ⟨p, X, hd', hX, (hitems e he).symm.trans hadv, hsome, st, hst, fun x => ?_⟩
      simp only
      rw [← hbasis, hbases]
      simp only [List.mem_map, hbp]
      rfl
  · have hsame := (hlater.basis hinv hst hst).2
    simp only at hsame ⊢
    rw [hsame, hbases]
    simp only [List.mem_map, hbp]
    rfl
  · obtain ⟨d, hd⟩ := hpartner c ((hbp c).2 hc)
    have hdat := (hat _ hd).2
    obtain ⟨h1, _, _, h4⟩ := hcopy d (hout i d hdat)
    exact ⟨d, (List.of_mem_zip hd).2, h1.trans (hitems _ hd).symm, fun e he => (h4 e).2 (.inr ⟨_, hd, rfl, he⟩)⟩

/-! ## A state that is made -/

/-- The closure touches nothing outside the list. -/
theorem closure_later (hinv : Inv lemp ⟨l.heap, states⟩) (hready : Ready lemp states l) :
    Later ⟨l.heap, states⟩ ⟨(configlistClosure lemp l).heap, states⟩ ∧
      ∀ q c, (Build.mk l.heap states).At q c → configAt (configlistClosure lemp l).heap c = configAt l.heap c := by
  obtain ⟨hclosing, _⟩ := closure_served hready.ok
  have hsame : ∀ q c, (Build.mk l.heap states).At q c →
      configAt (configlistClosure lemp l).heap c = configAt l.heap c := by
    intro q c hc
    obtain ⟨st, hst, hmem⟩ := hc
    exact hclosing.frame c ((hinv.ok st (List.mem_of_getElem? hst)).live c hmem) (hready.fresh q c ⟨st, hst, hmem⟩)
  refine ⟨⟨hclosing.length_le, fun q c hc => ⟨?_, ?_, ?_, fun d hd => ?_⟩,
    fun q st hst => ⟨st, hst, rfl, rfl, fun _ h => h⟩⟩, hsame⟩
  · exact congrArg Config.item (hsame q c hc)
  · exact congrArg Config.fws (hsame q c hc)
  · exact congrArg Config.fplp (hsame q c hc)
  · simp only
    rw [hsame q c hc]
    exact hd

/-- A new state, as the loop over its configurations finds it. -/
theorem made_spec (hinv : Inv lemp ⟨l.heap, states⟩) (hready : Ready lemp states l)
    (hnew : stateFind ⟨l.heap, states⟩ (newState lemp l).bp = none) :
    Later ⟨l.heap, states⟩ ⟨(configlistClosure lemp l).heap, states ++ [newState lemp l]⟩ ∧
      Shifting lemp states.length (newState lemp l).cfp [] []
        ⟨(configlistClosure lemp l).heap, states ++ [newState lemp l]⟩ := by
  obtain ⟨hclosing, hgrown, _⟩ := closure_served hready.ok
  obtain ⟨hlater, hsame⟩ := closure_later hinv hready
  have hbp : ∀ c, c ∈ (newState lemp l).bp ↔ c ∈ l.current := fun c => mem_newState_bp hready.ok hready.same
  have hcfp : ∀ c, c ∈ (newState lemp l).cfp ↔ c ∈ (configlistClosure lemp l).current := fun c => mem_newState_cfp hready.ok
  have hinv' : Inv lemp ⟨(configlistClosure lemp l).heap, states⟩ :=
    hinv.relink hlater fun q c hc d hd => .inl (hsame q c hc ▸ hd)
  have hitem : ∀ c ∈ l.current, itemAt (configlistClosure lemp l).heap c = l.item c :=
    fun c hc => hgrown.item c (hready.ok.live c hc)
  have hitems : ∀ x, x ∈ (newState lemp l).bp.map (itemAt (configlistClosure lemp l).heap) ↔ x ∈ l.current.map l.item := by
    intro x
    rw [List.map_congr_left fun c hc => hitem c ((hbp c).1 hc)]
    simp only [List.mem_map, hbp]
  have hstates : ∀ q c, (Build.mk l.heap states).At q c → states ≠ [] := by
    intro q c hc hnil
    obtain ⟨st, hst, _⟩ := hc
    rw [hnil] at hst
    cases hst
  have hat : ∀ q c, (Build.mk (configlistClosure lemp l).heap states).At q c ↔ (Build.mk l.heap states).At q c :=
    fun q c => Iff.rfl
  have hai : ∀ q c, (Build.mk l.heap states).At q c → itemAt (configlistClosure lemp l).heap c = itemAt l.heap c :=
    fun q c hc => congrArg Config.item (hsame q c hc)
  have hmoved : ∀ p X, (∀ x, x ∈ l.current.map l.item ↔ ∃ c, (Build.mk l.heap states).At p c ∧
        nextSymbol lemp (itemAt l.heap c) = some X ∧ x = advance (itemAt l.heap c)) →
      ∀ x, x ∈ (newState lemp l).bp.map (itemAt (configlistClosure lemp l).heap) ↔
        ∃ c, (Build.mk (configlistClosure lemp l).heap states).At p c ∧
          nextSymbol lemp (itemAt (configlistClosure lemp l).heap c) = some X ∧
          x = advance (itemAt (configlistClosure lemp l).heap c) := by
    intro p X hbasis x
    rw [hitems, hbasis]
    simp only [hat]
    refine exists_congr fun e => and_congr_right fun he => ?_
    rw [hai p e he]
  have hpush : Inv lemp ⟨(configlistClosure lemp l).heap, states ++ [newState lemp l]⟩ := by
    refine hinv'.push (newState_ok hready.ok hready.same hready.fws) rfl (fun q c hc hmem => ?_) (fun hmem => ?_)
      (fun hnil => ⟨fun x => ?_, fun c hc => ?_⟩) (fun hne c hc => ?_) (fun c hc d hd => ?_) (fun hne => ?_)
    · -- the configurations of the closure are new or those of the list
      have hcur := (hcfp c).1 hmem
      rw [hclosing.current, List.mem_append, List.mem_range'_1] at hcur
      obtain ⟨st, hst, hmem'⟩ := hc
      rcases hcur with hcur | hcur
      · exact hready.fresh q c ⟨st, hst, hmem'⟩ hcur
      · exact absurd ((hinv.ok st (List.mem_of_getElem? hst)).live c hmem') (Nat.not_lt.2 hcur.1)
    · have hbases : (Build.mk (configlistClosure lemp l).heap states).bases = (Build.mk l.heap states).bases := by
        refine List.map_congr_left fun st hst => List.map_congr_left fun c hc => ?_
        obtain ⟨q, hq⟩ := List.mem_iff_getElem?.1 hst
        exact hai q c ⟨st, hq, (hinv.ok st hst).basis c hc⟩
      rw [hbases, List.map_congr_left fun c hc => hitem c ((hbp c).1 hc)] at hmem
      exact stateFind_none hnew hmem
    · rw [hitems]
      rcases hready.origin with ⟨_, hstart, _⟩ | ⟨p, X, ⟨c, hc, _⟩, _⟩
      · exact hstart x
      · exact absurd hnil (hstates p c hc)
    · rcases hready.origin with ⟨_, _, hfields⟩ | ⟨p, X, ⟨c', hc', _⟩, _⟩
      · have hcur := (hbp c).1 hc
        exact hgrown.fws c (hready.ok.live c hcur) 0 (hfields c hcur).1
      · exact absurd hnil (hstates p c' hc')
    · rcases hready.origin with ⟨hnil, _⟩ | ⟨p, X, _, hbasis, _⟩
      · exact absurd hnil hne
      · have hcur := (hbp c).1 hc
        obtain ⟨d, _, _, hadv⟩ := (hbasis (l.item c)).1 (List.mem_map_of_mem hcur)
        rw [hitem c hcur, hadv]
        exact Nat.succ_pos _
    · rcases Nat.lt_or_ge c l.heap.length with hlt | hge
      · have hcur : c ∈ l.current := by
          have hmem := (hcfp c).1 hc
          rw [hclosing.current, List.mem_append, List.mem_range'_1] at hmem
          rcases hmem with hmem | hmem
          · exact hmem
          · exact absurd hmem.1 (Nat.not_le.2 hlt)
        rw [(hclosing.old c hlt).2] at hd
        rcases hready.origin with ⟨_, _, hfields⟩ | ⟨p, X, _, hbasis, hlinks⟩
        · rw [(hfields c hcur).2] at hd
          cases hd
        · obtain ⟨hd', hX, hadv⟩ := hlinks c hcur d hd
          refine ⟨p, X, hd', ?_, ?_, hmoved p X hbasis⟩
          · rw [hai p d hd']
            exact hX
          · rw [hai p d hd', hitem c hcur]
            exact hadv
      · rw [hclosing.new c hge] at hd
        cases hd
    · rcases hready.origin with ⟨hnil, _⟩ | ⟨p, X, ⟨c, hc, hX⟩, hbasis, _⟩
      · exact absurd hnil hne
      · refine ⟨p, X, ⟨c, hc, ?_⟩, hmoved p X hbasis⟩
        rw [hai p c hc]
        exact hX
  have hself : (states ++ [newState lemp l])[states.length]? = some (newState lemp l) := List.getElem?_concat_length
  refine ⟨hlater.trans (later_push _ _ _), hpush, ⟨newState lemp l, hself, rfl, ?_⟩, ?_, ?_, ?_, fun q hq hlt => ?_⟩
  · intro ap hap
    cases hap
  · intro c hc
    cases hc
  · intro c hc
    cases hc
  · intro c hc
    cases hc
  · simp only [List.length_append, List.length_singleton] at hlt
    omega

/-- The states are never more than the bases there can be. -/
theorem Inv.length_le (h : Inv lemp b) : b.states.length ≤ 2 ^ lemp.nconfig := by
  have hlen : b.bases.length = b.states.length := List.length_map _
  rw [← hlen]
  refine length_bases_le h.bases (fun B hB => ?_) fun B hB x hx => ?_
  · obtain ⟨st, hst, rfl⟩ := List.mem_map.1 hB
    exact (h.ok st hst).sorted
  · obtain ⟨st, hst, rfl⟩ := List.mem_map.1 hB
    obtain ⟨c, hc, rfl⟩ := List.mem_map.1 hx
    exact (h.ok st hst).valid c hc

theorem getstate_eq (lemp : Lemon) (n : Nat) (states : List State) (l : Configlist) :
    getstate lemp (n + 1) states l =
      match stateFind ⟨l.heap, states⟩ (newState lemp l).bp with
      | some i => (⟨copyLinks l.heap (newState lemp l).bp (states.getD i ⟨[], [], []⟩).bp, states⟩, i)
      | none => (buildshiftsLoop lemp (getstate lemp n) states.length (newState lemp l).cfp []
          ⟨(configlistClosure lemp l).heap, states ++ [newState lemp l]⟩, states.length) := rfl

/-- **A call of `getstate` keeps what holds of the states**, returns one with the basis at hand,
and leaves every state it has made with all its shifts. -/
theorem getstate_spec (n : Nat) (hinv : Inv lemp ⟨l.heap, states⟩) (hready : Ready lemp states l)
    (hn : 2 ^ lemp.nconfig < n + states.length) : Found lemp states l (getstate lemp n states l) := by
  induction n generalizing states l with
  | zero =>
    have hle := hinv.length_le
    simp only at hle
    omega
  | succ n ih =>
    rw [getstate_eq]
    cases hfind : stateFind ⟨l.heap, states⟩ (newState lemp l).bp with
    | some i => exact found_spec hinv hready hfind
    | none =>
      obtain ⟨hlater, hstart⟩ := made_spec hinv hready hfind
      obtain ⟨complete, hend, hl, hold⟩ := buildshiftsLoop_spec
        (fun states' l' hlt hinv' hready' => ih hinv' hready' (by omega)) hstart (List.nil_append _).symm
      simp only at hlater hend hl hold ⊢
      generalize buildshiftsLoop lemp (getstate lemp n) states.length (newState lemp l).cfp []
        ⟨(configlistClosure lemp l).heap, states ++ [newState lemp l]⟩ = b' at *
      have hlen : states.length < (states ++ [newState lemp l]).length := by simp
      have hself : (states ++ [newState lemp l])[states.length]? = some (newState lemp l) := List.getElem?_concat_length
      obtain ⟨st, hst, hbp, _⟩ := hl.state states.length (newState lemp l) hself
      have hitem : ∀ c ∈ l.current, itemAt b'.heap c = l.item c ∧
          ∀ e ∈ (configAt l.heap c).bplp, e ∈ (configAt b'.heap c).bplp := by
        intro c hc
        obtain ⟨hclosing, hgrown, _⟩ := closure_served hready.ok
        have hlt := hready.ok.live c hc
        have hat : (Build.mk (configlistClosure lemp l).heap (states ++ [newState lemp l])).At states.length c :=
          ⟨_, hself, (mem_newState_cfp hready.ok).2 (hgrown.current.subset hc)⟩
        obtain ⟨h1, _, _, h4⟩ := hl.config states.length c hat
        refine ⟨h1.trans (hgrown.item c hlt), fun e he => h4 e ?_⟩
        simp only
        rw [(hclosing.old c hlt).2]
        exact he
      have hmem : ∀ c, c ∈ st.bp ↔ c ∈ l.current := by
        intro c
        rw [hbp]
        exact mem_newState_bp hready.ok hready.same
      refine ⟨hend.inv, hlater.trans hl, fun q hq => ?_, ⟨st, hst, fun x => ?_, fun c hc => ?_⟩, fun q hle hlt => ?_⟩
      · rw [hold q (hq.trans hlen) hq.ne, List.getElem?_append_left hq]
      · rw [List.map_congr_left fun c hc => (hitem c ((hmem c).1 hc)).1]
        simp only [List.mem_map, hmem]
      · exact ⟨c, (hmem c).2 hc, (hitem c hc).1, (hitem c hc).2⟩
      · rcases Nat.lt_or_eq_of_le hle with hgt | rfl
        · exact hend.done q hgt hlt
        · exact hend.done_here

/-! ## The first state -/

/-- One round of the loop over the rules of the start symbol. -/
def startStep (lemp : Lemon) (l : Configlist) (rp : Nat) : Configlist :=
  (configlistAddbasis lemp l rp 0).1.modify (configlistAddbasis lemp l rp 0).2 fun c => { c with fws := (setAdd c.fws 0).1 }

theorem startBasis_eq (lemp : Lemon) :
    startBasis lemp = (lemp.rulesOf lemp.startSymbol).foldl (startStep lemp) ⟨[], [], []⟩ := rfl

/-- What the loop has made of the rules it has seen. -/
structure Starting (lemp : Lemon) (seen : List Nat) (l : Configlist) : Prop where
  same : l.basis = l.current
  live : ∀ c ∈ l.current, c < l.heap.length
  nodup : (l.current.map l.item).Nodup
  size : ∀ c ∈ l.current, (configAt l.heap c).fws.length = lemp.nterminal + 1
  fws : ∀ c ∈ l.current, ∀ a, setFind (configAt l.heap c).fws a = true ↔ a = 0
  links : ∀ c ∈ l.current, (configAt l.heap c).fplp = [] ∧ (configAt l.heap c).bplp = []
  items : ∀ x, x ∈ l.current.map l.item ↔ x.2 = 0 ∧ x.1 ∈ seen

theorem startStep_spec {rp : Nat} (h : Starting lemp seen l) : Starting lemp (seen ++ [rp]) (startStep lemp l rp) := by
  obtain ⟨hle, hold, hsame, hmem, hri, hnd, hkeep, hcases⟩ := addbasis_spec lemp rp 0 h.same h.live h.nodup
  unfold startStep
  generalize configlistAddbasis lemp l rp 0 = r at *
  obtain ⟨l1, n⟩ := r
  simp only at hle hold hsame hmem hri hnd hkeep hcases ⊢
  have hlive : ∀ c ∈ l1.current, c < l1.heap.length := by
    intro c hc
    rcases hcases c hc with hc | ⟨_, hlt, _⟩
    · exact (h.live c hc).trans_le hle
    · exact hlt
  have hn := hlive n hmem
  have hat : ∀ c, configAt (l1.modify n fun x => { x with fws := (setAdd x.fws 0).1 }).heap c =
      if c = n then { configAt l1.heap n with fws := (setAdd (configAt l1.heap n).fws 0).1 } else configAt l1.heap c :=
    fun c => configAt_modify hn
  have hit : (l1.modify n fun x => { x with fws := (setAdd x.fws 0).1 }).item = l1.item :=
    funext fun c => modify_item hn fun _ => rfl
  -- before the token is added the set is empty or has it already
  have hprev : ∀ c ∈ l1.current, (configAt l1.heap c).fws.length = lemp.nterminal + 1 ∧
      (∀ a, setFind (configAt l1.heap c).fws a = true → a = 0) ∧
      (c ≠ n → setFind (configAt l1.heap c).fws 0 = true) ∧
      (configAt l1.heap c).fplp = [] ∧ (configAt l1.heap c).bplp = [] := by
    intro c hc
    rcases hcases c hc with hc | ⟨_, _, heq, hfields⟩
    · rw [hold c (h.live c hc)]
      exact ⟨h.size c hc, fun a => (h.fws c hc a).1, fun _ => (h.fws c hc 0).2 rfl, h.links c hc⟩
    · rw [hfields]
      exact ⟨length_setNew, fun a ha => by simp at ha, fun hne => absurd heq hne, rfl, rfl⟩
  have hitems : ∀ c ∈ l1.current, c ∈ l.current ∧ l1.item c = l.item c ∨ l1.item c = (rp, 0) := by
    intro c hc
    rcases hcases c hc with hc | ⟨_, _, heq, _⟩
    · exact .inl ⟨hc, congrArg Config.item (hold c (h.live c hc))⟩
    · exact .inr (heq ▸ hri)
  refine ⟨hsame, fun c hc => by simpa [Configlist.modify] using hlive c hc, by rw [hit]; exact hnd, fun c hc => ?_,
    fun c hc a => ?_, fun c hc => ?_, fun x => ?_⟩
  · obtain ⟨hlen, _⟩ := hprev c hc
    rw [hat]
    split
    next heq =>
      subst heq
      simpa using hlen
    next => exact hlen
  · obtain ⟨hlen, hzero, hhas, _⟩ := hprev c hc
    rw [hat]
    split
    next heq =>
      subst heq
      simp only
      rw [setFind_setAdd (by omega), Bool.or_eq_true, decide_eq_true_eq]
      exact ⟨fun ha => ha.elim id (hzero a), .inl⟩
    next hne =>
      refine ⟨hzero a, fun ha => ?_⟩
      rw [ha]
      exact hhas hne
  · obtain ⟨_, _, _, hlinks⟩ := hprev c hc
    rw [hat]
    split
    next heq =>
      subst heq
      exact hlinks
    next => exact hlinks
  · rw [hit]
    constructor
    · intro hx
      obtain ⟨c, hc, rfl⟩ := List.mem_map.1 hx
      rcases hitems c hc with ⟨hc, heq⟩ | heq
      · obtain ⟨hz, hs⟩ := (h.items (l.item c)).1 (List.mem_map_of_mem hc)
        rw [heq]
        exact ⟨hz, List.mem_append_left _ hs⟩
      · rw [heq]
        exact ⟨rfl, List.mem_append_right _ List.mem_cons_self⟩
    · intro hx
      obtain ⟨hz, hs⟩ := hx
      rcases List.mem_append.1 hs with hs | hs
      · obtain ⟨c, hc, heq⟩ := List.mem_map.1 ((h.items x).2 ⟨hz, hs⟩)
        exact List.mem_map.2 ⟨c, hkeep c hc, (congrArg Config.item (hold c (h.live c hc))).trans heq⟩
      · rw [List.mem_singleton] at hs
        exact List.mem_map.2 ⟨n, hmem, hri.trans (Prod.ext hs.symm hz.symm)⟩

theorem startBasis_spec (lemp : Lemon) : Starting lemp (lemp.rulesOf lemp.startSymbol) (startBasis lemp) := by
  have hgen : ∀ (rps seen : List Nat) (l : Configlist), Starting lemp seen l →
      Starting lemp (seen ++ rps) (rps.foldl (startStep lemp) l) := by
    intro rps
    induction rps with
    | nil =>
      intro seen l h
      simpa using h
    | cons rp rps ih =>
      intro seen l h
      have happ : seen ++ rp :: rps = seen ++ [rp] ++ rps := by simp
      rw [List.foldl_cons, happ]
      exact ih _ _ (startStep_spec h)
  have hnil : Starting lemp [] ⟨[], [], []⟩ := by
    constructor <;> simp
  rw [startBasis_eq]
  exact hgen (lemp.rulesOf lemp.startSymbol) [] ⟨[], [], []⟩ hnil

theorem startBasis_ready (lemp : Lemon) : Ready lemp [] (startBasis lemp) := by
  have h := startBasis_spec lemp
  refine ⟨⟨h.live, h.nodup, fun c hc => ?_, h.size, fun c hc => (h.links c hc).1⟩, h.same, fun q c hc => ?_,
    fun c hc a ha => ?_, .inl ⟨rfl, h.items, fun c hc => ⟨(h.fws c hc 0).2 rfl, (h.links c hc).2⟩⟩⟩
  · obtain ⟨hz, hmem⟩ := (h.items ((startBasis lemp).item c)).1 (List.mem_map_of_mem hc)
    obtain ⟨r, hr, _⟩ := Lemon.mem_rulesOf.1 hmem
    have hitem : (startBasis lemp).item c = (((startBasis lemp).item c).1, 0) := Prod.ext rfl hz
    rw [hitem]
    exact mem_items.2 ⟨r, hr, Nat.zero_le _⟩
  · obtain ⟨st, hst, _⟩ := hc
    cases hst
  · exact ⟨((h.items ((startBasis lemp).item c)).1 (List.mem_map_of_mem hc)).1, (h.fws c hc a).1 ha⟩

theorem inv_nil (heap : List Config) : Inv lemp ⟨heap, []⟩ where
  ok st hst := by cases hst
  apart q q' c hc _ := by
    obtain ⟨st, hst, _⟩ := hc
    cases hst
  bases := .nil
  start st hst := by cases hst
  later q st hst := by cases hst
  links q c hc := by
    obtain ⟨st, hst, _⟩ := hc
    cases hst
  acts q st hst := by cases hst
  one st hst := by cases hst
  made q hq := by cases hq

/-- **`FindStates` ends with every shift made**: what holds of the states all along holds, the
first state is that of the start symbol, and no state is left open. -/
theorem findStates_spec (lemp : Lemon) :
    Inv lemp (findStates lemp) ∧ 0 < (findStates lemp).states.length ∧
      ∀ q < (findStates lemp).states.length, Done lemp (findStates lemp) q := by
  have hfound := getstate_spec (2 ^ lemp.nconfig + 1) (inv_nil _) (startBasis_ready lemp) (Nat.lt_succ_self _)
  refine ⟨hfound.inv, ?_, fun q hq => hfound.done q (Nat.zero_le _) hq⟩
  obtain ⟨st, hst, _⟩ := hfound.found
  exact Nat.lt_of_le_of_lt (Nat.zero_le _) (List.getElem?_eq_some_iff.1 hst).1

end Dbsql.L7
