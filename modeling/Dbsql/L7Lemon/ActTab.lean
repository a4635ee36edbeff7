import Mathlib.Tactic.Common
import Mathlib.Data.List.Perm.Subperm
import Mathlib.Data.List.Nodup
import Mathlib.Data.List.Induction
/-!
# The table `yy_action` under construction (lemon.c, module acttab)

A transaction set is the actions of one state on tokens or on nonterminals: pairs of a lookahead
and an action. `acttab_insert` looks for an index at which the set fits between what is in the
table already, or covers an equal set, and appends it if there is none. What it returns is the
offset that is added to a lookahead to find its slot.

The arrays are as long as what is used of them. A slot of `aAction[]` that is not used has -1 in
both fields and is `none` here; past the end all are.

Results:
* `insert_slot`: after an insertion a slot has what it had, or the action of the set that the
  offset puts there.
* `insertAll_slot`: so over all insertions each slot is of a set at its offset.
* `insertAll_lookup`: a lookup through an offset finds the actions of all sets that were given this
  offset and no others.
-/
namespace Dbsql.L7.ActTab

/-- A slot of `aAction[]`: lookahead and action. -/
abbrev Slot := Option (Nat × Nat)

/-- `acttab` (lemon.c:423-435). -/
structure Acttab where
  aAction : List Slot
  aLookahead : List (Nat × Nat)
  mnLookahead : Nat
  mnAction : Nat
  mxLookahead : Nat

/-- `acttab_alloc` (lemon.c:460-468). -/
def acttabAlloc : Acttab := ⟨[], [], 0, 0, 0⟩

/-- `acttab_action` (lemon.c:472-498). -/
def acttabAction (p : Acttab) (lookahead action : Nat) : Acttab :=
  let p :=
    if p.aLookahead.length = 0 then
      { p with mxLookahead := lookahead, mnLookahead := lookahead, mnAction := action }
    else
      let p := if p.mxLookahead < lookahead then { p with mxLookahead := lookahead } else p
      if lookahead < p.mnLookahead then { p with mnLookahead := lookahead, mnAction := action } else p
  { p with aLookahead := p.aLookahead ++ [(lookahead, action)] }

/-- The slot `aAction[k]`. -/
def slot (l : List Slot) (k : Nat) : Slot := l.getD k none

/-- `aAction[k].lookahead`. -/
def lookaheadOf : Slot → Int
  | none => -1
  | some e => e.1

/-- `k` for an entry of the set when the least lookahead goes to index `i`. -/
def slotIndex (p : Acttab) (i : Nat) (e : Nat × Nat) : Int := (e.1 : Int) - p.mnLookahead + i

/-- The first branch of the scan: all slots are empty and no lookahead of the table would be found
through the new offset. -/
def fitsEmpty (p : Acttab) (i : Nat) : Bool :=
  p.aLookahead.all (fun e =>
    0 ≤ slotIndex p i e && lookaheadOf (slot p.aAction (slotIndex p i e).toNat) < 0) &&
  (List.range p.aAction.length).all (fun j =>
    lookaheadOf (slot p.aAction j) ≠ (j : Int) + p.mnLookahead - i)

/-- The second branch: the slots hold the set, and no other lookahead is found through the offset. -/
def coversSame (p : Acttab) (i : Nat) : Bool :=
  p.aLookahead.all (fun e =>
    0 ≤ slotIndex p i e && slotIndex p i e < p.aAction.length &&
      slot p.aAction (slotIndex p i e).toNat = some e) &&
  (List.range p.aAction.length).countP (fun j =>
    0 ≤ lookaheadOf (slot p.aAction j) && lookaheadOf (slot p.aAction j) = (j : Int) + p.mnLookahead - i) =
    p.aLookahead.length

/-- The test at index `i` of the scan. -/
def placedAt (p : Acttab) (i : Nat) : Bool :=
  if lookaheadOf (slot p.aAction i) < 0 then fitsEmpty p i
  else slot p.aAction i = some (p.mnLookahead, p.mnAction) && coversSame p i

/-- The index where the scan stops. -/
def scan (p : Acttab) : Nat :=
  ((List.range p.aAction.length).find? (placedAt p)).getD p.aAction.length

/-- `aAction[k] = e`, with the slots between the used ones and `k` left empty. -/
def setSlot (l : List Slot) (k : Nat) (e : Nat × Nat) : List Slot :=
  if k < l.length then l.set k (some e) else l ++ List.replicate (k - l.length) none ++ [some e]

/-- `acttab_insert` (lemon.c:505-578), with the offset it returns. -/
def acttabInsert (p : Acttab) : Acttab × Int :=
  ({ p with
      aAction := p.aLookahead.foldl (fun l e => setSlot l (slotIndex p (scan p) e).toNat e) p.aAction
      aLookahead := [] },
    (scan p : Int) - p.mnLookahead)

/-! ## Slots -/

@[simp] theorem lookaheadOf_none : lookaheadOf none = -1 := rfl
@[simp] theorem lookaheadOf_some (e : Nat × Nat) : lookaheadOf (some e) = e.1 := rfl

theorem lookaheadOf_neg {s : Slot} : lookaheadOf s < 0 ↔ s = none := by
  cases s with
  | none => simp
  | some e => simp

theorem slot_of_length_le {l : List Slot} {k : Nat} (h : l.length ≤ k) : slot l k = none := by
  simp [slot, List.getElem?_eq_none h]

theorem slot_setSlot (l : List Slot) (k j : Nat) (e : Nat × Nat) :
    slot (setSlot l k e) j = if j = k then some e else slot l j := by
  unfold setSlot slot
  by_cases hk : k < l.length
  · rw [if_pos hk, List.getD_eq_getElem?_getD, List.getD_eq_getElem?_getD, List.getElem?_set]
    by_cases hj : j = k
    · simp [hj, hk]
    · simp [hj, Ne.symm hj]
  · rw [if_neg hk, List.getD_eq_getElem?_getD, List.getD_eq_getElem?_getD, List.append_assoc]
    rcases Nat.lt_or_ge j l.length with hj | hj
    · rw [List.getElem?_append_left hj, if_neg (by omega)]
    · rw [List.getElem?_append_right hj, List.getElem?_eq_none hj]
      by_cases hjk : j = k
      · subst hjk
        simp
      · rw [if_neg hjk]
        by_cases hlt : j - l.length < k - l.length
        · rw [List.getElem?_append_left (by simpa using hlt), List.getElem?_replicate, if_pos hlt]
          rfl
        · rw [List.getElem?_eq_none (by simp; omega)]

/-- Writing a whole set, each entry at its own slot. -/
theorem slot_foldl {es : List (Nat × Nat)} {f : Nat × Nat → Nat} (hf : ∀ e ∈ es, ∀ e' ∈ es, f e = f e' → e = e')
    (l : List Slot) (k : Nat) (e : Nat × Nat) :
    slot (es.foldl (fun l e => setSlot l (f e) e) l) k = some e ↔
      (e ∈ es ∧ f e = k) ∨ ((∀ e' ∈ es, f e' ≠ k) ∧ slot l k = some e) := by
  induction es generalizing l with
  | nil => simp
  | cons a es ih =>
    have hes := fun e he e' he' => hf e (List.mem_cons_of_mem a he) e' (List.mem_cons_of_mem a he')
    rw [List.foldl_cons, ih hes, slot_setSlot]
    by_cases hk : k = f a
    · subst hk
      constructor
      · intro h
        rcases h with h | ⟨_, h⟩
        · exact .inl ⟨List.mem_cons_of_mem a h.1, h.2⟩
        · rw [if_pos rfl] at h
          cases h
          exact .inl ⟨List.mem_cons_self, rfl⟩
      · intro h
        rcases h with ⟨hmem, he⟩ | ⟨hne, _⟩
        · have hea : e = a := hf e hmem a List.mem_cons_self he
          subst hea
          by_cases hin : e ∈ es
          · exact .inl ⟨hin, rfl⟩
          · refine .inr ⟨fun e' he' heq => hin ?_, by simp⟩
            have hee : e' = e := hf e' (List.mem_cons_of_mem _ he') e List.mem_cons_self heq
            rwa [hee] at he'
        · exact absurd rfl (hne a List.mem_cons_self)
    · rw [if_neg hk]
      have hmem : (e ∈ a :: es ∧ f e = k) ↔ (e ∈ es ∧ f e = k) := by
        constructor
        · intro h
          rcases List.mem_cons.1 h.1 with rfl | hin
          · exact absurd h.2.symm hk
          · exact ⟨hin, h.2⟩
        · intro h
          exact ⟨List.mem_cons_of_mem a h.1, h.2⟩
      have hall : (∀ e' ∈ a :: es, f e' ≠ k) ↔ ∀ e' ∈ es, f e' ≠ k := by
        rw [List.forall_mem_cons]
        exact and_iff_right (Ne.symm hk)
      rw [hmem, hall]

/-! ## One insertion -/

/-- A transaction set as the calls of `acttab_action` leave it: lookaheads that differ, the least of
them in `mnLookahead`, its action in `mnAction`. -/
structure Acttab.Ready (p : Acttab) : Prop where
  distinct : (p.aLookahead.map Prod.fst).Nodup
  least : ∀ e ∈ p.aLookahead, p.mnLookahead ≤ e.1
  first : (p.mnLookahead, p.mnAction) ∈ p.aLookahead

variable {p : Acttab}

theorem Acttab.Ready.eq_of_fst (h : p.Ready) {e e' : Nat × Nat} (he : e ∈ p.aLookahead)
    (he' : e' ∈ p.aLookahead) (hfst : e.1 = e'.1) : e = e' :=
  List.inj_on_of_nodup_map h.distinct he he' hfst

theorem Acttab.Ready.slotIndex_nonneg (h : p.Ready) {e : Nat × Nat} (he : e ∈ p.aLookahead) (i : Nat) :
    0 ≤ slotIndex p i e := by
  have hle := h.least e he
  unfold slotIndex
  omega

theorem Acttab.Ready.slotIndex_inj (h : p.Ready) (i : Nat) : ∀ e ∈ p.aLookahead, ∀ e' ∈ p.aLookahead,
    (slotIndex p i e).toNat = (slotIndex p i e').toNat → e = e' := by
  intro e he e' he' heq
  have h0 := h.slotIndex_nonneg he i
  have h0' := h.slotIndex_nonneg he' i
  apply h.eq_of_fst he he'
  unfold slotIndex at heq h0 h0'
  omega

/-- Where the scan stops: at the end, or at an index that passed the test. -/
theorem scan_cases (p : Acttab) :
    scan p = p.aAction.length ∨ (scan p < p.aAction.length ∧ placedAt p (scan p) = true) := by
  unfold scan
  cases hfind : (List.range p.aAction.length).find? (placedAt p) with
  | none => exact .inl rfl
  | some i => exact .inr ⟨List.mem_range.1 (List.mem_of_find?_eq_some hfind), List.find?_some hfind⟩

theorem fitsEmpty_slot {i : Nat} (h : fitsEmpty p i = true) {e : Nat × Nat} (he : e ∈ p.aLookahead) :
    slot p.aAction (slotIndex p i e).toNat = none := by
  have hall := List.all_eq_true.1 (Bool.and_eq_true_iff.1 h).1 e he
  rw [Bool.and_eq_true, decide_eq_true_eq, decide_eq_true_eq] at hall
  exact lookaheadOf_neg.1 hall.2

theorem coversSame_slot {i : Nat} (h : coversSame p i = true) {e : Nat × Nat} (he : e ∈ p.aLookahead) :
    slot p.aAction (slotIndex p i e).toNat = some e := by
  have hall := List.all_eq_true.1 (Bool.and_eq_true_iff.1 h).1 e he
  simp only [Bool.and_eq_true, decide_eq_true_eq] at hall
  exact hall.2

/-- An entry goes to an empty slot or to one that has it already. -/
theorem scan_slot (h : p.Ready) {e : Nat × Nat} (he : e ∈ p.aLookahead) :
    slot p.aAction (slotIndex p (scan p) e).toNat = none ∨
      slot p.aAction (slotIndex p (scan p) e).toNat = some e := by
  rcases scan_cases p with hend | ⟨_, hplaced⟩
  · have h0 := h.slotIndex_nonneg he (scan p)
    have hle := h.least e he
    refine .inl (slot_of_length_le ?_)
    unfold slotIndex at h0 ⊢
    omega
  · unfold placedAt at hplaced
    split at hplaced
    · exact .inl (fitsEmpty_slot hplaced he)
    · exact .inr (coversSame_slot (Bool.and_eq_true_iff.1 hplaced).2 he)

/-- **An insertion adds the set at its offset** and leaves every other slot as it was. -/
theorem insert_slot (h : p.Ready) (k : Nat) (e : Nat × Nat) :
    slot (acttabInsert p).1.aAction k = some e ↔
      slot p.aAction k = some e ∨ (e ∈ p.aLookahead ∧ (k : Int) = e.1 + (acttabInsert p).2) := by
  have hk : ∀ e' ∈ p.aLookahead,
      ((slotIndex p (scan p) e').toNat = k ↔ (k : Int) = e'.1 + (acttabInsert p).2) := by
    intro e' he'
    have h0 := h.slotIndex_nonneg he' (scan p)
    unfold acttabInsert
    unfold slotIndex at h0 ⊢
    simp only
    omega
  unfold acttabInsert
  rw [slot_foldl (h.slotIndex_inj (scan p))]
  constructor
  · intro hs
    rcases hs with ⟨he, heq⟩ | ⟨_, hs⟩
    · exact .inr ⟨he, (hk e he).1 heq⟩
    · exact .inl hs
  · intro hs
    rcases hs with hs | ⟨he, heq⟩
    · by_cases hex : ∃ e' ∈ p.aLookahead, (slotIndex p (scan p) e').toNat = k
      · obtain ⟨e', he', rfl⟩ := hex
        rcases scan_slot h he' with hnone | hsome
        · rw [hnone] at hs
          cases hs
        · rw [hsome] at hs
          cases hs
          exact .inl ⟨he', rfl⟩
      · push Not at hex
        exact .inr ⟨hex, hs⟩
    · exact .inl ⟨he, (hk e he).2 heq⟩

/-! ## One set after the other -/

/-- The calls of `acttab_action` for one set. -/
def addSet (p : Acttab) (es : List (Nat × Nat)) : Acttab :=
  es.foldl (fun p e => acttabAction p e.1 e.2) p

/-- The sets inserted in turn, and their offsets. -/
def insertAll (p : Acttab) : List (List (Nat × Nat)) → Acttab × List Int
  | [] => (p, [])
  | es :: sets =>
    let r := acttabInsert (addSet p es)
    ((insertAll r.1 sets).1, r.2 :: (insertAll r.1 sets).2)

@[simp] theorem acttabAction_aAction (p : Acttab) (l a : Nat) : (acttabAction p l a).aAction = p.aAction := by
  unfold acttabAction
  grind

@[simp] theorem acttabAction_aLookahead (p : Acttab) (l a : Nat) :
    (acttabAction p l a).aLookahead = p.aLookahead ++ [(l, a)] := by
  unfold acttabAction
  grind

@[simp] theorem addSet_aAction (p : Acttab) (es : List (Nat × Nat)) : (addSet p es).aAction = p.aAction := by
  induction es generalizing p with
  | nil => rfl
  | cons e es ih => exact (ih _).trans (acttabAction_aAction p e.1 e.2)

theorem addSet_aLookahead (p : Acttab) (es : List (Nat × Nat)) :
    (addSet p es).aLookahead = p.aLookahead ++ es := by
  induction es generalizing p with
  | nil => simp [addSet]
  | cons e es ih =>
    have hrest := ih (acttabAction p e.1 e.2)
    rw [acttabAction_aLookahead, List.append_assoc] at hrest
    exact hrest

/-- The least lookahead of what is added so far, with its action. -/
def LeastKept (p : Acttab) : Prop :=
  (∀ e ∈ p.aLookahead, p.mnLookahead ≤ e.1) ∧ (p.mnLookahead, p.mnAction) ∈ p.aLookahead

theorem leastKept_action (h : p.aLookahead = [] ∨ LeastKept p) (l a : Nat) : LeastKept (acttabAction p l a) := by
  rcases h with h | ⟨hle, hmem⟩
  · simp [LeastKept, acttabAction, h]
  · have hne : p.aLookahead.length ≠ 0 := mt List.eq_nil_of_length_eq_zero (List.ne_nil_of_mem hmem)
    unfold LeastKept acttabAction
    rw [if_neg hne]
    by_cases hlt : l < p.mnLookahead
    · grind
    · grind

theorem leastKept_addSet {es : List (Nat × Nat)} (h : p.aLookahead = []) (hes : es ≠ []) :
    LeastKept (addSet p es) := by
  induction es using List.reverseRecOn with
  | nil => exact absurd rfl hes
  | append_singleton es e ih =>
    have hfold : addSet p (es ++ [e]) = acttabAction (addSet p es) e.1 e.2 := by simp [addSet]
    rw [hfold]
    apply leastKept_action
    cases es with
    | nil => exact .inl h
    | cons a es => exact .inr (ih (List.cons_ne_nil a es))

theorem ready_addSet {es : List (Nat × Nat)} (h : p.aLookahead = []) (hes : es ≠ [])
    (hd : (es.map Prod.fst).Nodup) : (addSet p es).Ready := by
  have hall : (addSet p es).aLookahead = es := by rw [addSet_aLookahead, h, List.nil_append]
  have hkept := leastKept_addSet h hes
  exact ⟨by rwa [hall], hkept.1, hkept.2⟩

/-- What the caller of the module promises of the sets. -/
def SetsOk (sets : List (List (Nat × Nat))) : Prop :=
  ∀ es ∈ sets, es ≠ [] ∧ (es.map Prod.fst).Nodup

@[simp] theorem length_insertAll (p : Acttab) (sets : List (List (Nat × Nat))) :
    (insertAll p sets).2.length = sets.length := by
  induction sets generalizing p with
  | nil => rfl
  | cons es sets ih => simp [insertAll, ih]

/-- **Every slot is of a set at its offset**, after any insertions. -/
theorem insertAll_slot {sets : List (List (Nat × Nat))} (h : p.aLookahead = []) (hsets : SetsOk sets)
    (k : Nat) (e : Nat × Nat) :
    slot (insertAll p sets).1.aAction k = some e ↔ slot p.aAction k = some e ∨
      ∃ x ∈ sets.zip (insertAll p sets).2, e ∈ x.1 ∧ (k : Int) = e.1 + x.2 := by
  induction sets generalizing p with
  | nil => simp [insertAll]
  | cons es sets ih =>
    obtain ⟨hes, hrest⟩ := List.forall_mem_cons.1 hsets
    have hready := ready_addSet h hes.1 hes.2
    have hall : (addSet p es).aLookahead = es := by rw [addSet_aLookahead, h, List.nil_append]
    simp only [insertAll]
    rw [ih rfl hrest, insert_slot hready, hall, addSet_aAction, List.zip_cons_cons, or_assoc]
    simp only [List.mem_cons, exists_eq_or_imp]

/-- No entry goes before the table. -/
theorem insertAll_nonneg {sets : List (List (Nat × Nat))} (h : p.aLookahead = []) (hsets : SetsOk sets) :
    ∀ x ∈ sets.zip (insertAll p sets).2, ∀ e ∈ x.1, 0 ≤ (e.1 : Int) + x.2 := by
  induction sets generalizing p with
  | nil => simp
  | cons es sets ih =>
    obtain ⟨hes, hrest⟩ := List.forall_mem_cons.1 hsets
    have hready := ready_addSet h hes.1 hes.2
    have hall : (addSet p es).aLookahead = es := by rw [addSet_aLookahead, h, List.nil_append]
    simp only [insertAll]
    rw [List.zip_cons_cons, List.forall_mem_cons]
    refine ⟨fun e he => ?_, ih rfl hrest⟩
    have h0 := hready.slotIndex_nonneg (hall.symm ▸ he) (scan (addSet p es))
    unfold slotIndex at h0
    unfold acttabInsert
    simp only
    omega

/-- `yy_lookahead[i]` found to be the lookahead, and `yy_action[i]`. -/
def lookup (l : List Slot) (offset : Int) (lookahead : Nat) : Option Nat :=
  if 0 ≤ offset + lookahead then
    ((slot l (offset + lookahead).toNat).filter (fun e => e.1 = lookahead)).map Prod.snd
  else none

theorem lookup_eq_some {l : List Slot} {offset : Int} {a act : Nat} :
    lookup l offset a = some act ↔ ∃ k : Nat, (k : Int) = a + offset ∧ slot l k = some (a, act) := by
  unfold lookup
  split
  next h =>
    rw [Option.map_eq_some_iff]
    constructor
    · intro hs
      obtain ⟨e, he, rfl⟩ := hs
      obtain ⟨he, hfst⟩ := Option.filter_eq_some_iff.1 he
      refine ⟨(offset + a).toNat, by omega, ?_⟩
      rw [he, ← of_decide_eq_true hfst]
    · intro hs
      obtain ⟨k, hk, hs⟩ := hs
      have hkn : (offset + a).toNat = k := by omega
      exact ⟨(a, act), Option.filter_eq_some_iff.2 ⟨by rw [hkn, hs], by simp⟩, rfl⟩
  next h =>
    constructor
    · intro hs
      cases hs
    · intro hs
      obtain ⟨k, hk, _⟩ := hs
      omega

/-- **A lookup through an offset finds the actions of the sets at this offset**, all of them and
nothing else. -/
theorem insertAll_lookup {sets : List (List (Nat × Nat))} (hsets : SetsOk sets) (offset : Int)
    (a act : Nat) :
    lookup (insertAll acttabAlloc sets).1.aAction offset a = some act ↔
      ∃ es, (es, offset) ∈ sets.zip (insertAll acttabAlloc sets).2 ∧ (a, act) ∈ es := by
  rw [lookup_eq_some]
  constructor
  · intro h
    obtain ⟨k, hk, hs⟩ := h
    rcases (insertAll_slot rfl hsets k (a, act)).1 hs with hnil | ⟨x, hx, hmem, hkx⟩
    · rw [slot_of_length_le (Nat.zero_le k)] at hnil
      cases hnil
    · have hoff : x.2 = offset := by
        simp only at hkx
        omega
      exact ⟨x.1, hoff ▸ hx, hmem⟩
  · intro h
    obtain ⟨es, hx, hmem⟩ := h
    have h0 := insertAll_nonneg rfl hsets _ hx _ hmem
    refine ⟨((a : Int) + offset).toNat, by omega, (insertAll_slot rfl hsets _ _).2 (.inr ⟨_, hx, hmem, ?_⟩)⟩
    simp only
    omega

end Dbsql.L7.ActTab
