import Dbsql.L5Codegen.CountRows
/-!
# The stack under a count

A loop that counts on top of the stack needs the counter to be there in each round. `Frame` says what any
code of a trigger program leaves alone, whatever happens; `At` what is on the stack, as long as none of the
branches is taken that matter.

Results:
* `Update.triple_change`, `Delete.triple_change`: the counter is on top behind the loop, with the number of
  the rows changed by the statement itself.
* `Stmt.keeps_code`, `Stmt.climbs_code`: a statement of a trigger program does not touch the counters of the
  others, and leaves the stack as it is.
-/
namespace Dbsql.L5.CountRows
open Dbsql.Core.Jumps Dbsql.L1

variable {D : Type}

/-! ## What stays wherever the code goes -/

/-- Cells below `n` stay, and lists that have been saved; rows are given to the callback by statements of
trigger programs only, and what these change is not counted. -/
structure Frame (nested : Bool) (n : Nat) (s t : Vm D) : Prop where
  aMem : ∀ i < n, t.aMem i = s.aMem i
  rows : s.rows <+: t.rows
  delivered : t.rows.length + s.taken.count .counted = s.rows.length + t.taken.count .counted
  taken : s.taken <:+ t.taken
  changed : nested = true → t.changed = s.changed
  saved : s.keylistStack.length ≤ t.keylistStack.length

section
variable {nested trigStack above : Bool} {n k : Nat} {c : VmCode D} {s t : Vm D}

instance : Std.Refl (Frame (D := D) nested n) where
  refl _ := ⟨fun _ _ => rfl, List.prefix_rfl, rfl, List.suffix_rfl, fun _ => rfl, le_rfl⟩

instance : IsTrans (Vm D) (Frame nested n) where
  trans s t u h h' := by
    refine ⟨fun i hi => (h'.aMem i hi).trans (h.aMem i hi), h.rows.trans h'.rows, ?_,
      h.taken.trans h'.taken, fun hn => (h'.changed hn).trans (h.changed hn), h.saved.trans h'.saved⟩
    have := h.delivered
    have := h'.delivered
    omega

theorem Frame.mono (h : Frame nested n s t) (hle : k ≤ n) : Frame nested k s t :=
  ⟨fun i hi => h.aMem i (by omega), h.rows, h.delivered, h.taken, h.changed, h.saved⟩

theorem Frame.top (h : Frame true n s t) : Frame nested n s t :=
  ⟨h.aMem, h.rows, h.delivered, h.taken, fun _ => h.changed rfl, h.saved⟩

/-- Code that touches neither the cells, nor the rows, nor the counts. -/
theorem Frame.of_eq (hm : t.aMem = s.aMem) (hr : t.rows = s.rows) (ht : t.taken = s.taken)
    (hc : t.changed = s.changed) (hk : t.keylistStack = s.keylistStack) : Frame nested n s t :=
  ⟨fun i _ => by rw [hm], hr ▸ List.prefix_rfl, by rw [hr, ht], ht ▸ List.suffix_rfl, fun _ => hc,
    by rw [hk]⟩

theorem frame_log {ev : Event} (h : ev ≠ .counted) : Frame nested n s (s.log ev) :=
  ⟨fun _ _ => rfl, List.prefix_rfl, by simp [Vm.log, List.count_cons_of_ne h], List.suffix_cons ev s.taken,
    fun _ => rfl, le_rfl⟩

theorem keeps_withTop {f : CInt → VmCode D} (h : ∀ v, Keeps (Frame nested n) (f v)) :
    Keeps (Frame nested n) (withTop f) := by
  intro s
  rw [withTop]
  split
  · exact refl_of _ s
  · rename_i tos st _
    have h' : Frame nested n s { s with stack := st } := .of_eq rfl rfl rfl rfl rfl
    exact trans_of _ h' (h tos _)

theorem keeps_push (vs : List CInt) : Keeps (Frame nested n) (push (D := D) vs) :=
  fun _ => .of_eq rfl rfl rfl rfl rfl

theorem keeps_dup : Keeps (Frame nested n) (dup (D := D)) := keeps_withTop fun _ => keeps_push _

theorem keeps_addImm (i : CInt) : Keeps (Frame nested n) (addImm (D := D) i) :=
  keeps_withTop fun _ => keeps_push _

theorem keeps_pop (i : Nat) : Keeps (Frame nested n) (pop (D := D) i) := by
  intro s
  rw [pop]
  split
  · exact .of_eq rfl rfl rfl rfl rfl
  · exact refl_of _ s

theorem frame_update {i : Nat} (h : n ≤ i) (v : CInt) :
    Frame nested n s { s with aMem := Function.update s.aMem i v } :=
  ⟨fun j hj => Function.update_of_ne (by omega) _ _, List.prefix_rfl, rfl, List.suffix_rfl, fun _ => rfl, le_rfl⟩

theorem keeps_memStore {i : Nat} (h : n ≤ i) : Keeps (Frame nested n) (memStore (D := D) i) :=
  keeps_withTop fun v _ => frame_update h v

theorem keeps_memIncr {i : Nat} (h : n ≤ i) : Keeps (Frame nested n) (memIncr (D := D) i) :=
  fun _ => frame_update h _

theorem keeps_memLoad (i : Nat) : Keeps (Frame nested n) (memLoad (D := D) i) :=
  fun s => keeps_push [s.aMem i] s

/-- The callback of a statement of a trigger program. -/
theorem keeps_callback : Keeps (Frame nested n) (callback (D := D) true) := by
  refine keeps_withTop fun v s =>
    ⟨fun _ _ => rfl, List.prefix_append _ _, ?_, List.suffix_cons _ _, fun _ => rfl, le_rfl⟩
  simp [Vm.log]
  omega

theorem keeps_listWrite : Keeps (Frame nested n) (listWrite (D := D)) :=
  keeps_withTop fun _ _ => .of_eq rfl rfl rfl rfl rfl

/-- The state behind `OP_ListPush`. -/
def Vm.pushed (s : Vm D) : Vm D := { s with pList := [], keylistStack := s.pList :: s.keylistStack }

theorem saved_eq (c : VmCode D) (s : Vm D) :
    block [listPush, c, listPop] s = land (fun _ => false) c listPop s.pushed := by
  show block [c, listPop] s.pushed = _
  rw [block, block_singleton]

/-- The list is saved and restored around code. -/
theorem keeps_saved (h : Keeps (Frame nested n) c) : Keeps (Frame nested n) (block [listPush, c, listPop]) := by
  intro s
  have hs := h s.pushed
  rw [saved_eq, land]
  split
  · rename_i t hc
    rw [hc] at hs
    have hsaved := hs.saved
    rw [listPop]
    split
    · rename_i hk
      simp [Vm.pushed, hk] at hsaved
    · rename_i l ls hk
      simp only [Vm.pushed, hk, List.length_cons, Nat.add_le_add_iff_right] at hsaved
      exact ⟨hs.aMem, hs.rows, hs.delivered, hs.taken, hs.changed, hsaved⟩
  · rename_i e t hc
    rw [hc] at hs
    exact ⟨hs.aMem, hs.rows, hs.delivered, hs.taken, hs.changed, (Nat.le_succ _).trans hs.saved⟩

theorem keeps_note {ev : Event} (h : ev ≠ .counted) : Keeps (Frame nested n) (note (D := D) ev) :=
  fun _ => frame_log h

theorem keeps_noteRows (h : nested = true → trigStack = true) (i : Nat) :
    Keeps (Frame nested n) (noteRows (D := D) trigStack i) := by
  intro s
  rw [noteRows]
  cases trigStack with
  | true => exact refl_of _ s
  | false =>
    exact ⟨fun _ _ => rfl, List.prefix_rfl, rfl, List.suffix_rfl, fun hn => (nomatch h hn), le_rfl⟩

theorem keeps_leave (d : D) (left : List CInt) : Keeps (Frame nested n) (leave above d left) := by
  intro s
  have h : Frame nested n s { s with data := d, stack := left ++ s.stack } := .of_eq rfl rfl rfl rfl rfl
  rw [leave]
  split
  · exact trans_of _ h (frame_log (by decide))
  · exact h

theorem keeps_part (run : D → Ran D) : Keeps (Frame nested n) (part trigStack above run) := by
  intro s
  rw [part]
  split
  · exact keeps_leave _ _ s
  · exact .of_eq rfl rfl rfl rfl rfl
  · exact .of_eq rfl rfl rfl rfl rfl

theorem keeps_store (run : D → Stored D) (kept : List CInt) :
    Keeps (Frame nested n) (store trigStack run kept) := by
  intro s
  rw [store]
  split <;> exact .of_eq rfl rfl rfl rfl rfl

theorem keeps_scanLoop {scan : D → Scan D} (h : Keeps (Frame nested n) c) :
    Keeps (Frame nested n) (scanLoop trigStack above scan c) := by
  have hrow : ∀ x : List CInt × CInt, Keeps (Frame nested n)
      (block [fun s => leave above s.data x.1 s, push [x.2], listWrite, c]) := by
    intro x
    have hleave : Keeps (Frame nested n) fun s : Vm D => leave above s.data x.1 s :=
      fun s => keeps_leave s.data x.1 s
    exact hleave.cons ((keeps_push _).cons (keeps_listWrite.cons (h.cons keeps_nil)))
  intro s
  exact (keeps_each hrow _).cons ((keeps_part _).cons keeps_nil) s

theorem keeps_listLoopFrom (h : Keeps (Frame nested n) c) (rs : List CInt) :
    Keeps (Frame nested n) (listLoopFrom c rs) := by
  induction rs with
  | nil => exact fun _ => .of_eq rfl rfl rfl rfl rfl
  | cons r rs ih =>
    have hread : Keeps (Frame nested n) (listRead (D := D) r rs) := fun _ => .of_eq rfl rfl rfl rfl rfl
    have hsame : Keeps (Frame nested n) (sameList (D := D) rs) := by
      intro s
      rw [sameList]
      split
      · exact refl_of _ s
      · exact frame_log (by decide)
    exact (hread.cons (h.cons keeps_nil)).land (hsame.cons (ih.cons keeps_nil))

theorem keeps_beforeChange (h : Keeps (Frame nested n) c) : Keeps (Frame nested n) (beforeChange c) := by
  intro s
  have hs := h s
  rw [beforeChange]
  split
  · rename_i s' hc
    rw [hc] at hs
    exact trans_of _ hs (frame_log (by decide))
  · exact hs

theorem keeps_ignoreJump (h : Keeps (Frame nested n) c) : Keeps (Frame nested n) (ignoreJump c) := by
  intro s
  have hs := h s
  rw [ignoreJump]
  split
  · rename_i s' hc
    rw [hc] at hs
    split
    · exact hs
    · exact trans_of _ hs (frame_log (by decide))
  · exact hs

theorem Source.keeps_front : ∀ src : Source D, Keeps (Frame nested n) (src.front trigStack)
  | .values | .select false _ _ => keeps_skip
  | .select true _ run => keeps_part run

theorem Source.keeps_rear : ∀ src : Source D, Keeps (Frame nested n) (src.rear trigStack)
  | .values | .select true _ _ => keeps_skip
  | .select false _ run => keeps_part run

/-- The statements, with what is known of the code of their triggers. -/
theorem Insert.keeps_change {q : Insert D} {cnt : Nat} {b a : VmCode D} (hb : Keeps (Frame nested n) b)
    (ha : Keeps (Frame nested n) a) (hc : n ≤ cnt) (ht : nested = true → trigStack = true) :
    Keeps (Frame nested n) (q.change true trigStack cnt b a) := by
  have hrow : ∀ row, Keeps (Frame nested n) (q.row true trigStack cnt b a row) := by
    intro row
    have hnew : Keeps (Frame nested n) (block [part trigStack true (q.newRow · row), b]) :=
      (keeps_part _).cons (hb.cons keeps_nil)
    refine Keeps.land ?_ (keeps_pop _)
    exact (keeps_push _).cons <| (keeps_onlyIf fun _ => hnew).cons <|
      (keeps_onlyIf fun _ => keeps_store _ _).cons <| (keeps_noteRows ht 1).cons <|
      (keeps_onlyIf fun _ => keeps_memIncr hc).cons <| (keeps_onlyIf fun _ => ha).cons keeps_nil
  have hinit : Keeps (Frame nested n) (block [integer 0, memStore (D := D) cnt]) :=
    (keeps_push _).cons ((keeps_memStore hc).cons keeps_nil)
  have hloop : Keeps (Frame nested n)
      fun s => each Exit.goesOn (q.row true trigStack cnt b a) (q.source.rows s.data) s :=
    fun s => keeps_each hrow _ s
  exact q.source.keeps_front.cons <| (keeps_onlyIf fun _ => hinit).cons <| hloop.cons <|
    q.source.keeps_rear.cons keeps_nil

theorem Update.keeps_change {q : Update D} {b a : VmCode D} (hb : Keeps (Frame nested n) b)
    (ha : Keeps (Frame nested n) a) (ht : nested = true → trigStack = true) :
    Keeps (Frame nested n) (q.change true trigStack b a) := by
  have hold : Keeps (Frame nested n)
      (block [dup, withTop fun tos => part trigStack true (q.oldNew · tos), beforeChange b]) :=
    keeps_dup.cons <| (keeps_withTop fun _ => keeps_part _).cons <| (keeps_beforeChange hb).cons keeps_nil
  have hexists : Keeps (Frame nested n) q.notExists := by
    refine keeps_withTop fun v s => ?_
    split
    · exact refl_of _ s
    · exact frame_log (by decide)
  have hstore : Keeps (Frame nested n)
      (block [q.notExists, withTop fun tos => CountRows.store trigStack (q.store · tos) [tos]]) :=
    hexists.cons ((keeps_withTop fun _ => keeps_store _ _).cons keeps_nil)
  have hchange : Keeps (Frame nested n) (if q.is_view_p then note .view
      else block [q.notExists, withTop fun tos => CountRows.store trigStack (q.store · tos) [tos]]) := by
    split
    · exact keeps_note (by decide)
    · exact hstore
  have hrow : Keeps (Frame nested n) (q.row true trigStack b a) :=
    keeps_dup.cons <| (keeps_onlyIf fun _ => hold).cons <| hchange.cons <| (keeps_noteRows ht 1).cons <|
      (keeps_onlyIf fun _ => keeps_addImm 1).cons <| (keeps_onlyIf fun _ => ha).cons keeps_nil
  have hloop : Keeps (Frame nested n) (listLoop (q.row true trigStack b a)) :=
    fun s => keeps_listLoopFrom hrow _ s
  exact (keeps_onlyIf fun _ => keeps_part _).cons <| (keeps_scanLoop keeps_skip).cons <|
    (keeps_onlyIf fun _ => keeps_push _).cons <| hloop.cons keeps_nil

theorem Delete.keeps_change {q : Delete D} {b a : VmCode D} (hb : Keeps (Frame nested n) b)
    (ha : Keeps (Frame nested n) a) (ht : nested = true → trigStack = true) :
    Keeps (Frame nested n) (q.change true trigStack b a) := by
  have hold : Keeps (Frame nested n)
      (block [dup, withTop fun tos s => (none, { s with data := q.old s.data tos }), beforeChange b]) :=
    keeps_dup.cons <| (keeps_withTop fun _ _ => .of_eq rfl rfl rfl rfl rfl).cons <|
      (keeps_beforeChange hb).cons keeps_nil
  have hdelete : Keeps (Frame nested n) (q.generateRowDelete trigStack) := by
    refine keeps_withTop fun v s => ?_
    split
    · exact frame_log (by decide)
    · rename_i d _
      have h : Frame nested n s { s with data := d } := .of_eq rfl rfl rfl rfl rfl
      exact trans_of _ h (keeps_noteRows ht 1 _)
  have hchange : Keeps (Frame nested n) (if q.view_p then block [note .view, noteRows trigStack 1]
      else q.generateRowDelete trigStack) := by
    split
    · exact (keeps_note (by decide)).cons ((keeps_noteRows ht 1).cons keeps_nil)
    · exact hdelete
  have hrow : Keeps (Frame nested n) (q.row trigStack b a) :=
    (keeps_onlyIf fun _ => hold).cons <| hchange.cons <| (keeps_onlyIf fun _ => ha).cons keeps_nil
  have hloop : Keeps (Frame nested n) (listLoop (q.row trigStack b a)) :=
    fun s => keeps_listLoopFrom hrow _ s
  have hall : Keeps (Frame nested n) (q.deleteAll true trigStack) := by
    intro s
    have hclear : Keeps (Frame nested n) fun s : Vm D =>
        ((none, { s with data := q.clear s.data }) : Option Exit × Vm D) :=
      fun _ => .of_eq rfl rfl rfl rfl rfl
    exact (keeps_onlyIf fun _ => keeps_each (fun _ => keeps_addImm 1) _).cons
      ((keeps_onlyIf fun _ => hclear.cons ((keeps_noteRows ht _).cons keeps_nil)).cons keeps_nil) s
  have hrows : Keeps (Frame nested n) (if !q.where_ && !q.row_triggers_exist then q.deleteAll true trigStack
      else block [scanLoop trigStack true q.scan (onlyIf true (addImm 1)), listLoop (q.row trigStack b a)]) := by
    split
    · exact hall
    · exact (keeps_scanLoop (keeps_onlyIf fun _ => keeps_addImm 1)).cons (hloop.cons keeps_nil)
  exact (keeps_onlyIf fun _ => keeps_part _).cons <| (keeps_onlyIf fun _ => keeps_push _).cons <|
    hrows.cons keeps_nil

end

mutual

/-- A statement of a trigger program. -/
theorem Stmt.keeps_code : ∀ (q : Stmt D) (nMem : Nat), Keeps (Frame true nMem) (q.code true true nMem)
  | .insert q before after, nMem => by
    have hb := (keeps_ignoreJump (keeps_codeRowTrigger before (nMem + 1))).mono
      fun _ _ h => h.mono (Nat.le_add_right nMem 1)
    have ha := (keeps_ignoreJump (keeps_codeRowTrigger after (nMem + 1 + triggersCells before))).mono
      fun _ _ h => h.mono (show nMem ≤ _ by omega)
    have hcount : Keeps (Frame true nMem) (block [memLoad (D := D) nMem, callback true]) :=
      (keeps_memLoad nMem).cons (keeps_callback.cons keeps_nil)
    rw [Stmt.code]
    exact (q.keeps_change hb ha le_rfl fun _ => rfl).cons
      ((keeps_onlyIf fun _ => hcount).cons keeps_nil)
  | .update q before after, nMem => by
    have hb := keeps_ignoreJump (keeps_codeRowTrigger before nMem)
    have ha := (keeps_ignoreJump (keeps_codeRowTrigger after (nMem + triggersCells before))).mono
      fun _ _ h => h.mono (Nat.le_add_right nMem _)
    rw [Stmt.code]
    exact (q.keeps_change hb ha fun _ => rfl).cons
      ((keeps_onlyIf fun _ => keeps_callback).cons keeps_nil)
  | .deleteFrom q before after, nMem => by
    have hb := keeps_ignoreJump (keeps_codeRowTrigger before nMem)
    have ha := (keeps_ignoreJump (keeps_codeRowTrigger after (nMem + triggersCells before))).mono
      fun _ _ h => h.mono (Nat.le_add_right nMem _)
    rw [Stmt.code]
    exact (q.keeps_change hb ha fun _ => rfl).cons
      ((keeps_onlyIf fun _ => keeps_callback).cons keeps_nil)

theorem keeps_codeRowTrigger : ∀ (ts : List (Trigger D)) (nMem : Nat),
    Keeps (Frame true nMem) (codeRowTrigger true nMem ts)
  | [], _ => by
    rw [codeRowTrigger]
    exact keeps_skip
  | t :: ts, nMem => by
    have ih := (keeps_codeRowTrigger ts (nMem + t.cells)).mono fun _ _ h => h.mono (Nat.le_add_right nMem _)
    rw [codeRowTrigger]
    exact (t.keeps_code nMem).cons (ih.cons keeps_nil)

theorem Trigger.keeps_code : ∀ (t : Trigger D) (nMem : Nat), Keeps (Frame true nMem) (t.code true nMem)
  | .mk pWhen fires step_list, nMem => by
    intro s
    rw [Trigger.code]
    exact (keeps_part pWhen).cons
      ((keeps_onlyIf fun _ => keeps_codeTriggerProgram step_list nMem).cons keeps_nil) s

theorem keeps_codeTriggerProgram : ∀ (ts : List (Step D)) (nMem : Nat),
    Keeps (Frame true nMem) (codeTriggerProgram true nMem ts)
  | [], _ => by
    rw [codeTriggerProgram]
    exact keeps_skip
  | t :: ts, nMem => by
    have ih := (keeps_codeTriggerProgram ts (nMem + t.cells)).mono
      fun _ _ h => h.mono (Nat.le_add_right nMem _)
    rw [codeTriggerProgram]
    exact (t.keeps_code nMem).cons (ih.cons keeps_nil)

theorem Step.keeps_code : ∀ (t : Step D) (nMem : Nat), Keeps (Frame true nMem) (t.code true nMem)
  | .select run, _ => by
    rw [Step.code]
    exact keeps_part run
  | .stmt q, nMem => by
    have h := q.keeps_code nMem
    have hl := keeps_saved h
    rw [Step.code]
    cases q with
    | insert _ _ _ => exact h
    | update _ _ _ => exact hl
    | deleteFrom _ _ _ => exact hl

end

/-! ## The stack -/

/-- What was on the stack is under as many values as `xs`; as long as no branch that matters is taken,
these are `xs`, and the statement has changed `m` rows. -/
structure At (base xs : List CInt) (m : Nat) (s : Vm D) : Prop where
  below : base <:+ s.stack
  depth : base.length + xs.length ≤ s.stack.length
  still : s.taken = [] → s.stack = xs ++ base ∧ s.changed = m

/-- `At` some number of rows, on which the values depend. -/
def AtSome (base : List CInt) (xs : Nat → List CInt) (s : Vm D) : Prop := ∃ m, At base (xs m) m s

/-- The jump of `RAISE(IGNORE)` in a statement of a trigger program, with `k` values or more. -/
def Raised (trigStack : Bool) (base : List CInt) (k : Nat) (s : Vm D) : Prop :=
  trigStack = true ∧ base <:+ s.stack ∧ base.length + k ≤ s.stack.length

/-- Where code goes: if no list has been lost, no assertion fails. -/
def Exits (cont ignore : Vm D → Prop) : Exit → Vm D → Prop
  | .cont => cont
  | .ignore => ignore
  | .halt => fun _ => True
  | .stuck => fun s => .lost ∈ s.taken

section
variable {trigStack above : Bool} {n m m' k : Nat} {base xs ys : List CInt} {v : CInt} {c : VmCode D}
  {s t : Vm D} {C I Q : Vm D → Prop} {J : Exit → Vm D → Prop}

theorem At.log {ev : Event} (h : At base xs m s) (hle : ys.length ≤ xs.length) :
    At base ys m' (s.log ev) := by
  refine ⟨h.below, ?_, fun ht => by simp [Vm.log] at ht⟩
  have := h.depth
  show base.length + ys.length ≤ s.stack.length
  omega

theorem At.raised (h : At base xs m s) (d : D) (ys : List CInt) (hk : k ≤ xs.length) :
    Raised true base k { s with data := d, stack := ys ++ s.stack } := by
  refine ⟨rfl, h.below.trans (List.suffix_append _ _), ?_⟩
  have := h.depth
  simp
  omega

theorem At.data (h : At base xs m s) (d : D) : At base xs m { s with data := d } :=
  ⟨h.below, h.depth, h.still⟩

/-- The list is not on the stack. -/
theorem At.pList (h : At base xs m s) (rs : List CInt) : At base xs m { s with pList := rs } :=
  ⟨h.below, h.depth, h.still⟩

theorem triple_push (ys : List CInt) : Triple (At (D := D) base xs m) (push ys) (At base (ys ++ xs) m) J := by
  intro s h
  refine ⟨h.below.trans (List.suffix_append _ _), ?_, fun ht => ?_⟩
  · have := h.depth
    simp [push]
    omega
  · obtain ⟨hst, hm⟩ := h.still ht
    exact ⟨by simp [push, hst], hm⟩

theorem At.listRead (h : At base xs m s) (r : CInt) (rs : List CInt) :
    At base (r :: xs) m { s with stack := r :: s.stack, pList := rs } :=
  At.pList (triple_push (J := fun _ _ => True) [r] s h) rs

/-- The value that is popped is the one that was pushed. -/
theorem triple_withTop {f : CInt → VmCode D}
    (h : ∀ tos, Triple (fun s => At base xs m s ∧ (s.taken = [] → tos = v)) (f tos) Q J) :
    Triple (At base (v :: xs) m) (withTop f) Q J := by
  intro s hs
  have hd := hs.depth
  have hb := hs.below
  rw [List.length_cons] at hd
  cases hst : s.stack with
  | nil =>
    rw [hst, List.length_nil] at hd
    omega
  | cons tos st =>
    have hrun : withTop f s = f tos { s with stack := st } := by rw [withTop, hst]
    rw [hst] at hb hd
    rw [List.length_cons] at hd
    rw [hrun]
    refine h tos _ ⟨⟨?_, show base.length + xs.length ≤ st.length by omega, fun ht => ?_⟩, fun ht => ?_⟩
    · obtain rfl | hb := List.suffix_cons_iff.1 hb
      · rw [List.length_cons] at hd
        omega
      · exact hb
    · obtain ⟨hst', hm⟩ := hs.still ht
      rw [hst, List.cons_append, List.cons.injEq] at hst'
      exact ⟨hst'.2, hm⟩
    · obtain ⟨hst', -⟩ := hs.still ht
      rw [hst, List.cons_append, List.cons.injEq] at hst'
      exact hst'.1

theorem triple_dup : Triple (At (D := D) base (v :: xs) m) dup (At base (v :: v :: xs) m) J := by
  refine triple_withTop fun tos s hs => ?_
  have h : At base (tos :: tos :: xs) m (push [tos, tos] s).2 := triple_push (J := J) [tos, tos] s hs.1
  exact ⟨h.below, h.depth, fun ht => by simpa [hs.2 ht] using h.still ht⟩

theorem triple_addImm (i : CInt) :
    Triple (At (D := D) base (v :: xs) m) (addImm i) (At base ((v + i) :: xs) m) J := by
  refine triple_withTop fun tos s hs => ?_
  have h : At base ((tos + i) :: xs) m (push [tos + i] s).2 := triple_push (J := J) [tos + i] s hs.1
  exact ⟨h.below, h.depth, fun ht => by simpa [hs.2 ht] using h.still ht⟩

theorem triple_pop : Triple (At (D := D) base (ys ++ xs) m) (pop ys.length) (At base xs m) J := by
  intro s h
  have hd := h.depth
  rw [List.length_append] at hd
  rw [pop, if_pos (by omega)]
  refine ⟨List.suffix_of_suffix_length_le h.below (List.drop_suffix _ _) ?_, ?_, fun ht => ?_⟩
  · simp
    omega
  · simp
    omega
  · obtain ⟨hst, hm⟩ := h.still ht
    exact ⟨by simp [hst], hm⟩

theorem triple_note (ev : Event) (hle : ys.length ≤ xs.length) :
    Triple (At (D := D) base xs m) (note ev) (At base ys m') J := fun _ h => h.log hle

theorem triple_noteRows (i : Nat) : Triple (At (D := D) base xs m) (noteRows trigStack i)
    (At base xs (if trigStack then m else m + i)) J := by
  intro s h
  cases trigStack with
  | true => exact h
  | false => exact ⟨h.below, h.depth, fun ht => ⟨(h.still ht).1, congrArg (· + i) (h.still ht).2⟩⟩

theorem triple_leave (d : Vm D → D) (left : List CInt) :
    Triple (At base xs m) (fun s => leave true (d s) left s) (At base xs m) J := by
  intro s h
  have h' : At base (left ++ xs) m (push left { s with data := d s }).2 :=
    triple_push (J := J) left _ (h.data (d s))
  show At base xs m (if true = true ∧ left ≠ [] then (push left { s with data := d s }).2.log .left
    else (push left { s with data := d s }).2)
  split
  · exact h'.log (by simp)
  · rename_i hl
    obtain rfl : left = [] := by simpa using hl
    exact h'

/-- Code that ends leaves nothing, or says so. -/
theorem triple_part (run : D → Ran D) (hk : k ≤ xs.length) :
    Triple (At base xs m) (part trigStack true run) (At base xs m) (Exits C (Raised trigStack base k)) := by
  intro s h
  rw [part]
  split
  · exact triple_leave (fun _ => _) _ s h
  · rename_i d left _
    cases trigStack with
    | true => exact h.raised d left hk
    | false => trivial
  · trivial

theorem triple_store (run : D → Stored D) (kept : List CInt) (hk : k ≤ xs.length)
    (hc : ∀ s, At base xs m s → C s) :
    Triple (At base xs m) (store trigStack run kept) (At base xs m) (Exits C (Raised trigStack base k)) := by
  intro s h
  rw [store]
  split
  · exact h.data _
  · exact hc _ (h.data _)
  · rename_i d left _
    cases trigStack with
    | true => exact h.raised d (left ++ kept) hk
    | false => trivial
  · trivial

/-- Code of triggers: it leaves the stack as it is, also where it goes on with the next row. -/
def Levels (c : VmCode D) : Prop :=
  ∀ base xs m, Triple (At base xs m) c (At base xs m) (Exits (At base xs m) fun _ => False)

theorem Levels.triple (h : Levels c) (hc : ∀ s, At base xs m s → C s) :
    Triple (At base xs m) c (At base xs m) (Exits C I) := by
  refine (h base xs m).imp (fun _ hs => hs) (fun _ hs => hs) fun e s hs => ?_
  cases e with
  | cont => exact hc s hs
  | ignore => exact hs.elim
  | halt => trivial
  | stuck => exact hs

theorem triple_some {xs ys : Nat → List CInt} (h : ∀ m, Triple (At base (xs m) m) c (AtSome base ys) J) :
    Triple (AtSome base xs) c (AtSome base ys) J := by
  intro s hs
  obtain ⟨m, hm⟩ := hs
  exact h m s hm

theorem Levels.triple_some {xs : Nat → List CInt} (h : Levels c) :
    Triple (AtSome base xs) c (AtSome base xs) (Exits (AtSome base xs) I) := by
  refine CountRows.triple_some fun m => ?_
  exact (h.triple fun s hs => ⟨m, hs⟩).imp (fun _ hs => hs) (fun s hs => ⟨m, hs⟩) fun _ _ hs => hs

/-- In front of the change of a row. -/
theorem Levels.triple_beforeChange (h : Levels c) (hle : ys.length ≤ xs.length)
    (hc : ∀ s, At base ys m' s → C s) :
    Triple (At base xs m) (beforeChange c) (At base xs m) (Exits C I) := by
  intro s hs
  have hcs := h base xs m s hs
  rw [beforeChange]
  split
  · rename_i s' he
    rw [he] at hcs
    exact hc _ (At.log hcs hle)
  · rename_i r hr
    cases he : (c s).1 with
    | none =>
      rw [he] at hcs
      exact hcs
    | some e =>
      rw [he] at hcs
      cases e with
      | cont => exact (hr _ (Prod.ext he rfl)).elim
      | ignore => exact hcs.elim
      | halt => trivial
      | stuck => exact hcs

/-- A row of the list for each round. -/
theorem triple_listLoopFrom {P : CInt → List CInt → Vm D → Prop} {R : List CInt → Vm D → Prop}
    (hread : ∀ r rs s, R (r :: rs) s → P r rs { s with stack := r :: s.stack, pList := rs })
    (hbody : ∀ r rs, Triple (P r rs) c (R rs) (Exits (R rs) I))
    (hend : ∀ s, R [] s → Q { s with pList := [] }) (rs : List CInt) :
    Triple (R rs) (listLoopFrom c rs) Q (Exits C I) := by
  induction rs with
  | nil => exact fun s hs => hend s hs
  | cons r rs ih =>
    have hsame : Triple (R rs) (sameList rs) (R rs) (Exits C I) := by
      intro s hs
      rw [sameList]
      split
      · exact hs
      · exact List.mem_cons_self
    have hround : Triple (R (r :: rs)) (block [listRead r rs, c]) (R rs) (Exits (R rs) I) :=
      Triple.cons (Q := P r rs) (fun s hs => hread r rs s hs) ((hbody r rs).cons (triple_nil fun _ hs => hs))
    refine Triple.land (Q := R rs) (hround.imp (fun _ hs => hs) (fun _ hs => hs) fun e s hs => ?_)
      (hsame.cons (ih.cons (triple_nil fun _ hs => hs)))
    cases e <;> exact hs

/-- The scan keeps what its rows and what comes behind them keep. -/
theorem triple_scanLoop {scan : D → Scan D} (hleave : ∀ x, Triple I (fun s => leave above s.data x s) I J)
    (hrow : ∀ key : CInt, Triple I (block [push [key], listWrite, c]) I J)
    (hpart : ∀ run : D → Ran D, Triple I (part trigStack above run) I J) :
    Triple I (scanLoop trigStack above scan c) I J := by
  have hround : ∀ x : List CInt × CInt,
      Triple I (block [fun s => leave above s.data x.1 s, push [x.2], listWrite, c]) I
        fun e s => if (fun _ => false) e = true then I s else J e s :=
    fun x => ((hleave x.1).cons (hrow x.2)).imp (fun _ hs => hs) (fun _ hs => hs) fun _ _ hs => by simpa using hs
  intro s
  exact (triple_each hround _).cons ((hpart _).cons (triple_nil fun _ hs => hs)) s

theorem triple_listWrite : Triple (At (D := D) base (v :: xs) m) listWrite (At base xs m) J :=
  triple_withTop fun _ _ hs => ⟨hs.1.below, hs.1.depth, hs.1.still⟩

/-! ### In front of the counter -/

/-- A statement of a trigger program has a counter under it; what the statement itself leaves in front of
its counter is under that. -/
def Front : Bool → List CInt → Nat → Vm D → Prop
  | true, base, m, s => At base [] m s
  | false, base, m, s => ∃ xs, At base xs m s

theorem triple_frontLeave (d : Vm D → D) (left : List CInt) : Triple (Front trigStack base m)
    (fun s => leave trigStack (d s) left s) (Front trigStack base m) J := by
  cases trigStack with
  | true => exact triple_leave d left
  | false =>
    intro s hs
    obtain ⟨xs, hs⟩ := hs
    exact ⟨left ++ xs, triple_push (J := J) left _ (hs.data (d s))⟩

theorem triple_frontPart (run : D → Ran D) : Triple (Front trigStack base m) (part trigStack trigStack run)
    (Front trigStack base m) (Exits C (Raised trigStack base 0)) := by
  cases trigStack with
  | true => exact triple_part run le_rfl
  | false =>
    intro s hs
    rw [part]
    split
    · exact triple_frontLeave (J := fun _ _ => True) (fun _ => _) _ s hs
    · trivial
    · trivial

theorem triple_frontRow (key : CInt) : Triple (Front (D := D) trigStack base m)
    (block [push [key], listWrite, skip]) (Front trigStack base m) J := by
  have h : ∀ xs, Triple (At (D := D) base xs m) (block [push [key], listWrite, skip]) (At base xs m) J :=
    fun xs => (triple_push [key]).cons
      (triple_listWrite.cons (Triple.cons (triple_skip fun _ hs => hs) (triple_nil fun _ hs => hs)))
  cases trigStack with
  | true => exact h []
  | false =>
    intro s hs
    obtain ⟨xs, hs⟩ := hs
    exact (h xs).imp (fun _ hs => hs) (fun s hs => ⟨xs, hs⟩) (fun _ _ hs => hs) s hs

theorem triple_frontScan {scan : D → Scan D} : Triple (Front trigStack base m)
    (scanLoop trigStack trigStack scan skip) (Front trigStack base m) (Exits C (Raised trigStack base 0)) :=
  triple_scanLoop (fun x => triple_frontLeave (·.data) x) triple_frontRow triple_frontPart

/-- The rest, over what is on the stack then. -/
theorem triple_rebase {P : List CInt → Vm D → Prop} {R : Vm D → Prop}
    (h : ∀ base, Triple (fun s => At base [] m s ∧ R s) c (P base) (Exits C (Raised trigStack base 0))) :
    Triple (fun s => Front trigStack base m s ∧ R s) c
      (fun s => ∃ base', (trigStack = true → base' = base) ∧ P base' s)
      (Exits C (Raised trigStack base 0)) := by
  intro s hs
  obtain ⟨hs, hr⟩ := hs
  have hrest : ∀ base₁, (trigStack = true → base₁ = base) → Triple (fun s => At base₁ [] m s ∧ R s) c
      (fun s => ∃ base', (trigStack = true → base' = base) ∧ P base' s)
      (Exits C (Raised trigStack base 0)) := by
    intro base₁ hbase
    refine (h base₁).imp (fun _ hs => hs) (fun t ht => ⟨base₁, hbase, ht⟩) fun e t ht => ?_
    cases e with
    | ignore => exact hbase ht.1 ▸ ht
    | cont => exact ht
    | halt => trivial
    | stuck => exact ht
  cases trigStack with
  | true => exact hrest base (fun _ => rfl) s ⟨hs, hr⟩
  | false =>
    obtain ⟨xs, hs⟩ := hs
    exact hrest s.stack nofun s ⟨⟨List.suffix_rfl, le_rfl, fun ht => ⟨rfl, (hs.still ht).2⟩⟩, hr⟩

/-! ### UPDATE -/

/-- The counter of a statement that has changed `m` rows, unless it is one of a trigger program. -/
def counter (trigStack : Bool) (m : Nat) : List CInt := if trigStack then [] else [(m : CInt)]

abbrev Counted (trigStack : Bool) (base : List CInt) (s : Vm D) : Prop := AtSome base (counter trigStack) s

variable {b a : VmCode D}

/-- A row has been changed, and is counted. -/
theorem triple_count : Triple (At (D := D) base (counter trigStack m) (if trigStack then m else m + 1))
    (onlyIf (true && !trigStack) (addImm 1)) (Counted trigStack base) J := by
  cases trigStack with
  | true => exact triple_skip fun s hs => ⟨m, hs⟩
  | false =>
    refine Triple.imp (P := At base [(m : CInt)] (m + 1)) (triple_addImm 1) (fun _ hs => hs)
      (fun s hs => ⟨m + 1, ?_⟩) fun _ _ hs => hs
    simpa [counter, BitVec.ofNat_add] using hs

theorem Update.triple_row {q : Update D} (hb : Levels b) (ha : Levels a) (r : CInt) (m : Nat) :
    Triple (At base (r :: counter trigStack m) m) (q.row true trigStack b a) (Counted trigStack base)
      (Exits (Counted trigStack base) (Raised trigStack base 0)) := by
  have hcont : ∀ s : Vm D, At base (counter trigStack m) m s → Counted trigStack base s :=
    fun s hs => ⟨m, hs⟩
  have htriggers : Triple (At base (r :: r :: counter trigStack m) m)
      (onlyIf q.row_triggers_exist
        (block [dup, withTop fun tos => part trigStack true (q.oldNew · tos), beforeChange b]))
      (At base (r :: r :: counter trigStack m) m)
      (Exits (Counted trigStack base) (Raised trigStack base 0)) := by
    refine triple_onlyIf (fun _ => triple_dup.cons (Triple.cons (triple_withTop fun tos => ?_)
      ((hb.triple_beforeChange (by grind) hcont).cons (triple_nil fun _ hs => hs)))) fun _ s hs => hs
    exact (triple_part _ (Nat.zero_le _)).imp (fun _ hs => hs.1) (fun _ hs => hs) fun _ _ hs => hs
  have hexists : Triple (At base (r :: r :: counter trigStack m) m) q.notExists
      (At base (r :: counter trigStack m) m) (Exits (Counted trigStack base) (Raised trigStack base 0)) := by
    refine triple_withTop fun tos s hs => ?_
    show Option.elim (if q.exists_ s.data tos then (none, s) else (some Exit.cont, s.log .gone)).1 _ _
    split
    · exact hs.1
    · exact hcont _ (hs.1.log (by simp))
  have hstore : Triple (At base (r :: counter trigStack m) m)
      (withTop fun tos => CountRows.store trigStack (q.store · tos) [tos])
      (At base (counter trigStack m) m) (Exits (Counted trigStack base) (Raised trigStack base 0)) := by
    refine triple_withTop fun tos => ?_
    exact (triple_store _ _ (Nat.zero_le _) hcont).imp (fun _ hs => hs.1) (fun _ hs => hs) fun _ _ hs => hs
  have hchange : Triple (At base (r :: r :: counter trigStack m) m)
      (if q.is_view_p then note .view
        else block [q.notExists, withTop fun tos => CountRows.store trigStack (q.store · tos) [tos]])
      (At base (counter trigStack m) m) (Exits (Counted trigStack base) (Raised trigStack base 0)) := by
    split
    · exact triple_note .view (by grind)
    · exact hexists.cons (hstore.cons (triple_nil fun _ hs => hs))
  exact triple_dup.cons <| htriggers.cons <| hchange.cons <| (triple_noteRows 1).cons <| triple_count.cons <|
    (triple_onlyIf (fun _ => ha.triple_some) fun _ _ hs => hs).cons (triple_nil fun _ hs => hs)

theorem Update.triple_change {q : Update D} (hb : Levels b) (ha : Levels a)
    (hm : trigStack = false → m = 0) :
    Triple (Front trigStack base m) (q.change true trigStack b a)
      (fun s => ∃ base', (trigStack = true → base' = base) ∧ Counted trigStack base' s)
      (Exits C (Raised trigStack base 0)) := by
  have hzero : ∀ base, Triple (At base [] m) (onlyIf (true && !trigStack) (integer (D := D) 0))
      (Counted trigStack base) (Exits C (Raised trigStack base 0)) := by
    intro base
    cases trigStack with
    | true => exact triple_skip fun s hs => ⟨m, hs⟩
    | false =>
      obtain rfl := hm rfl
      exact (triple_push [0]).imp (fun _ hs => hs) (fun s hs => ⟨0, hs⟩) fun _ _ hs => hs
  have hloop : ∀ base, Triple (Counted trigStack base) (listLoop (q.row true trigStack b a))
      (Counted trigStack base) (Exits C (Raised trigStack base 0)) := by
    intro base s
    refine triple_listLoopFrom (P := fun r _ s => ∃ m, At base (r :: counter trigStack m) m s)
      (R := fun _ => Counted trigStack base) ?_ (fun r rs s hs => ?_) ?_ s.pList s
    · intro r rs s hs
      obtain ⟨m, hs⟩ := hs
      exact ⟨m, hs.listRead r rs⟩
    · obtain ⟨m, hs⟩ := hs
      exact triple_row hb ha r m s hs
    · intro s hs
      obtain ⟨m, hs⟩ := hs
      exact ⟨m, hs.pList []⟩
  have hrest : Triple (fun s => Front trigStack base m s ∧ True) _ _ _ := triple_rebase fun base =>
    ((hzero base).cons ((hloop base).cons (triple_nil fun _ hs => hs))).imp (fun s hs => hs.1)
      (fun _ hs => hs) fun _ _ hs => hs
  exact (triple_onlyIf (fun _ => triple_frontPart _) fun _ _ hs => hs).cons <| triple_frontScan.cons <|
    hrest.imp (fun s hs => ⟨hs, trivial⟩) (fun _ hs => hs) fun _ _ hs => hs

/-! ### DELETE -/

/-- The counter has `K` rows, of which `k` are still to be deleted by the statement itself. -/
def Listed (trigStack : Bool) (base : List CInt) (K k : Nat) (s : Vm D) : Prop :=
  ∃ m, At base [(K : CInt)] m s ∧ (trigStack = false → K = m + k)

theorem Delete.triple_row {q : Delete D} (hb : Levels b) (ha : Levels a) (r : CInt) (K m : Nat) :
    Triple (At base [r, (K : CInt)] m) (q.row trigStack b a)
      (At base [(K : CInt)] (if trigStack then m else m + 1))
      (Exits (At base [(K : CInt)] (if trigStack then m else m + 1)) (Raised trigStack base 0)) := by
  have htriggers : Triple (At base [r, (K : CInt)] m)
      (onlyIf q.row_triggers_exist (block [dup,
        withTop fun tos s => (none, { s with data := q.old s.data tos }), beforeChange b]))
      (At base [r, (K : CInt)] m)
      (Exits (At base [(K : CInt)] (if trigStack then m else m + 1)) (Raised trigStack base 0)) := by
    refine triple_onlyIf (fun _ => triple_dup.cons (Triple.cons (triple_withTop fun tos s hs => hs.1.data _)
      ((hb.triple_beforeChange (by simp) fun _ hs => hs).cons (triple_nil fun _ hs => hs)))) fun _ s hs => hs
  have hdelete : Triple (At base [r, (K : CInt)] m) (q.generateRowDelete trigStack)
      (At base [(K : CInt)] (if trigStack then m else m + 1))
      (Exits (At base [(K : CInt)] (if trigStack then m else m + 1)) (Raised trigStack base 0)) := by
    refine triple_withTop fun tos s hs => ?_
    split
    · exact hs.1.log le_rfl
    · exact triple_noteRows 1 _ (hs.1.data _)
  have hchange : Triple (At base [r, (K : CInt)] m)
      (if q.view_p then block [note .view, noteRows trigStack 1] else q.generateRowDelete trigStack)
      (At base [(K : CInt)] (if trigStack then m else m + 1))
      (Exits (At base [(K : CInt)] (if trigStack then m else m + 1)) (Raised trigStack base 0)) := by
    split
    · exact (triple_note .view (by simp)).cons ((triple_noteRows 1).cons (triple_nil fun _ hs => hs))
    · exact hdelete
  exact htriggers.cons <| hchange.cons <|
    (triple_onlyIf (fun _ => ha.triple fun _ hs => hs) fun _ _ hs => hs).cons (triple_nil fun _ hs => hs)

/-- The count of a DELETE, over the list that the scan has written. -/
def Scanned (trigStack : Bool) (base : List CInt) (m : Nat) (s : Vm D) : Prop :=
  ∃ K : Nat, At base [(K : CInt)] m s ∧ (trigStack = false → K = m + s.pList.length)

/-- Code that writes and counts `i` rowids. -/
theorem Scanned.triple {i : Nat}
    (h : ∀ K : Nat, Triple (At base [(K : CInt)] m) c (At base [((K + i : Nat) : CInt)] m) J)
    (hl : ∀ s, (c s).1 = none → (c s).2.pList.length = s.pList.length + i) :
    Triple (Scanned trigStack base m) c (Scanned trigStack base m) J := by
  intro s hs
  obtain ⟨K, hs, hK⟩ := hs
  have hc := h K s hs
  cases he : (c s).1 with
  | none =>
    rw [he] at hc
    exact ⟨K + i, hc, fun ht => by rw [hl s he, hK ht, Nat.add_assoc]⟩
  | some e =>
    rw [he] at hc
    exact hc

theorem leave_pList (d : D) (left : List CInt) (s : Vm D) : (leave above d left s).2.pList = s.pList := by
  simp only [leave]
  split <;> rfl

theorem part_pList (run : D → Ran D) (s : Vm D) : (part trigStack above run s).2.pList = s.pList := by
  rw [part]
  split
  · exact leave_pList _ _ s
  · rfl
  · rfl

theorem addImm_pList (i : CInt) (s : Vm D) : (addImm i s).2.pList = s.pList := by
  rw [addImm, withTop]
  split <;> rfl

theorem triple_addOne (K : Nat) : Triple (At (D := D) base [(K : CInt)] m) (addImm 1)
    (At base [((K + 1 : Nat) : CInt)] m) J :=
  (triple_addImm 1).imp (fun _ hs => hs) (fun s hs => by simpa [BitVec.ofNat_add] using hs) fun _ _ hs => hs

/-- A rowid is written to the list and counted. -/
theorem triple_scanRow (key : CInt) : Triple (Scanned (D := D) trigStack base m)
    (block [push [key], listWrite, onlyIf true (addImm 1)]) (Scanned trigStack base m) J := by
  refine Scanned.triple (i := 1) (fun K => (triple_push [key]).cons <| triple_listWrite.cons <|
    Triple.cons (triple_addOne K) (triple_nil fun _ hs => hs)) fun s hs => ?_
  have hrun : block [push [key], listWrite, onlyIf true (addImm 1)] s =
      block [addImm 1] { s with pList := s.pList ++ [key] } := rfl
  rw [hrun, block_singleton, addImm_pList, List.length_append, List.length_singleton]

theorem Delete.triple_scan {q : Delete D} :
    Triple (Scanned trigStack base m) (scanLoop trigStack true q.scan (onlyIf true (addImm 1)))
      (Scanned trigStack base m) (Exits C (Raised trigStack base 0)) := by
  refine triple_scanLoop (fun x => Scanned.triple (i := 0) (fun _ => triple_leave (·.data) x) fun s _ => ?_)
    triple_scanRow fun run => Scanned.triple (i := 0) (fun _ => triple_part run (Nat.zero_le _)) fun s _ => ?_
  · rw [leave_pList, Nat.add_zero]
  · rw [part_pList, Nat.add_zero]

theorem triple_addImms (K n : Nat) : Triple (At (D := D) base [(K : CInt)] m)
    (each (fun _ => false) (fun _ => addImm 1) (List.replicate n ())) (At base [((K + n : Nat) : CInt)] m) J := by
  induction n generalizing K with
  | zero => exact triple_skip fun _ hs => hs
  | succ n ih =>
    rw [List.replicate_succ]
    rw [Nat.add_comm n, ← Nat.add_assoc]
    exact Triple.land (triple_addOne K) (ih (K + 1))

theorem Delete.triple_deleteAll {q : Delete D} (hv : q.view_p = false) (hm : trigStack = false → m = 0) :
    Triple (At base [((0 : Nat) : CInt)] m) (q.deleteAll true trigStack)
      (fun s => ∃ K, Listed trigStack base K 0 s) J := by
  intro s hs
  have hclear : Triple (At base [((0 + q.entries s.data : Nat) : CInt)] m)
      (onlyIf (!q.view_p)
        (block [fun s => (none, { s with data := q.clear s.data }), noteRows trigStack (q.entries s.data)]))
      (fun s => ∃ K, Listed trigStack base K 0 s) J := by
    refine triple_onlyIf (fun _ => Triple.cons (fun s hs => hs.data _) (Triple.cons (triple_noteRows _)
      (triple_nil fun s' hs' => ⟨_, _, hs', fun ht => ?_⟩))) fun hn => by simp [hv] at hn
    simp [ht, hm ht]
  exact (Triple.cons (triple_addImms 0 _) (hclear.cons (triple_nil fun _ hs => hs))) s hs

theorem Delete.triple_round {q : Delete D} (hb : Levels b) (ha : Levels a) (r : CInt) (K k : Nat) :
    Triple (fun s => ∃ m, At base [r, (K : CInt)] m s ∧ (trigStack = false → K = m + (k + 1)))
      (q.row trigStack b a) (Listed trigStack base K k)
      (Exits (Listed trigStack base K k) (Raised trigStack base 0)) := by
  intro s hs
  obtain ⟨m, hs, hK⟩ := hs
  have hlist : ∀ s : Vm D, At base [(K : CInt)] (if trigStack then m else m + 1) s →
      Listed trigStack base K k s := by
    refine fun s hs => ⟨_, hs, fun ht => ?_⟩
    have := hK ht
    simp [ht]
    omega
  refine (triple_row hb ha r K m).imp (fun _ hs => hs) hlist (fun e s hs => ?_) s hs
  cases e with
  | cont => exact hlist s hs
  | ignore => exact hs
  | halt => trivial
  | stuck => exact hs

theorem Delete.triple_loop {q : Delete D} (hb : Levels b) (ha : Levels a) :
    Triple (Scanned trigStack base m) (listLoop (q.row trigStack b a))
      (fun s => ∃ K, Listed trigStack base K 0 s) (Exits C (Raised trigStack base 0)) := by
  intro s hs
  obtain ⟨K, hs, hK⟩ := hs
  have hloop : Triple (Listed trigStack base K s.pList.length)
      (listLoopFrom (q.row trigStack b a) s.pList) (fun s => ∃ K, Listed trigStack base K 0 s)
      (Exits C (Raised trigStack base 0)) := by
    refine triple_listLoopFrom (R := fun rs => Listed trigStack base K rs.length) ?_
      (fun r rs => triple_round hb ha r K rs.length) ?_ s.pList
    · intro r rs s hs
      obtain ⟨m, hs, hK⟩ := hs
      exact ⟨m, hs.listRead r rs, hK⟩
    · intro s hs
      obtain ⟨m, hs, hK⟩ := hs
      exact ⟨K, m, hs.pList [], hK⟩
  exact hloop s ⟨m, hs, hK⟩

theorem Delete.triple_change {q : Delete D} (hb : Levels b) (ha : Levels a) (hm : trigStack = false → m = 0) :
    Triple (fun s => Front trigStack base m s ∧ (trigStack = false → s.pList = []))
      (q.change true trigStack b a)
      (fun s => ∃ base', (trigStack = true → base' = base) ∧ ∃ K, Listed trigStack base' K 0 s)
      (Exits C (Raised trigStack base 0)) := by
  have hview : Triple (fun s => Front trigStack base m s ∧ (trigStack = false → s.pList = []))
      (onlyIf q.view_p (part trigStack trigStack q.view))
      (fun s => Front trigStack base m s ∧ (trigStack = false → s.pList = []))
      (Exits C (Raised trigStack base 0)) := by
    refine triple_onlyIf (fun _ => ?_) fun _ _ hs => hs
    have hl : Keeps (fun s t : Vm D => t.pList = s.pList) (part trigStack trigStack q.view) :=
      part_pList q.view
    exact ((triple_frontPart (C := C) q.view).and (hl.triple fun s t hst hs ht => hst.trans (hs ht))).imp
      (fun _ hs => hs) (fun _ hs => hs) fun _ _ hs => hs.1
  have hzero : ∀ base, Triple (fun s => At base [] m s ∧ (trigStack = false → s.pList = []))
      (onlyIf true (integer 0))
      (fun s : Vm D => At base [((0 : Nat) : CInt)] m s ∧ (trigStack = false → s.pList = []))
      (Exits C (Raised trigStack base 0)) := by
    intro base s hs
    exact ⟨triple_push (J := fun _ _ => True) [0] s hs.1, hs.2⟩
  have hrows : ∀ base, Triple
      (fun s => At base [((0 : Nat) : CInt)] m s ∧ (trigStack = false → s.pList = []))
      (if !q.where_ && !q.row_triggers_exist then q.deleteAll true trigStack
        else block [scanLoop trigStack true q.scan (onlyIf true (addImm 1)), listLoop (q.row trigStack b a)])
      (fun s => ∃ K, Listed trigStack base K 0 s) (Exits C (Raised trigStack base 0)) := by
    intro base
    split
    · rename_i h
      have hv : q.view_p = false := by
        have := q.triggers
        grind
      exact (triple_deleteAll hv hm).imp (fun _ hs => hs.1) (fun _ hs => hs) fun _ _ hs => hs
    · refine (triple_scan.cons ((triple_loop hb ha).cons (triple_nil fun _ hs => hs))).imp
        (fun s hs => ⟨0, hs.1, fun ht => ?_⟩) (fun _ hs => hs) fun _ _ hs => hs
      rw [hm ht, hs.2 ht, List.length_nil]
  exact hview.cons <| triple_rebase fun base =>
    (hzero base).cons ((hrows base).cons (triple_nil fun _ hs => hs))

/-! ### INSERT -/

theorem Source.triple_front (src : Source D) : Triple (At base [] m) (src.front trigStack) (At base [] m)
    (Exits C (Raised trigStack base 0)) := by
  rcases src with _ | ⟨_ | _, rows, run⟩
  · exact triple_skip fun _ hs => hs
  · exact triple_skip fun _ hs => hs
  · exact triple_part run le_rfl

theorem Source.triple_rear (src : Source D) : Triple (At base [] m) (src.rear trigStack) (At base [] m)
    (Exits C (Raised trigStack base 0)) := by
  rcases src with _ | ⟨_ | _, rows, run⟩
  · exact triple_skip fun _ hs => hs
  · exact triple_part run le_rfl
  · exact triple_skip fun _ hs => hs

theorem Insert.triple_row {q : Insert D} (hb : Levels b) (ha : Levels a) (cnt : Nat) (row : List CInt) :
    Triple (AtSome base fun _ => []) (q.row true trigStack cnt b a row) (AtSome base fun _ => [])
      fun e s => if e.goesOn then AtSome base (fun _ => []) s else Exits C (Raised trigStack base 0) e s := by
  generalize hvs : q.source.pushed row = vs
  have hpush : Triple (AtSome base fun _ => []) (push (D := D) vs) (AtSome base fun _ => vs)
      (Exits (AtSome base fun _ => vs) (Raised trigStack base 0)) :=
    triple_some fun m => (triple_push vs).imp (fun _ hs => hs) (fun s hs => ⟨m, by simpa using hs⟩)
      fun _ _ hs => hs
  have hnew : Triple (AtSome base fun _ => vs)
      (onlyIf q.before_triggers_p (block [part trigStack true (q.newRow · row), b])) (AtSome base fun _ => vs)
      (Exits (AtSome base fun _ => vs) (Raised trigStack base 0)) := by
    refine triple_onlyIf (fun _ => Triple.cons (triple_some fun m => ?_)
      (hb.triple_some.cons (triple_nil fun _ hs => hs))) fun _ _ hs => hs
    exact (triple_part _ (Nat.zero_le _)).imp (fun _ hs => hs) (fun s hs => ⟨m, hs⟩) fun _ _ hs => hs
  have hstore : Triple (AtSome base fun _ => vs)
      (onlyIf (!q.view_p) (CountRows.store trigStack (q.store · row) [])) (AtSome base fun _ => vs)
      (Exits (AtSome base fun _ => vs) (Raised trigStack base 0)) := by
    refine triple_onlyIf (fun _ => triple_some fun m => ?_) fun _ _ hs => hs
    exact (triple_store _ _ (Nat.zero_le _) fun s hs => ⟨m, hs⟩).imp (fun _ hs => hs) (fun s hs => ⟨m, hs⟩)
      fun _ _ hs => hs
  have hrows : Triple (AtSome base fun _ => vs) (noteRows (D := D) trigStack 1) (AtSome base fun _ => vs)
      (Exits (AtSome base fun _ => vs) (Raised trigStack base 0)) :=
    triple_some fun m => (triple_noteRows 1).imp (fun _ hs => hs) (fun s hs => ⟨_, hs⟩) fun _ _ hs => hs
  have hincr : Triple (AtSome base fun _ => vs) (onlyIf true (memIncr (D := D) cnt)) (AtSome base fun _ => vs)
      (Exits (AtSome base fun _ => vs) (Raised trigStack base 0)) :=
    triple_some fun m s hs => ⟨m, hs.below, hs.depth, hs.still⟩
  have hpop : Triple (AtSome base fun _ => vs) (pop (D := D) vs.length) (AtSome base fun _ => [])
      fun e s => if e.goesOn then AtSome base (fun _ => []) s
        else Exits C (Raised trigStack base 0) e s := by
    refine triple_some fun m => ?_
    exact Triple.imp (P := At base (vs ++ []) m) triple_pop (fun _ hs => by rwa [List.append_nil])
      (fun s hs => ⟨m, hs⟩) fun _ _ hs => hs
  rw [Insert.row, hvs]
  refine Triple.land ((hpush.cons <| hnew.cons <| hstore.cons <| hrows.cons <| hincr.cons <|
    (triple_onlyIf (fun _ => ha.triple_some) fun _ _ hs => hs).cons (triple_nil fun _ hs => hs)).imp
    (fun _ hs => hs) (fun _ hs => hs) fun e s hs => ?_) hpop
  cases e with
  | cont => exact hs
  | ignore => exact hs
  | halt => trivial
  | stuck => exact hs

theorem Insert.triple_change {q : Insert D} (hb : Levels b) (ha : Levels a) (cnt : Nat) :
    Triple (At base [] m) (q.change true trigStack cnt b a) (AtSome base fun _ => [])
      (Exits C (Raised trigStack base 0)) := by
  have hinit : Triple (At base [] m) (onlyIf true (block [integer 0, memStore (D := D) cnt]))
      (AtSome base fun _ => []) (Exits C (Raised trigStack base 0)) :=
    fun s hs => ⟨m, hs.below, hs.depth, hs.still⟩
  have hloop : Triple (AtSome base fun _ => [])
      (fun s => each Exit.goesOn (q.row true trigStack cnt b a) (q.source.rows s.data) s)
      (AtSome base fun _ => []) (Exits C (Raised trigStack base 0)) :=
    fun s hs => triple_each (triple_row hb ha cnt) _ s hs
  have hrear : Triple (AtSome base fun _ => []) (q.source.rear trigStack) (AtSome base fun _ => [])
      (Exits C (Raised trigStack base 0)) :=
    triple_some fun m => q.source.triple_rear.imp (fun _ hs => hs) (fun s hs => ⟨m, hs⟩) fun _ _ hs => hs
  exact q.source.triple_front.cons <| hinit.cons <| hloop.cons <| hrear.cons (triple_nil fun _ hs => hs)

/-! ### Trigger programs -/

/-- Code of a trigger program: it leaves the stack as it is, and may jump from above. -/
def Climbs (c : VmCode D) : Prop :=
  ∀ base xs m, Triple (At base xs m) c (At base xs m) (Exits (fun _ => False) (Raised true base xs.length))

/-- It is enough to look at what the code itself puts on the stack. -/
theorem climbs_of (hk : Keeps (Frame true n) c)
    (h : ∀ base m, Triple (At base [] m) c (AtSome base fun _ => [])
      (Exits (fun _ => False) (Raised true base 0))) : Climbs c := by
  intro base xs m s hs
  have hc := h s.stack s.changed s ⟨List.suffix_rfl, le_rfl, fun _ => ⟨rfl, rfl⟩⟩
  cases he : (c s).1 with
  | none =>
    rw [he] at hc
    obtain ⟨k, hk'⟩ := hc
    refine ⟨hs.below.trans hk'.below, hs.depth.trans hk'.below.length_le, fun ht => ?_⟩
    obtain ⟨hst, hm⟩ := hs.still (by simpa [ht] using (hk s).taken)
    exact ⟨(hk'.still ht).1.trans hst, ((hk s).changed rfl).trans hm⟩
  | some e =>
    rw [he] at hc
    cases e with
    | cont => exact hc
    | ignore => exact ⟨rfl, hs.below.trans hc.2.1, hs.depth.trans hc.2.1.length_le⟩
    | halt => trivial
    | stuck => exact hc

theorem levels_ignoreJump (hk : Keeps (Frame true n) c) (h : Climbs c) : Levels (ignoreJump c) := by
  intro base xs m s hs
  have hc := h base xs m s hs
  have hf := hk s
  rw [ignoreJump]
  split
  · rename_i s' he
    rw [he] at hc hf
    obtain ⟨-, hbelow, hdepth⟩ := hc
    show At base xs m (if s'.stack = s.stack then s' else s'.log .left)
    split
    · rename_i hst
      refine ⟨hbelow, hdepth, fun ht => ?_⟩
      obtain ⟨hst', hm⟩ := hs.still (by simpa [ht] using hf.taken)
      exact ⟨hst.trans hst', (hf.changed rfl).trans hm⟩
    · exact ⟨hbelow, hdepth, fun ht => by simp [Vm.log] at ht⟩
  · rename_i r hr
    cases he : (c s).1 with
    | none =>
      rw [he] at hc
      exact hc
    | some e =>
      rw [he] at hc
      cases e with
      | cont => exact hc.elim
      | ignore => exact (hr _ (Prod.ext he rfl)).elim
      | halt => trivial
      | stuck => exact hc

theorem triple_callback_nested : Triple (At (D := D) base [v] m) (callback true) (AtSome base fun _ => []) J :=
  triple_withTop fun _ _ hs => ⟨m, hs.1.below, hs.1.depth, fun ht => by cases ht⟩

theorem climbs_part (run : D → Ran D) : Climbs (part true true run) := fun _ _ _ => triple_part run le_rfl

theorem climbs_saved (hk : Keeps (Frame true n) c) (h : Climbs c) :
    Climbs (block [listPush, c, listPop]) := by
  intro base xs m s hs
  have hc := h base xs m s.pushed ⟨hs.below, hs.depth, hs.still⟩
  have hf := (hk s.pushed).saved
  rw [saved_eq, land]
  split
  · rename_i t he
    rw [he] at hc hf
    have ht : At base xs m t := hc
    rw [listPop]
    split
    · rename_i hk'
      simp [Vm.pushed, hk'] at hf
    · exact ⟨ht.below, ht.depth, ht.still⟩
  · rename_i e t he
    rw [he] at hc
    exact hc

end

mutual

theorem Stmt.climbs_code : ∀ (q : Stmt D) (nMem : Nat), Climbs (q.code true true nMem)
  | .insert q before after, nMem => by
    have hb := levels_ignoreJump (keeps_codeRowTrigger before (nMem + 1)) (climbs_codeRowTrigger before (nMem + 1))
    have ha := levels_ignoreJump (keeps_codeRowTrigger after _)
      (climbs_codeRowTrigger after (nMem + 1 + triggersCells before))
    refine climbs_of ((Stmt.insert q before after).keeps_code nMem) fun base m => ?_
    rw [Stmt.code]
    refine (q.triple_change hb ha nMem).cons (Triple.cons (fun s hs => ?_) (triple_nil fun _ hs => hs))
    obtain ⟨m, hs⟩ := hs
    exact ⟨m, hs.below, hs.depth, fun ht => by cases ht⟩
  | .update q before after, nMem => by
    have hb := levels_ignoreJump (keeps_codeRowTrigger before nMem) (climbs_codeRowTrigger before nMem)
    have ha := levels_ignoreJump (keeps_codeRowTrigger after _)
      (climbs_codeRowTrigger after (nMem + triggersCells before))
    refine climbs_of ((Stmt.update q before after).keeps_code nMem) fun base m => ?_
    have hchange : Triple (Front true base m) (q.change true true _ _) _
      (Exits (fun _ => False) _) := q.triple_change hb ha nofun
    rw [Stmt.code]
    refine hchange.cons (Triple.cons (triple_skip fun s hs => ?_) (triple_nil fun _ hs => hs))
    obtain ⟨base', hbase, hs⟩ := hs
    obtain rfl := hbase rfl
    exact hs
  | .deleteFrom q before after, nMem => by
    have hb := levels_ignoreJump (keeps_codeRowTrigger before nMem) (climbs_codeRowTrigger before nMem)
    have ha := levels_ignoreJump (keeps_codeRowTrigger after _)
      (climbs_codeRowTrigger after (nMem + triggersCells before))
    refine climbs_of ((Stmt.deleteFrom q before after).keeps_code nMem) fun base m => ?_
    have hchange : Triple (fun s => Front true base m s ∧ (true = false → s.pList = []))
      (q.change true true _ _) _ (Exits (fun _ => False) _) := q.triple_change hb ha nofun
    rw [Stmt.code]
    refine (hchange.imp (fun s hs => ⟨hs, nofun⟩) (fun _ hs => hs) fun _ _ hs => hs).cons
      (Triple.cons (fun s hs => ?_) (triple_nil fun _ hs => hs))
    obtain ⟨base', hbase, K, m, hs, -⟩ := hs
    obtain rfl := hbase rfl
    exact triple_callback_nested s hs

theorem climbs_codeRowTrigger : ∀ (ts : List (Trigger D)) (nMem : Nat),
    Climbs (codeRowTrigger true nMem ts)
  | [], _ => by
    rw [codeRowTrigger]
    exact fun _ _ _ => triple_skip fun _ hs => hs
  | t :: ts, nMem => by
    rw [codeRowTrigger]
    exact fun base xs m => (t.climbs_code nMem base xs m).cons
      ((climbs_codeRowTrigger ts _ base xs m).cons (triple_nil fun _ hs => hs))

theorem Trigger.climbs_code : ∀ (t : Trigger D) (nMem : Nat), Climbs (t.code true nMem)
  | .mk pWhen fires step_list, nMem => by
    intro base xs m s hs
    rw [Trigger.code]
    exact (climbs_part pWhen base xs m).cons (Triple.cons (triple_onlyIf
      (fun _ => climbs_codeTriggerProgram step_list nMem base xs m) fun _ _ hs => hs)
      (triple_nil fun _ hs => hs)) s hs

theorem climbs_codeTriggerProgram : ∀ (ts : List (Step D)) (nMem : Nat),
    Climbs (codeTriggerProgram true nMem ts)
  | [], _ => by
    rw [codeTriggerProgram]
    exact fun _ _ _ => triple_skip fun _ hs => hs
  | t :: ts, nMem => by
    rw [codeTriggerProgram]
    exact fun base xs m => (t.climbs_code nMem base xs m).cons
      ((climbs_codeTriggerProgram ts _ base xs m).cons (triple_nil fun _ hs => hs))

theorem Step.climbs_code : ∀ (t : Step D) (nMem : Nat), Climbs (t.code true nMem)
  | .select run, _ => by
    rw [Step.code]
    exact climbs_part run
  | .stmt q, nMem => by
    have h := q.climbs_code nMem
    have hl := climbs_saved (q.keeps_code nMem) h
    rw [Step.code]
    cases q with
    | insert _ _ _ => exact h
    | update _ _ _ => exact hl
    | deleteFrom _ _ _ => exact hl

end

end Dbsql.L5.CountRows
