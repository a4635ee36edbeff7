import Mathlib.Data.List.ReduceOption
import Dbsql.L5Codegen.WhereCode
/-!
# The stack in the loops of a WHERE clause

Each path through the code counts, whatever the data are. Cases 1, 3 and 4 keep the stack in order, and
case 2 does when a term is found for each column and the entries of the index can be read. In case 5 the
values of the fixed columns are on the stack twice, and where a key is NULL, or a search comes to
nothing, only one copy is taken off before the jump out of the loop.

Results:
* `Begun.keepsDepth_iff`: all paths come to the labels of a loop at the depth that it was entered with,
  exactly when no loop goes over a range of an index behind fixed columns, terms are found for what
  the score counts on, and no entry that is compared is unreadable.
* `whereBegin_keeps_iff`: the same, by the plan and the terms that are left in each round.
-/
namespace Dbsql.L5.WhereCode
open Dbsql.Core Dbsql.Core.Depth Dbsql.L1 Dbsql.L5.Tree Dbsql.L5.Where

/-! ## What it is to do -/

/-- All paths from where a loop is entered come to its labels `cont` and `brk` at the same depth. -/
def KeepsDepth (readable : Bool) (code : Code) : Prop :=
  ∀ i spot, spot = Spot.cont ∨ spot = Spot.brk → ∀ p m d d', code[p]? = some (.label (lab i .enter)) →
    code[m]? = some (.label (lab i spot)) → Reaches (effects readable) code (p, d) (m, d') → d' = d

/-! ## When it does -/

/-- A loop does not reach the defects. -/
def Scan.Balanced (readable : Bool) : Scan → Prop
  | .rowidEq _ | .rowidRange _ _ | .full => True
  | .indexEq eq _ _ => (∀ s ∈ eq.cols, s.isSome = true) ∧ readable = true
  | .indexRange eqs lt gt bRev _ =>
    eqs = [] ∧ lt ≠ some none ∧ gt ≠ some none ∧ ((if bRev then gt else lt).isSome = true → readable = true)

/-! ## Depths that fit -/

/-- The depth at the target of `inOp`, where the source pushes the next element before it jumps. -/
def Source.inDepth : Source → Int
  | .inList _ => 1
  | .expr _ | .inSelect _ => 0

/-- The depths at the labels of a level. -/
def Scan.spotDepth (scan : Scan) : Spot → Int
  | .inTop =>
    match scan with
    | .rowidEq src => src.inDepth
    | .indexEq eq _ _ =>
      match eq.cols with
      | [some src] => src.inDepth
      | _ => 0
    | _ => 0
  | .behind _ =>
    match scan with
    | .indexEq eq _ _ => eq.cols.length
    | _ => 1
  | _ => 0

section
variable {readable : Bool} {env : Lab → Int} {i : Nat} {keep : Bool} {l : Loop} {d : Int}

theorem flow_source {src : Source} (hbrk : env (lab i .brk) = 0) (htop : env (lab i .inTop) = src.inDepth) :
    Depth.Flow (effects readable) env (some 0) (sourceCode i src) (some 1) := by
  cases src with
  | expr e => simp [sourceCode, Depth.Flow, effects, falls, jumps]
  | inList t => simp [sourceCode, Depth.Flow, effects, falls, jumps, hbrk, htop, Source.inDepth]
  | inSelect t => simp [sourceCode, Depth.Flow, effects, falls, jumps, hbrk, htop, Source.inDepth]

theorem flow_exprs {cols : List (Option Source)} (h : ∀ s ∈ cols, ∃ e, s = some (.expr e)) :
    Depth.Flow (effects readable) env (some d) (colsCode i cols) (some (d + cols.length)) := by
  induction cols generalizing d with
  | nil => exact congrArg some (Int.add_zero d).symm
  | cons s cols ih =>
    obtain ⟨e, rfl⟩ := h s List.mem_cons_self
    have hrest := ih (d := d + 1) fun s hs => h s (List.mem_cons_of_mem _ hs)
    rw [List.length_cons, Nat.cast_succ, Int.add_comm (cols.length : Int) 1, ← Int.add_assoc]
    exact Depth.Flow.op rfl (fun _ h => nomatch h) hrest

/-- The columns of case 2 that were all found: expressions, or one IN. -/
theorem EqCols.found (eq : EqCols) (h : ∀ s ∈ eq.cols, s.isSome = true) :
    (∀ s ∈ eq.cols, ∃ e, s = some (.expr e)) ∨ ∃ src, src.isIn = true ∧ eq.cols = [some src] := by
  by_cases hin : ∃ src, some src ∈ eq.cols ∧ src.isIn = true
  · obtain ⟨src, hmem, hsrc⟩ := hin
    obtain ⟨s, hs⟩ := List.length_eq_one_iff.1 (eq.inAlone src hmem hsrc)
    rw [hs, List.mem_singleton] at hmem
    exact .inr ⟨src, hsrc, hmem ▸ hs⟩
  · refine .inl fun s hs => ?_
    obtain ⟨src, rfl⟩ := Option.isSome_iff_exists.1 (h s hs)
    cases src with
    | expr e => exact ⟨e, rfl⟩
    | inList t | inSelect t => exact absurd ⟨_, hs, rfl⟩ hin

theorem flow_key {k col : Nat} (hbrk : env (lab i .brk) = 0) (hbehind : env (lab i (.behind k)) = col) :
    Depth.Flow (effects readable) env (some col) (keyCode i k col) (some 1) := by
  have hnull : Depth.Flow (effects readable) env (some col) (keyCode i k col) (some 1) ↔
      Depth.Flow (effects readable) env (some 0) [.op (.goto (lab i .brk)), .label (lab i (.behind k)), .op (.makeKey col)]
        (some 1) := by
    simp [keyCode, Depth.Flow, effects, falls, jumps, hbrk, hbehind]
  rw [hnull]
  refine Depth.Flow.goto rfl (by simp [effects, jumps, hbrk]) (Depth.Flow.land ?_)
  simp [Depth.Flow, effects, falls, jumps, hbehind]

theorem flow_row (hcont : env (lab i .cont) = 0) (col : Nat) :
    Depth.Flow (effects readable) env (some 0) (rowCode i keep l col) (some (if keep then 1 else 0)) := by
  cases keep <;> simp [rowCode, Depth.Flow, effects, falls, jumps, hcont]

theorem flow_tests (hcont : env (lab i .cont) = 0) (hasKey : Bool) (tests : List Node) :
    Depth.Flow (effects readable) env (some (if hasKey then 1 else 0)) (testsCode i l hasKey tests)
      (some (if hasKey && tests.isEmpty then 1 else 0)) := by
  have hrest : ∀ tests : List Node, Depth.Flow (effects readable) env (some 0)
      (tests.map fun e => .op (.test e (lab i .cont))) (some 0) := by
    intro tests
    induction tests with
    | nil => exact rfl
    | cons e tests ih => exact Depth.Flow.op rfl (by simp [effects, jumps, hcont]) ih
  cases tests with
  | nil => cases hasKey <;> exact rfl
  | cons e tests =>
    cases hasKey with
    | false => exact hrest (e :: tests)
    | true => exact Depth.Flow.op rfl (fun _ h => nomatch h) (hrest (e :: tests))

/-- A bound that was found, or that the score does not count on. -/
theorem flow_endKey {lt : Option (Option Bound)} (hlt : lt ≠ some none) (hbrk : env (lab i .brk) = 0)
    (hbehind : env (lab i (.behind 0)) = 1) (bRev junk : Bool) :
    Depth.Flow (effects readable) env (some 0) (endKeyCode i l 0 lt bRev junk) (some 0) := by
  match lt, hlt with
  | none, _ => cases bRev <;> simp [endKeyCode, boundCode, Depth.Flow, effects, falls, jumps, hbrk]
  | some (some b), _ =>
    have hkey : Depth.Flow (effects readable) env (some 1) (keyCode i 0 1) (some 1) := flow_key hbrk hbehind
    have hrest : Depth.Flow (effects readable) env (some 1) ((if b.equal then [.op .incrKey] else []) ++
        [.op (if bRev then .moveLt l.iCur (lab i .brk) else .memStore l.iMem true)]) (some 0) := by
      cases b.equal <;> cases bRev <;> simp [Depth.Flow, effects, falls, jumps, hbrk]
    have hcode : endKeyCode i l 0 (some (some b)) bRev junk = [.op (.expr b.e)] ++ (keyCode i 0 1 ++
        ((if b.equal then [.op .incrKey] else []) ++
          [.op (if bRev then .moveLt l.iCur (lab i .brk) else .memStore l.iMem true)])) := rfl
    rw [hcode]
    exact Depth.Flow.op rfl (fun _ h => nomatch h) (hkey.append hrest)

theorem flow_startKey {lt gt : Option (Option Bound)} (hgt : gt ≠ some none) (hbrk : env (lab i .brk) = 0)
    (hbehind : env (lab i (.behind 1)) = 1) (bRev junk : Bool) :
    Depth.Flow (effects readable) env (some 0) (startKeyCode i l 0 lt gt bRev junk) (some 0) := by
  match gt, hgt with
  | none, _ => cases bRev <;> simp [startKeyCode, boundCode, Depth.Flow, effects, falls, jumps, hbrk]
  | some (some b), _ =>
    have hkey : Depth.Flow (effects readable) env (some 1) (keyCode i 1 1) (some 1) := flow_key hbrk hbehind
    have hrest : ∀ cell, Depth.Flow (effects readable) env (some 1) ((if b.equal then [] else [.op .incrKey]) ++
        [.op (if bRev then .memStore cell true else .moveTo l.iCur (some (lab i .brk)))]) (some 0) := by
      intro cell
      cases b.equal <;> cases bRev <;> simp [Depth.Flow, effects, falls, jumps, hbrk]
    have hcode : ∃ cell, startKeyCode i l 0 lt (some (some b)) bRev junk = [.op (.expr b.e)] ++ (keyCode i 1 1 ++
        ((if b.equal then [] else [.op .incrKey]) ++
          [.op (if bRev then .memStore cell true else .moveTo l.iCur (some (lab i .brk)))])) := ⟨_, rfl⟩
    obtain ⟨cell, hcode⟩ := hcode
    rw [hcode]
    exact Depth.Flow.op rfl (fun _ h => nomatch h) (hkey.append (hrest cell))

theorem flow_rangeTest {lt gt : Option (Option Bound)} {bRev : Bool} (hbrk : env (lab i .brk) = 0)
    (hread : (if bRev then gt else lt).isSome = true → readable = true) :
    Depth.Flow (effects readable) env (some 0) (rangeTest i l 0 lt gt bRev) (some 0) := by
  have htest : ∀ cell, ∀ o ∈ [Op.idxLT l.iCur (lab i .brk), .idxGE l.iCur (lab i .brk)], readable = true →
      Depth.Flow (effects readable) env (some 0) [.op (.memLoad cell), .op o] (some 0) := by
    rintro cell o ho rfl
    simp only [List.mem_cons, List.not_mem_nil, or_false] at ho
    rcases ho with rfl | rfl <;> simp [Depth.Flow, effects, falls, idxFalls, jumps, hbrk]
  unfold rangeTest
  cases bRev with
  | false =>
    cases hlt : lt.isSome with
    | false => exact rfl
    | true => exact htest _ _ (by simp) (hread hlt)
  | true =>
    cases hgt : gt.isSome with
    | false => exact rfl
    | true => exact htest _ _ (by simp) (hread hgt)

/-- The case of a loop that does not reach the defects. -/
theorem flow_scan (henv : ∀ spot, env (lab i spot) = l.scan.spotDepth spot) (hb : l.scan.Balanced readable) :
    Depth.Flow (effects readable) env (some 0) (scanCode i keep l) (some (if keyLeft keep l then 1 else 0)) := by
  have hbrk : env (lab i .brk) = 0 := henv .brk
  have hcont : env (lab i .cont) = 0 := henv .cont
  have hstart : env (lab i .start) = 0 := henv .start
  have htop := henv .inTop
  have hbehind := fun k => henv (.behind k)
  unfold scanCode keyLeft
  cases hscan : l.scan with
  | rowidEq src =>
    rw [hscan] at htop
    exact (flow_source hbrk htop).append (by simp [Depth.Flow, effects, falls, jumps, hbrk])
  | indexEq eq whole bRev =>
    rw [hscan] at htop hbehind hb
    obtain ⟨hfound, rfl⟩ := hb
    have hcols : Depth.Flow (effects true) env (some 0) (colsCode i eq.cols) (some (eq.cols.length : Int)) := by
      rcases eq.found hfound with hexprs | ⟨src, -, hsrc⟩
      · rw [← Int.zero_add (eq.cols.length : Int)]
        exact flow_exprs hexprs
      · have htop' : env (lab i .inTop) = src.inDepth := by
          rw [htop, Scan.spotDepth]
          simp only [hsrc]
        have hcode : colsCode i eq.cols = sourceCode i src := by
          rw [hsrc]
          exact List.append_nil _
        rw [hcode, hsrc]
        exact flow_source hbrk htop'
    have hstore : Depth.Flow (effects true) env (some 1) (if whole || bRev then [.op (.memStore l.iMem false)]
        else [.op (.dup 0), .op .incrKey, .op (.memStore l.iMem true)]) (some 1) := by
      cases whole <;> cases bRev <;> simp [Depth.Flow, effects, falls, jumps]
    have hmove : Depth.Flow (effects true) env (some 1)
        (if bRev then [.op .incrKey, .op (.moveLt l.iCur (lab i .brk)), .label (lab i .start), .op (.memLoad l.iMem),
            .op (.idxLT l.iCur (lab i .brk))]
          else [.op (.moveTo l.iCur (some (lab i .brk))), .label (lab i .start), .op (.memLoad l.iMem),
            .op (if whole then .idxGT l.iCur (lab i .brk) else .idxGE l.iCur (lab i .brk))]) (some 0) := by
      cases whole <;> cases bRev <;> simp [Depth.Flow, effects, falls, idxFalls, jumps, hbrk, hstart]
    exact (((hcols.append (flow_key hbrk (hbehind 0))).append hstore).append hmove).append (flow_row hcont _)
  | rowidRange gt lt =>
    cases gt <;> cases lt <;> simp [rowidRangeCode, Depth.Flow, effects, falls, jumps, hbrk, hstart]
  | full => simp [fullCode, Depth.Flow, effects, falls, jumps, hbrk, hstart]
  | indexRange eqs lt gt bRev junk =>
    rw [hscan] at hb hbehind
    obtain ⟨rfl, hlt, hgt, hread⟩ := hb
    have hend : Depth.Flow (effects readable) env (some 0) (endKeyCode i l 0 lt bRev junk) (some 0) :=
      flow_endKey hlt hbrk (hbehind 0) bRev junk
    have hstartKey : Depth.Flow (effects readable) env (some 0) (startKeyCode i l 0 lt gt bRev junk) (some 0) :=
      flow_startKey hgt hbrk (hbehind 1) bRev junk
    have hlabel : Depth.Flow (effects readable) env (some 0) [.label (lab i .start)] (some 0) := Depth.Flow.label hstart.symm rfl
    exact (((hend.append hstartKey).append hlabel).append (flow_rangeTest hbrk hread)).append (flow_row hcont _)

theorem flow_head (henv : ∀ spot, env (lab i spot) = l.scan.spotDepth spot) (hb : l.scan.Balanced readable)
    (halone : keep = true → l.leftJoin = none) :
    Depth.Flow (effects readable) env (some 0) (headCode i keep l) (some (if haveKey keep l then 1 else 0)) := by
  have hcont : env (lab i .cont) = 0 := henv .cont
  have htop : env (lab i .top) = 0 := henv .top
  have henter : Depth.Flow (effects readable) env (some 0) [.label (lab i .enter)] (some 0) :=
    Depth.Flow.label (henv .enter).symm rfl
  have htests : Depth.Flow (effects readable) env (some (if keyLeft keep l then 1 else 0))
      (testsCode i l (keyLeft keep l) l.tests) (some (if keyLeft keep l && l.tests.isEmpty then 1 else 0)) :=
    flow_tests hcont (keyLeft keep l) l.tests
  have hscan : Depth.Flow (effects readable) env (some 0) (scanCode i keep l) (some (if keyLeft keep l then 1 else 0)) :=
    flow_scan henv hb
  unfold headCode haveKey
  cases hjoin : l.leftJoin with
  | none =>
    have hempty : Depth.Flow (effects readable) env (some 0) [] (some 0) := rfl
    have hend : Depth.Flow (effects readable) env (some (if keyLeft keep l && l.tests.isEmpty then 1 else 0)) []
        (some (if keyLeft keep l && l.tests.isEmpty && (Option.isNone (none : Option Nat) || l.late.isEmpty) then 1 else 0)) := by
      rw [Option.isNone_none, Bool.true_or, Bool.and_true]
      exact rfl
    exact (((henter.append hempty).append hscan).append htests).append hend
  | some cell =>
    have hkeep : keyLeft keep l = false := by
      cases hk : keep with
      | false => cases hs : l.scan <;> simp [keyLeft, hs]
      | true =>
        rw [halone hk] at hjoin
        cases hjoin
    have hmem : Depth.Flow (effects readable) env (some 0) [.op .string, .op (.memStore cell true)] (some 0) := by
      simp [Depth.Flow, effects, falls, jumps]
    have hrecord : Depth.Flow (effects readable) env (some 0) [.label (lab i .top), .op .integer, .op (.memStore cell true)]
        (some 0) := by
      simp [Depth.Flow, effects, falls, jumps, htop]
    have hlate : Depth.Flow (effects readable) env (some 0) (testsCode i l false l.late) (some 0) :=
      flow_tests hcont false l.late
    rw [hkeep] at htests hscan ⊢
    exact (((henter.append hmem).append hscan).append htests).append (hrecord.append hlate)

theorem flow_tail (henv : ∀ spot, env (lab i spot) = l.scan.spotDepth spot) (hb : l.scan.Balanced readable) :
    Depth.Flow (effects readable) env (some 0) (tailCode i l) (some 0) := by
  have hbrk : env (lab i .brk) = 0 := henv .brk
  have hcont : env (lab i .cont) = 0 := henv .cont
  have hstart : env (lab i .start) = 0 := henv .start
  have htop : env (lab i .top) = 0 := henv .top
  have hjoined : env (lab i .joined) = 0 := henv .joined
  have hop : Depth.Flow (effects readable) env (some 0) ((levelOp i l).map Item.op).toList (some 0) := by
    unfold levelOp
    cases l.scan <;> simp [Depth.Flow, effects, falls, jumps, hstart]
  have hsource : ∀ src, env (lab i .inTop) = src.inDepth →
      Depth.Flow (effects readable) env (some 0) ((inOp i src).map Item.op).toList (some 0) := by
    intro src hsrc
    cases src <;> simp [inOp, Depth.Flow, effects, falls, jumps, hsrc, Source.inDepth]
  have hin : Depth.Flow (effects readable) env (some 0) ((levelInOp i l).map Item.op).toList (some 0) := by
    have hspot := henv .inTop
    unfold levelInOp
    cases hscan : l.scan with
    | rowidEq src =>
      rw [hscan] at hspot
      exact hsource src hspot
    | indexEq eq whole bRev =>
      rw [hscan] at hspot hb
      rcases eq.found hb.1 with hexprs | ⟨src, -, hsrc⟩
      · have hnone : eq.cols.reduceOption.findSome? (inOp i) = none := by
          refine List.findSome?_eq_none_iff.2 fun src hsrc => ?_
          obtain ⟨e, he⟩ := hexprs _ (List.reduceOption_mem_iff.1 hsrc)
          cases he
          rfl
        simp only [hnone]
        exact rfl
      · have htop' : env (lab i .inTop) = src.inDepth := by
          rw [hspot, Scan.spotDepth]
          simp only [hsrc]
        have hone : eq.cols.reduceOption.findSome? (inOp i) = inOp i src := by
          rw [hsrc]
          cases h : inOp i src <;> simp [List.reduceOption, h]
        simp only [hone]
        exact hsource src htop'
    | rowidRange | full | indexRange => exact rfl
  have hlabel : ∀ {spot}, env (lab i spot) = 0 → Depth.Flow (effects readable) env (some 0) [.label (lab i spot)] (some 0) :=
    fun h => Depth.Flow.label h.symm rfl
  unfold tailCode
  refine ((((hlabel hcont).append hop).append (hlabel hbrk)).append hin).append ?_
  cases l.leftJoin with
  | none => exact rfl
  | some cell =>
    have hgoto : Depth.Flow (effects readable) env (some 0) [.op (.goto (lab i .top)), .label (lab i .joined)] (some 0) :=
      Depth.Flow.goto rfl (by simp [effects, jumps, htop]) (Depth.Flow.land (congrArg some hjoined))
    refine Depth.Flow.append (y := some 0) ?_ hgoto
    split <;> simp [Depth.Flow, effects, falls, jumps, hjoined]

/-- The loops. -/
theorem flow_loops {loops : List Loop} {pushKey hasKey : Bool} {first : Int}
    (hbreak : env .iBreak = 0) (houter : i ≠ 0 → env (lab (i - 1) .cont) = 0)
    (henv : ∀ k l, loops[k]? = some l → ∀ spot, env (lab (i + k) spot) = l.scan.spotDepth spot)
    (hb : ∀ l ∈ loops, l.scan.Balanced readable) (halone : pushKey = true → ∀ l ∈ loops, l.leftJoin = none)
    (hkey : hasKey = true → loops = [] ∧ pushKey = true) :
    Depth.Flow (effects readable) env (some (if hasKey then 1 else 0)) (loopsCode pushKey first i hasKey loops) (some 0) := by
  induction loops generalizing i hasKey with
  | nil =>
    have hrecno : Depth.Flow (effects readable) env (some (if hasKey then 1 else 0))
        (if pushKey && !hasKey then [.op (.recno first)] else []) (some (if pushKey then 1 else 0)) := by
      cases hp : pushKey with
      | true => cases hasKey <;> simp [Depth.Flow, effects, falls, jumps]
      | false =>
        cases hk : hasKey with
        | false => exact rfl
        | true => exact absurd (hp.symm.trans (hkey hk).2) Bool.false_ne_true
    refine hrecno.append ?_
    by_cases h0 : i = 0
    · rw [if_pos h0]
      cases pushKey <;> simp [Depth.Flow, effects, falls, jumps, hbreak]
    · rw [if_neg h0]
      cases pushKey <;> simp [Depth.Flow, effects, falls, jumps, hbreak, houter h0]
  | cons l rest ih =>
    have hzero : (if hasKey then (1 : Int) else 0) = 0 := by
      cases hk : hasKey with
      | false => rfl
      | true => cases (hkey hk).1
    have hl := henv 0 l rfl
    have hkeep : (pushKey && rest.isEmpty) = true → l.leftJoin = none := fun h =>
      halone (Bool.and_eq_true_iff.1 h).1 l List.mem_cons_self
    have hhead := flow_head hl (hb l List.mem_cons_self) hkeep
    have hnext : haveKey (pushKey && rest.isEmpty) l = true → rest = [] ∧ pushKey = true := by
      intro h
      have hk : (pushKey && rest.isEmpty) = true := by
        cases hk : pushKey && rest.isEmpty with
        | true => rfl
        | false =>
          rw [haveKey, keyLeft, hk] at h
          cases hs : l.scan <;> simp [hs] at h
      obtain ⟨hp, he⟩ := Bool.and_eq_true_iff.1 hk
      exact ⟨List.isEmpty_iff.1 he, hp⟩
    have hrest := @ih (i + 1) (haveKey (pushKey && rest.isEmpty) l) (fun _ => hl .cont)
      (fun k l' hk => by
        rw [Nat.add_assoc, Nat.add_comm 1]
        exact henv (k + 1) l' hk)
      (fun l' hl' => hb l' (List.mem_cons_of_mem _ hl')) (fun hp l' hl' => halone hp l' (List.mem_cons_of_mem _ hl')) hnext
    rw [hzero]
    exact (hhead.append hrest).append (flow_tail hl (hb l List.mem_cons_self))

end

/-! ## Paths that do not fit -/

/-- A term that the score counts on and that was not found. -/
def missing : Option (Option Bound) → Int
  | some none => 1
  | some (some _) | none => 0

theorem missing_nonneg (b : Option (Option Bound)) : 0 ≤ missing b := by
  unfold missing
  split <;> decide

section
variable {readable : Bool} {i : Nat} {keep : Bool} {l : Loop}

theorem thru_source (src : Source) : Thru (effects readable) (sourceCode i src) 1 := by
  cases src with
  | expr e => exact Thru.op rfl .nil rfl
  | inList t => exact Thru.op rfl (.label .nil) rfl
  | inSelect t => exact Thru.op rfl (Thru.op rfl (.label (Thru.op rfl .nil rfl)) rfl) rfl

/-- As many values as terms were found. -/
theorem thru_cols (cols : List (Option Source)) :
    Thru (effects readable) (colsCode i cols) (cols.reduceOption.length : Int) := by
  induction cols with
  | nil => exact .nil
  | cons s cols ih =>
    cases s with
    | none =>
      rw [List.reduceOption_cons_of_none]
      exact ih
    | some src =>
      rw [List.reduceOption_cons_of_some, List.length_cons, Nat.cast_succ, Int.add_comm]
      exact (thru_source src).append ih

theorem thru_dups (n k : Nat) : Thru (effects readable) (List.replicate n (.op (.dup k))) (n : Int) := by
  induction n with
  | zero => exact .nil
  | succ n ih =>
    rw [List.replicate_succ, Nat.cast_succ, Int.add_comm]
    exact Thru.op rfl ih rfl

/-- No value is NULL: the key is in their place. -/
theorem thru_key (k col : Nat) : Thru (effects readable) (keyCode i k col) (1 - col) := by
  have hmake : Thru (effects readable) [.op (.makeKey col)] (1 - (col : Int) + 0) := Thru.op rfl .nil rfl
  have hjump : (lab i (.behind k), (0 : Int)) ∈ (effects readable).jumps (.notNull (-(col : Int)) (lab i (.behind k))) := by
    simp [effects, jumps]
  have hskip : Thru (effects readable) (.op (.notNull (-(col : Int)) (lab i (.behind k))) ::
      ([.op (.pop col), .op (.goto (lab i .brk))] ++ .label (lab i (.behind k)) :: [.op (.makeKey col)]))
      (0 + (1 - (col : Int) + 0)) := .skip hjump hmake
  rwa [Int.zero_add, Int.add_zero] at hskip

/-- A value is NULL: as many values are taken off as the key has columns. -/
theorem exits_key (k col : Nat) : Depth.Exits (effects readable) (keyCode i k col) (lab i .brk) (-col) := by
  have hnull : Thru (effects readable) [.op (.notNull (-(col : Int)) (lab i (.behind k))), .op (.pop col)]
      (0 + (-(col : Int) + 0)) := by
    refine .fall ?_ (Thru.op rfl .nil rfl)
    simp [effects, falls]
  rw [Int.add_zero, Int.zero_add] at hnull
  have hgoto : Depth.Exits (effects readable) [.op (.goto (lab i .brk)), .label (lab i (.behind k)), .op (.makeKey col)]
      (lab i .brk) 0 := Depth.Exits.op (List.mem_singleton_self _)
  have hexit := Depth.Exits.after hnull hgoto
  rwa [Int.add_zero] at hexit

theorem thru_bound (b : Option (Option Bound)) :
    Thru (effects readable) (boundCode b) ((if b.isSome then 1 else 0) - missing b) := by
  match b with
  | none | some none => exact .nil
  | some (some b) => exact Thru.op rfl .nil rfl

/-- An entry that is not in the table of the record. -/
theorem exits_row (col : Nat) : Depth.Exits (effects readable) (rowCode i keep l col) (lab i .cont) 0 := by
  have hkey : Thru (effects readable) [.op (.rowKey l.iCur)] (1 + 0) := Thru.op rfl .nil rfl
  have hnull : Depth.Exits (effects readable) [.op (.idxIsNull col (lab i .cont)), .op (.idxRecno l.iCur)] (lab i .cont) (-1) :=
    Depth.Exits.op (List.mem_singleton_self _)
  exact (Depth.Exits.after hkey hnull).before _

/-- The code of a key of case 5: the bound, a key of it and of what is below it, and the opcode that takes
the key off. -/
theorem thru_boundKey (k n : Nat) (b : Option (Option Bound)) (incr : Bool) {last : Op} (hlast : falls readable last = [-1]) :
    Thru (effects readable) (boundCode b ++ (keyCode i k (n + if b.isSome then 1 else 0) ++
      (if incr then [.op .incrKey] else []) ++ [.op last])) (-missing b - n) := by
  have hincr : Thru (effects readable) (if incr then [.op .incrKey] else []) 0 := by
    cases incr with
    | false => exact .nil
    | true => exact Thru.op rfl .nil rfl
  have hend : Thru (effects readable) [.op last] (-1) := Thru.op hlast .nil rfl
  have hthru := (thru_bound b).append
    (((thru_key (i := i) k (n + if b.isSome then 1 else 0)).append hincr).append hend)
  convert hthru using 1
  push_cast
  omega

/-- One of the values is NULL. -/
theorem exits_boundKey (k n : Nat) (b : Option (Option Bound)) (rest : Code) :
    Depth.Exits (effects readable) (boundCode b ++ (keyCode i k (n + if b.isSome then 1 else 0) ++ rest)) (lab i .brk)
      (-missing b - n) := by
  have hbound : Thru (effects readable) (boundCode b) ((if b.isSome then 1 else 0) - missing b) := thru_bound b
  convert Depth.Exits.after hbound ((exits_key k (n + if b.isSome then 1 else 0)).before rest) using 1
  push_cast
  omega

theorem thru_endKey (n : Nat) (lt : Option (Option Bound)) (bRev junk : Bool) :
    Thru (effects readable) (endKeyCode i l n lt bRev junk) (-missing lt - n) := by
  unfold endKeyCode
  by_cases hkey : 0 < n ∨ lt.isSome = true
  · rw [if_pos hkey]
    exact thru_boundKey 0 n lt _ (by cases bRev <;> rfl)
  · rw [if_neg hkey]
    obtain ⟨hn, hlt⟩ := not_or.1 hkey
    obtain rfl : n = 0 := Nat.eq_zero_of_not_pos hn
    obtain rfl : lt = none := Option.not_isSome_iff_eq_none.1 hlt
    cases bRev with
    | false => exact .nil
    | true => exact Thru.op rfl .nil rfl

theorem exits_endKey {n : Nat} {lt : Option (Option Bound)} (h : 0 < n ∨ lt.isSome = true) (bRev junk : Bool) :
    Depth.Exits (effects readable) (endKeyCode i l n lt bRev junk) (lab i .brk) (-missing lt - n) := by
  unfold endKeyCode
  rw [if_pos h, List.append_assoc (keyCode ..)]
  exact exits_boundKey 0 n lt _

theorem thru_startKey (n : Nat) (lt gt : Option (Option Bound)) (bRev junk : Bool) :
    Thru (effects readable) (startKeyCode i l n lt gt bRev junk) (-missing gt - n) := by
  unfold startKeyCode
  by_cases hkey : 0 < n ∨ gt.isSome = true
  · have hincr : (if boundFlag junk gt then ([] : Code) else [.op .incrKey]) =
        if !boundFlag junk gt then [.op .incrKey] else [] := by
      cases boundFlag junk gt <;> rfl
    rw [if_pos hkey, hincr]
    exact thru_boundKey 1 n gt _ (by cases bRev <;> rfl)
  · rw [if_neg hkey]
    obtain ⟨hn, hgt⟩ := not_or.1 hkey
    obtain rfl : n = 0 := Nat.eq_zero_of_not_pos hn
    obtain rfl : gt = none := Option.not_isSome_iff_eq_none.1 hgt
    cases bRev with
    | false => exact Thru.op rfl .nil rfl
    | true => exact .nil

theorem exits_startKey {n : Nat} {gt : Option (Option Bound)} (h : 0 < n ∨ gt.isSome = true)
    (lt : Option (Option Bound)) (bRev junk : Bool) :
    Depth.Exits (effects readable) (startKeyCode i l n lt gt bRev junk) (lab i .brk) (-missing gt - n) := by
  unfold startKeyCode
  rw [if_pos h, List.append_assoc (keyCode ..)]
  exact exits_boundKey 1 n gt _

/-- The entry cannot be read: its key stays on the stack. -/
theorem thru_rangeTest {n : Nat} {lt gt : Option (Option Bound)} {bRev : Bool}
    (h : 0 < n ∨ (if bRev then gt else lt).isSome = true) :
    Thru (effects false) (rangeTest i l n lt gt bRev) 1 := by
  have hstay : ∀ o ∈ [Op.idxLT l.iCur (lab i .brk), .idxGE l.iCur (lab i .brk)], (0 : Int) ∈ falls false o := by
    simp [falls, idxFalls]
  have htest : ∀ cell, ∀ o ∈ [Op.idxLT l.iCur (lab i .brk), .idxGE l.iCur (lab i .brk)],
      Thru (effects false) [.op (.memLoad cell), .op o] 1 :=
    fun cell o ho => Thru.op rfl (.fall (hstay o ho) .nil) rfl
  unfold rangeTest
  cases bRev with
  | false =>
    have h' : 0 < n ∨ lt.isSome = true := h
    rw [if_neg Bool.false_ne_true, if_pos h']
    exact htest _ _ (List.mem_cons_of_mem _ List.mem_cons_self)
  | true =>
    have h' : 0 < n ∨ gt.isSome = true := h
    rw [if_pos rfl, if_pos h']
    exact htest _ _ List.mem_cons_self

/-- The row of an entry that could not be read. -/
theorem exits_unread {front : Code} (h : Thru (effects readable) front 1) (col : Nat) :
    ∃ spot δ, (spot = Spot.cont ∨ spot = Spot.brk) ∧ δ ≠ 0 ∧
      Depth.Exits (effects readable) (front ++ rowCode i keep l col) (lab i spot) δ :=
  ⟨.cont, 1, .inl rfl, one_ne_zero, Depth.Exits.after h (exits_row col)⟩

theorem exits_indexEq {eq : EqCols} {whole bRev : Bool} (hb : ¬ (Scan.indexEq eq whole bRev).Balanced readable) :
    ∃ spot δ, (spot = Spot.cont ∨ spot = Spot.brk) ∧ δ ≠ 0 ∧
      Depth.Exits (effects readable) (indexEqCode i keep l eq whole bRev) (lab i spot) δ := by
  have hcols : Thru (effects readable) (colsCode i eq.cols) (eq.cols.reduceOption.length : Int) := thru_cols eq.cols
  by_cases hfound : eq.cols.reduceOption.length = eq.cols.length
  · have hread : readable = false := by
      cases hr : readable with
      | false => rfl
      | true => exact absurd ⟨List.reduceOption_length_eq_iff.1 hfound, hr⟩ hb
    subst hread
    have hkey : Thru (effects false) (keyCode i 0 eq.cols.length) (1 - eq.cols.length) := thru_key 0 eq.cols.length
    have hstore : Thru (effects false) (if whole || bRev then [.op (.memStore l.iMem false)]
        else [.op (.dup 0), .op .incrKey, .op (.memStore l.iMem true)]) 0 := by
      split
      · exact Thru.op rfl .nil rfl
      · exact Thru.op rfl (Thru.op rfl (Thru.op rfl .nil rfl) rfl) rfl
    have hmove : Thru (effects false)
        (if bRev then [.op .incrKey, .op (.moveLt l.iCur (lab i .brk)), .label (lab i .start), .op (.memLoad l.iMem),
            .op (.idxLT l.iCur (lab i .brk))]
          else [.op (.moveTo l.iCur (some (lab i .brk))), .label (lab i .start), .op (.memLoad l.iMem),
            .op (if whole then .idxGT l.iCur (lab i .brk) else .idxGE l.iCur (lab i .brk))]) 0 := by
      have hstay : ∀ o : Op, falls false o = idxFalls false → Thru (effects false) [.op (.memLoad l.iMem), .op o] 1 := by
        intro o ho
        have hmem : (0 : Int) ∈ falls false o := by simp [ho, idxFalls]
        exact Thru.op rfl (.fall hmem .nil) rfl
      cases bRev with
      | true => exact Thru.op rfl (Thru.op rfl (.label (hstay _ rfl)) rfl) rfl
      | false => exact Thru.op rfl (.label (hstay _ (by cases whole <;> rfl))) rfl
    have hthru := ((hcols.append hkey).append hstore).append hmove
    rw [hfound, show (eq.cols.length : Int) + (1 - eq.cols.length) + 0 + 0 = 1 by omega] at hthru
    exact exits_unread hthru _
  · have hkey : Depth.Exits (effects readable) (keyCode i 0 eq.cols.length) (lab i .brk) (-(eq.cols.length : Int)) :=
      exits_key 0 eq.cols.length
    refine ⟨.brk, _, .inr rfl, ?_, (((Depth.Exits.after hcols hkey).before _).before _).before _⟩
    omega

theorem exits_indexRange {eqs : List (Option Source)} {lt gt : Option (Option Bound)} {bRev junk : Bool}
    (hb : ¬ (Scan.indexRange eqs lt gt bRev junk).Balanced readable) :
    ∃ spot δ, (spot = Spot.cont ∨ spot = Spot.brk) ∧ δ ≠ 0 ∧
      Depth.Exits (effects readable) (indexRangeCode i keep l eqs lt gt bRev junk) (lab i spot) δ := by
  have hcols : Thru (effects readable) (colsCode i eqs ++ List.replicate eqs.length (.op (.dup (eqs.length - 1))))
      ((eqs.reduceOption.length : Int) + eqs.length) := (thru_cols eqs).append (thru_dups _ _)
  have hend : Thru (effects readable) (endKeyCode i l eqs.length lt bRev junk) (-missing lt - eqs.length) :=
    thru_endKey _ lt bRev junk
  have hstart : Thru (effects readable) (startKeyCode i l eqs.length lt gt bRev junk) (-missing gt - eqs.length) :=
    thru_startKey _ lt gt bRev junk
  have hlt := missing_nonneg lt
  have hgt := missing_nonneg gt
  have hle : eqs.reduceOption.length ≤ eqs.length := List.reduceOption_length_le eqs
  -- a value of the termination key is NULL
  by_cases hendNull : (0 < eqs.length ∨ lt.isSome = true) ∧ (eqs.reduceOption.length : Int) ≠ missing lt
  · obtain ⟨hkey, hne⟩ := hendNull
    have hexit : Depth.Exits (effects readable) (endKeyCode i l eqs.length lt bRev junk) (lab i .brk)
        (-missing lt - eqs.length) := exits_endKey hkey bRev junk
    refine ⟨.brk, _, .inr rfl, ?_, ((((Depth.Exits.after hcols hexit).before _).before _).before _).before _⟩
    omega
  have hfound : (eqs.reduceOption.length : Int) = missing lt := by
    by_cases hkey : 0 < eqs.length ∨ lt.isSome = true
    · exact not_not.1 fun hne => hendNull ⟨hkey, hne⟩
    · obtain ⟨hn, hnone⟩ := not_or.1 hkey
      rw [Option.not_isSome_iff_eq_none.1 hnone]
      show (eqs.reduceOption.length : Int) = 0
      omega
  -- a value of the start key is NULL
  by_cases hstartNull : (0 < eqs.length ∨ gt.isSome = true) ∧ missing gt + eqs.length ≠ 0
  · obtain ⟨hkey, hne⟩ := hstartNull
    have hexit : Depth.Exits (effects readable) (startKeyCode i l eqs.length lt gt bRev junk) (lab i .brk)
        (-missing gt - eqs.length) := exits_startKey hkey lt bRev junk
    refine ⟨.brk, _, .inr rfl, ?_, (((Depth.Exits.after (hcols.append hend) hexit).before _).before _).before _⟩
    omega
  -- an entry cannot be read
  have hnone : missing gt + (eqs.length : Int) = 0 := by
    by_cases hkey : 0 < eqs.length ∨ gt.isSome = true
    · exact not_not.1 fun hne => hstartNull ⟨hkey, hne⟩
    · obtain ⟨hn, hnone⟩ := not_or.1 hkey
      rw [Option.not_isSome_iff_eq_none.1 hnone]
      show (0 : Int) + eqs.length = 0
      omega
  have heqs : eqs = [] := List.eq_nil_of_length_eq_zero (by omega)
  have htest : ((if bRev then gt else lt).isSome = true) ∧ readable = false := by
    have hbounds : lt ≠ some none ∧ gt ≠ some none := by
      refine ⟨fun h => ?_, fun h => ?_⟩
      · have hone : missing lt = 1 := by rw [h, missing]
        omega
      · have hone : missing gt = 1 := by rw [h, missing]
        omega
    have hread : ¬ ((if bRev then gt else lt).isSome = true → readable = true) :=
      fun h => hb ⟨heqs, hbounds.1, hbounds.2, h⟩
    rw [Classical.not_imp, Bool.not_eq_true] at hread
    exact hread
  obtain ⟨htest, rfl⟩ := htest
  have hlabel : Thru (effects false) [.label (lab i .start)] 0 := .label .nil
  have hrange : Thru (effects false) (rangeTest i l eqs.length lt gt bRev) 1 := thru_rangeTest (.inr htest)
  have hthru := (((hcols.append hend).append hstart).append hlabel).append hrange
  have hsum : (eqs.reduceOption.length : Int) + eqs.length + (-missing lt - eqs.length) + (-missing gt - eqs.length) + 0 + 1
      = 1 := by omega
  rw [hsum] at hthru
  exact exits_unread hthru _

/-- A loop that reaches a defect is left at another depth. -/
theorem exits_scan (hb : ¬ l.scan.Balanced readable) :
    ∃ spot δ, (spot = Spot.cont ∨ spot = Spot.brk) ∧ δ ≠ 0 ∧
      Depth.Exits (effects readable) (scanCode i keep l) (lab i spot) δ := by
  unfold scanCode
  cases hscan : l.scan with
  | rowidEq | rowidRange | full =>
    rw [hscan] at hb
    exact absurd trivial hb
  | indexEq eq whole bRev =>
    rw [hscan] at hb
    exact exits_indexEq hb
  | indexRange eqs lt gt bRev junk =>
    rw [hscan] at hb
    exact exits_indexRange hb

theorem exits_head (hb : ¬ l.scan.Balanced readable) :
    ∃ spot δ, (spot = Spot.cont ∨ spot = Spot.brk) ∧ δ ≠ 0 ∧
      Depth.Exits (effects readable) (headCode i keep l) (lab i spot) δ := by
  obtain ⟨spot, δ, hspot, hδ, hexit⟩ : ∃ spot δ, (spot = Spot.cont ∨ spot = Spot.brk) ∧ δ ≠ 0 ∧
      Depth.Exits (effects readable) (scanCode i keep l) (lab i spot) δ := exits_scan hb
  have henter : Thru (effects readable) [.label (lab i .enter)] 0 := .label .nil
  refine ⟨spot, 0 + 0 + δ, hspot, by omega, ?_⟩
  unfold headCode
  refine ((Depth.Exits.after (henter.append ?_) hexit).before _).before _
  cases l.leftJoin with
  | none => exact .nil
  | some cell => exact Thru.op rfl (Thru.op rfl .nil rfl) rfl

/-! ## The whole code -/

/-- Where the code of a level stands. -/
theorem loopsCode_split {loops : List Loop} {k : Nat} (hk : loops[k]? = some l) (pushKey hasKey : Bool) (first : Int) :
    ∃ pre keep post post', loopsCode pushKey first i hasKey loops =
      pre ++ headCode (i + k) keep l ++ (post ++ tailCode (i + k) l ++ post') := by
  induction loops generalizing i hasKey k with
  | nil => cases hk
  | cons l' rest ih =>
    rw [loopsCode]
    cases k with
    | zero =>
      obtain rfl : l' = l := Option.some.inj hk
      refine ⟨[], pushKey && rest.isEmpty,
        loopsCode pushKey first (i + 1) (haveKey (pushKey && rest.isEmpty) l') rest, [], ?_⟩
      rw [List.append_nil, List.nil_append, List.append_assoc]
      rfl
    | succ k =>
      obtain ⟨pre, keep, post, post', hrest⟩ :=
        @ih (i + 1) k hk (haveKey (pushKey && rest.isEmpty) l')
      refine ⟨headCode i (pushKey && rest.isEmpty) l' ++ pre, keep, post, post' ++ tailCode i l', ?_⟩
      rw [hrest, Nat.add_assoc, Nat.add_comm 1]
      simp only [List.append_assoc]

theorem label_mem_tailCode {spot : Spot} (h : spot = .cont ∨ spot = .brk) : .label (lab i spot) ∈ tailCode i l := by
  unfold tailCode
  rcases h with rfl | rfl <;> simp

end

/-- The depths at all labels. -/
def depthAt (loops : List Loop) : Lab → Int
  | .iBreak => 0
  | .of i spot => (loops[i]?.map fun l => l.scan.spotDepth spot).getD 0

theorem Begun.flow {readable : Bool} (w : Begun) (hb : ∀ l ∈ w.loops, l.scan.Balanced readable) :
    Depth.Flow (effects readable) (depthAt w.loops) (some 0) w.code (some 0) := by
  have hup : Depth.Flow (effects readable) (depthAt w.loops) (some 0) ((w.upfront.map fun e => [.op (.test e .iBreak)]).getD [])
      (some 0) := by
    cases w.upfront with
    | none => exact rfl
    | some e => simp [Depth.Flow, effects, falls, jumps, depthAt]
  have hloops : Depth.Flow (effects readable) (depthAt w.loops) (some 0)
      (loopsCode w.pushKey ((w.loops.head?.map (·.cur)).getD 0) 0 false w.loops) (some 0) := by
    have henv : ∀ k l, w.loops[k]? = some l → ∀ spot, depthAt w.loops (lab (0 + k) spot) = l.scan.spotDepth spot := by
      intro k l hk spot
      rw [Nat.zero_add]
      simp only [lab, depthAt, hk, Option.map_some, Option.getD_some]
    exact @flow_loops readable _ 0 w.loops w.pushKey false _ rfl (fun h => absurd rfl h) henv hb w.alone
      fun h => absurd h Bool.false_ne_true
  exact (hup.append hloops).append (Depth.Flow.label rfl rfl)

/-- The code keeps the depth exactly when no loop reaches a defect. -/
theorem Begun.keepsDepth_iff (readable : Bool) (w : Begun) :
    KeepsDepth readable w.code ↔ ∀ l ∈ w.loops, l.scan.Balanced readable := by
  constructor
  · intro hkeeps l hl
    by_contra hb
    obtain ⟨k, hk⟩ := List.mem_iff_getElem?.1 hl
    obtain ⟨pre, keep, post, post', hsplit⟩ :=
      @loopsCode_split 0 l w.loops k hk w.pushKey false ((w.loops.head?.map (·.cur)).getD 0)
    obtain ⟨spot, δ, hspot, hδ, hexit⟩ : ∃ spot δ, (spot = Spot.cont ∨ spot = Spot.brk) ∧ δ ≠ 0 ∧
        Depth.Exits (effects readable) (headCode (0 + k) keep l) (lab (0 + k) spot) δ := exits_head hb
    have hcode : w.code = ((w.upfront.map fun e => [.op (.test e .iBreak)]).getD [] ++ pre) ++ headCode (0 + k) keep l ++
        (post ++ tailCode (0 + k) l ++ post' ++ [.label .iBreak]) := by
      rw [Begun.code, hsplit]
      simp only [List.append_assoc]
    have hlabel : .label (lab (0 + k) spot) ∈ w.code := by
      rw [hcode]
      refine List.mem_append_right _ (List.mem_append_left _ (List.mem_append_left _ (List.mem_append_right _ ?_)))
      exact label_mem_tailCode hspot
    obtain ⟨m, hm⟩ := List.mem_iff_getElem?.1 hlabel
    obtain ⟨rest, hrest⟩ : ∃ rest, headCode (0 + k) keep l = .label (lab (0 + k) .enter) :: rest := ⟨_, rfl⟩
    have hp := hcode
    rw [hrest, List.append_assoc, List.cons_append] at hp
    have hreach := hexit.reaches hcode hm 0
    exact hδ (by simpa using hkeeps _ spot hspot _ m 0 _ (hp ▸ item_at _ _ _) hm hreach)
  · intro hb i spot hspot p m d d' hp hm hr
    have hflow := (w.flow hb).reaches hp hm hr
    have henter : depthAt w.loops (lab i .enter) = 0 := by
      show (w.loops[i]?.map fun l => l.scan.spotDepth .enter).getD 0 = 0
      cases w.loops[i]? <;> rfl
    have hlabel : depthAt w.loops (lab i spot) = 0 := by
      show (w.loops[i]?.map fun l => l.scan.spotDepth spot).getD 0 = 0
      rcases hspot with rfl | rfl <;> cases w.loops[i]? <;> rfl
    omega

/-! ## The rounds -/

/-- The branches of a round that keep the stack in order, by the plan and the state that it starts from. -/
def Steady (readable : Bool) (cur : Int) (plan : LevelPlan) (g : Where.Gen) : Prop :=
  plan.directEq = none → ∀ aiColumn, plan.pIdx = some aiColumn →
    if 0 < plan.score ∧ plan.score % 4 = 0 then
      (∀ s ∈ (takeCols cur g.loopMask ((plan.score + 4) / 8 == 1) (columnsOf aiColumn ((plan.score + 4) / 8)) g.slots).1,
        s.isSome = true) ∧ readable = true
    else
      plan.directLt = none → plan.directGt = none → plan.score / 8 = 0 ∧
        let lt := takeBound cur g.loopMask (plan.score &&& 1 != 0) true aiColumn[0]? g.slots
        let gt := takeBound cur g.loopMask (plan.score &&& 2 != 0) false aiColumn[0]? lt.2
        lt.1 ≠ some none ∧ gt.1 ≠ some none ∧ (plan.score &&& (if plan.bRev then 2 else 1) ≠ 0 → readable = true)

theorem takeBound_isSome (cur : Int) (loopMask : BitVec 32) (counted less : Bool) (col : Option Int)
    (slots : List (Option ExprInfo)) : (takeBound cur loopMask counted less col slots).1.isSome = counted := by
  cases counted <;> rfl

theorem scanOf_balanced_iff {readable : Bool} {cur : Int} {plan : LevelPlan} {g : Where.Gen} {scan : Scan}
    {slots : List (Option ExprInfo)} (h : scanOf cur g.loopMask plan g.slots = some (scan, slots)) :
    scan.Balanced readable ↔ Steady readable cur plan g := by
  obtain ⟨⟨eq, slots₁⟩, heq, h⟩ := Option.bind_eq_some_iff.1 h
  cases hdirect : plan.directEq with
  | some k =>
    have hsteady : Steady readable cur plan g := fun hnone => absurd (hdirect.symm.trans hnone) (Option.some_ne_none k)
    rw [hdirect] at heq
    obtain ⟨info, -, hinfo⟩ := Option.map_eq_some_iff.1 heq
    cases hinfo
    cases h
    exact iff_of_true trivial hsteady
  | none =>
    rw [hdirect] at heq
    cases heq
    have hrange : ∀ {res : Option (Scan × List (Option ExprInfo))},
        res = ((takeDirect plan.directGt g.slots).bind fun gt => (takeDirect plan.directLt gt.2).bind fun lt =>
          some (.rowidRange (gt.1.map (rowidBound cur)) (lt.1.map (rowidBound cur)), lt.2)) →
        res = some (scan, slots) → scan.Balanced readable := by
      rintro _ rfl hres
      obtain ⟨gt, -, hres⟩ := Option.bind_eq_some_iff.1 hres
      obtain ⟨lt, -, hres⟩ := Option.bind_eq_some_iff.1 hres
      cases hres
      exact trivial
    cases hidx : plan.pIdx with
    | none =>
      have hsteady : Steady readable cur plan g := fun _ _ hsome =>
        absurd (hsome.symm.trans hidx) (Option.some_ne_none _)
      simp only [hidx, Option.isSome_none, Bool.false_eq_true, false_and, if_false, Option.isNone_none, if_true] at h
      split at h
      · exact iff_of_true (hrange rfl h) hsteady
      · cases h
        exact iff_of_true trivial hsteady
    | some aiColumn =>
      have hcases : Steady readable cur plan g ↔ _ :=
        ⟨fun hs => hs hdirect aiColumn hidx, fun hs _ _ hsome => Option.some.inj (hidx.symm.trans hsome) ▸ hs⟩
      rw [hcases]
      simp only [hidx, Option.isSome_some, true_and, Option.getD_some] at h
      split at h
      · next hscore =>
        cases h
        rw [if_pos hscore]
        exact Iff.rfl
      · next hscore =>
        rw [if_neg hscore]
        split at h
        · next hdir =>
          refine iff_of_true (hrange rfl h) fun hlt hgt => ?_
          rw [hlt, hgt] at hdir
          exact absurd hdir (by decide)
        · next hdir =>
          obtain ⟨hlt, hgt⟩ := not_or.1 hdir
          rw [Option.isNone_some, if_neg Bool.false_ne_true] at h
          cases h
          rw [forall_prop_of_true (Option.not_isSome_iff_eq_none.1 hlt),
            forall_prop_of_true (Option.not_isSome_iff_eq_none.1 hgt)]
          by_cases hcols : plan.score / 8 = 0
          · have htest : ∀ lt gt : Option (Option Bound), lt.isSome = (plan.score &&& 1 != 0) →
                gt.isSome = (plan.score &&& 2 != 0) →
                (((if plan.bRev then gt else lt).isSome = true → readable = true) ↔
                  (plan.score &&& (if plan.bRev then 2 else 1) ≠ 0 → readable = true)) := by
              intro lt gt hlt hgt
              cases plan.bRev <;> simp [hlt, hgt]
            rw [hcols]
            simp only [Scan.Balanced, columnsOf, List.range_zero, List.map_nil, takeCols, true_and]
            rw [htest _ _ (takeBound_isSome ..) (takeBound_isSome ..)]
          · refine iff_of_false (fun hb => hcols ?_) fun hs => hcols hs.1
            have hlen := (takeCols_spec cur g.loopMask false (columnsOf aiColumn (plan.score / 8)) g.slots).1
            rw [hb.1, columnsOf, List.length_map, List.length_range] at hlen
            exact hlen.symm

/-- Each round is steady in the state that it starts from. -/
def AllSteady (readable : Bool) (plan : Nat → LevelPlan) : Nat → Bool → List SrcItem → Where.Gen → Nat → Prop
  | _, _, [], _, _ => True
  | i, leftJoin, item :: rest, g, nMem =>
    Steady readable item.iCursor (plan i) g ∧
      ∀ l g' nMem', nextLoop leftJoin item.iCursor (plan i) g nMem = some (l, g', nMem') →
        AllSteady readable plan (i + 1) item.jtLeft rest g' nMem'

theorem allLoops_balanced_iff {readable : Bool} {plan : Nat → LevelPlan} {i : Nat} {leftJoin : Bool}
    {items : List SrcItem} {g : Where.Gen} {nMem : Nat} {loops : List Loop}
    (h : allLoops plan i leftJoin items g nMem = some loops) :
    (∀ l ∈ loops, l.scan.Balanced readable) ↔ AllSteady readable plan i leftJoin items g nMem := by
  induction items generalizing i leftJoin g nMem loops with
  | nil =>
    cases h
    exact iff_of_true (fun _ hl => absurd hl List.not_mem_nil) trivial
  | cons item rest ih =>
    obtain ⟨⟨l, g', nMem'⟩, hl, h⟩ := Option.bind_eq_some_iff.1 h
    obtain ⟨ls, hls, h⟩ := Option.bind_eq_some_iff.1 h
    cases h
    obtain ⟨⟨scan, slots⟩, hscan, hnext⟩ := Option.bind_eq_some_iff.1 hl
    have hsteady : l.scan.Balanced readable ↔ Steady readable item.iCursor (plan i) g := by
      cases hnext
      exact scanOf_balanced_iff hscan
    have hrest : (∀ l' ∈ ls, l'.scan.Balanced readable) ↔ ∀ l' g'' nMem'',
        nextLoop leftJoin item.iCursor (plan i) g nMem = some (l', g'', nMem'') →
          AllSteady readable plan (i + 1) item.jtLeft rest g'' nMem'' := by
      rw [ih hls]
      constructor
      · intro hall l' g'' nMem'' hl'
        cases hl.symm.trans hl'
        exact hall
      · exact fun hall => hall l g' nMem' hl
    rw [List.forall_mem_cons, hsteady, hrest]
    exact Iff.rfl

/-- The state of the first round. -/
def firstGen (q : Join) : Where.Gen :=
  let infos := analyzeTerms q.trigStack (exprSplit numSlots q.whereClause) .empty
  ⟨infos.1.map some, 0#32, planMasks infos.2 q.tabList⟩

theorem nullKey_distinct : [(0 : Int)].Nodup := List.nodup_singleton 0

theorem nullKey_fresh : ∀ t ∈ [(⟨0, false⟩ : SrcItem)], t.iCursor ∉ trigCursors none := by decide

/-- `SELECT … FROM t WHERE x = NULL AND y < 10`. -/
def nullKey : Join where
  tabList := [⟨0, false⟩]
  whereClause := .node ⟨.and, .num, false, none, 0, 0, 0⟩
    (.node ⟨.compare .eq, .num, false, none, 0, 0, 0⟩ (.node ⟨.column, .num, false, none, 0, 0, 0⟩ .null .null .null .null)
      (.node ⟨.null, .num, false, none, 0, 0, 0⟩ .null .null .null .null) .null .null)
    (.node ⟨.compare .lt, .num, false, none, 0, 0, 0⟩ (.node ⟨.column, .num, false, none, 0, 1, 0⟩ .null .null .null .null)
      (.node ⟨.lit .integer, .num, false, some (ascii "10"), 0, 0, 0⟩ .null .null .null .null) .null .null)
    .null .null
  trigStack := none
  distinct := nullKey_distinct
  fresh := nullKey_fresh
  resolved := by decide
  constant := by decide

/-- An index, by its columns and its score. -/
def indexPlan (aiColumn : List Int) (score : Nat) : LevelPlan where
  directEq := none
  directLt := none
  directGt := none
  pIdx := some aiColumn
  iCur := 1
  score := score
  bRev := false
  junk := false

end Dbsql.L5.WhereCode
