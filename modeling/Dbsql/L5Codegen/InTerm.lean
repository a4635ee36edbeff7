import Dbsql.L3Vdbe.Decimal
import Dbsql.L3Vdbe.NumericOrder
import Dbsql.L5Codegen.ExprJump
import Dbsql.L5Codegen.Deliver
/-!
# `x IN (...)` (cg_expr.c:924-985, 1463-1477, vdbe.c:4690-4761)

The right side of an IN is put before the loop into a hash set, where it is a list of
constants, or into a table of keys, where it is a sub-select. A literal of the list goes in as
its token, anything else as the text of its value; NULL is the empty text in a set and is left
out of a table. The test looks for the text of `x`. `x = e` for one value `e` at a time is
`OP_Eq`, which compares numbers by value.

`ArAsEq` says when the two agree: for a list, what `x` equals is also spelled like `x`, and
where `x` is the empty text and a NULL is in the list, `x` equals something. For a sub-select,
`x` equals a value exactly when the text of some value is at or above the text of `x`, since
`OP_Found` takes a greater key for a hit.

Results:
* `numCmp_of_text`: values with one text are equal for `OP_Eq`.
* `in_yields_iff`: the code of `x IN (...)` leaves the truth value of the equalities, and jumps
  on it, exactly when `x` is NULL or `ArAsEq` holds.
-/
namespace Dbsql.L5
open Dbsql.Core Dbsql.L1 Dbsql.L2 Dbsql.L3 Dbsql.L3.Stack

/-! ## One text -/

/-- An integer that has a text has its own. -/
def Spelled (v : Val) : Prop := ∀ i z, v = .int i (some z) → (dbsqlAtoi z).1 = i

section
variable {L : Type} (ar : Arith L)

theorem strcmp_self (z : Bytes) : strcmp z z = 0 := by
  have h : List.compareLex compare (cstr z) (cstr z) = .eq := by
    rw [← ordInt_eq, ← smCmpValues_eq, smCmpValues_eq_zero]
  rw [strcmp, h]
  rfl

theorem strNumericCmp_self (z : Bytes) : strNumericCmp ar z z = 0 := by
  have hlt : Double.lt (dbsqlAtof ar.ld z) (dbsqlAtof ar.ld z) = false := by
    cases h : Double.lt (dbsqlAtof ar.ld z) (dbsqlAtof ar.ld z) with
    | false => rfl
    | true => exact h.symm.trans (Double.lt_asymm h)
  unfold strNumericCmp
  split
  · simp [hlt]
  · exact strcmp_self z

/-- The text of an `int` is read as the `int`. -/
theorem atoi_text {i : CInt} {z : Option Bytes} (h : Spelled (.int i z)) :
    (dbsqlAtoi (Val.int i z).text).1 = i := by
  cases z with
  | none => exact dbsqlAtoi_fmtD i
  | some z => exact h i z rfl

/-- **Values with one text are equal.** -/
theorem numCmp_of_text {x e : Val} (hx : Spelled x) (he : Spelled e) (h : x.text = e.text) :
    numCmp ar x e = 0 := by
  have hself : strNumericCmp ar x.text e.text = 0 := by rw [h, strNumericCmp_self]
  cases x with
  | null => exact hself
  | real r => exact hself
  | int b z =>
    have hb := atoi_text hx
    rw [h] at hb
    cases e with
    | null => exact hself
    | real r => exact hself
    | int a z' =>
      have ha := atoi_text he
      have hab : b = a := hb.symm.trans ha
      rw [hab]
      exact BitVec.sub_self a
    | str z' =>
      have hb : (dbsqlAtoi z').1 = b := hb
      rw [numCmp]
      split
      · rw [hb]
        exact BitVec.sub_self b
      · exact hself
  | str z =>
    cases e with
    | null => exact hself
    | real r => exact hself
    | int a z' =>
      have ha := atoi_text he
      rw [← h] at ha
      have ha : (dbsqlAtoi z).1 = a := ha
      rw [numCmp]
      split
      · rw [ha]
        exact BitVec.sub_self a
      · exact hself
    | str z' => exact hself

end

/-! ## The right side -/

/-- An expression of the list: a literal, or the value of another constant. -/
inductive Elem
  | lit (op : Lit) (token : Bytes)
  | coded (v : Val)

/-- The value of the expression. -/
def Elem.val : Elem → Val
  | .lit op token => litVal op token
  | .coded v => v

/-- The bytes `OP_SetInsert` puts into the set: P3 with its NUL, or the text of the top. -/
def Elem.key : Elem → Bytes
  | .lit _ token => nulTerm (strUnquote token)
  | .coded v => v.text

/-- `__hash_insert` into a set. -/
def hashInsert (set : List Bytes) (key : Bytes) : List Bytes :=
  if key ∈ set then set else set ++ [key]

/-- The set of a list. -/
def setOf (es : List Elem) : List Bytes := (es.map Elem.key).foldl hashInsert []

/-- A row at the end of `__select_inner_loop` for `SRT_Set` (cg_select.c:633-646). -/
def putSet (t : Btree) (v : Val) : Btree :=
  if v.isNull then t else (smInsert t none v.text []).1

/-- The table of a sub-select. -/
def tableOf (vs : List Val) : Btree := vs.foldl putSet .empty

/-- The right side of an IN: the list, or the values that the sub-select delivers. -/
inductive Rhs
  | list (es : List Elem)
  | select (vs : List Val)

def Rhs.pSelect : Rhs → Bool
  | .list _ => false
  | .select _ => true

def Rhs.values : Rhs → List Val
  | .list es => es.map Elem.val
  | .select vs => vs

/-- What `OP_SetFound` and `OP_Found` answer for a text. -/
def Rhs.holds : Rhs → Bytes → Bool
  | .list es, z => decide (z ∈ setOf es)
  | .select vs, z => Query.alreadyExists (tableOf vs) z

/-- The set or table of the IN has been filled. -/
def Filled (env : Env) (iTable : Nat) (rhs : Rhs) : Prop :=
  ∀ z, (if rhs.pSelect then env.found iTable z else env.aSet iTable z) = rhs.holds z

/-- The texts of literals are those of their values. -/
theorem Elem.key_eq (e : Elem) : e.key = e.val.text := by
  cases e with
  | lit op token =>
    simp only [Elem.key, Elem.val, litVal]
    split <;> rfl
  | coded v => rfl

theorem mem_foldl_hashInsert {keys set : List Bytes} {z : Bytes} :
    z ∈ keys.foldl hashInsert set ↔ z ∈ set ∨ z ∈ keys := by
  induction keys generalizing set with
  | nil => simp
  | cons k keys ih =>
    have hk : z ∈ hashInsert set k ↔ z ∈ set ∨ z = k := by
      unfold hashInsert
      split
      · rename_i hmem
        exact ⟨.inl, fun h => h.elim id fun h => h ▸ hmem⟩
      · simp
    rw [List.foldl_cons, ih, hk, List.mem_cons, or_assoc]

theorem mem_setOf {es : List Elem} {z : Bytes} : z ∈ setOf es ↔ ∃ v ∈ es.map Elem.val, v.text = z := by
  rw [setOf, mem_foldl_hashInsert, List.mem_map]
  simp only [List.not_mem_nil, false_or, List.mem_map, Elem.key_eq]
  constructor
  · rintro ⟨e, he, h⟩
    exact ⟨_, ⟨e, he, rfl⟩, h⟩
  · rintro ⟨_, ⟨e, he, rfl⟩, h⟩
    exact ⟨e, he, h⟩

theorem mem_foldl_putSet {vs : List Val} {t : Btree} {k : Dbt} :
    k ∈ vs.foldl putSet t ↔ k ∈ t ∨ ∃ v ∈ vs, v.isNull = false ∧ k = ⟨v.text⟩ := by
  induction vs generalizing t with
  | nil => simp
  | cons v vs ih =>
    have hv : k ∈ putSet t v ↔ k ∈ t ∨ v.isNull = false ∧ k = ⟨v.text⟩ := by
      unfold putSet
      cases v.isNull with
      | true => simp
      | false =>
        rw [if_neg Bool.false_ne_true]
        exact SortedMap.mem_insert.trans (by simp [or_comm])
    rw [List.foldl_cons, ih, hv, List.exists_mem_cons_iff, or_assoc]

theorem mem_tableOf {vs : List Val} {k : Dbt} :
    k ∈ tableOf vs ↔ ∃ v ∈ vs, v.isNull = false ∧ k = ⟨v.text⟩ := by
  rw [tableOf, mem_foldl_putSet]
  exact or_iff_right SortedMap.not_mem_empty

/-! ## Equality with one of the values -/

section
variable {L : Type} (ar : Arith L)

/-- `x = e` for some value `e`, by `OP_Eq`. -/
def equalsOne (x : Val) (vs : List Val) : Bool :=
  vs.any fun e => compare3 ar false .eq x e = some true

/-- The truth value of `x IN (...)`: unknown for NULL. -/
def Rhs.truth (rhs : Rhs) (x : Val) : Option Bool :=
  if x.isNull then none else some (equalsOne ar x rhs.values)

/-- When the texts decide as `OP_Eq` does. -/
def Rhs.ArAsEq (rhs : Rhs) (x : Val) : Prop :=
  match rhs with
  | .list es =>
    (equalsOne ar x (es.map Elem.val) = true → ∃ e ∈ es.map Elem.val, e.text = x.text) ∧
      ∀ e ∈ es.map Elem.val, e.isNull = true → e.text = x.text →
        equalsOne ar x (es.map Elem.val) = true
  | .select vs =>
    equalsOne ar x vs = true ↔ ∃ e ∈ vs, e.isNull = false ∧ (⟨x.text⟩ : Dbt) ≤ ⟨e.text⟩

variable {ar}

theorem equalsOne_iff {x : Val} {vs : List Val} (hx : x.isNull = false) :
    equalsOne ar x vs = true ↔ ∃ e ∈ vs, e.isNull = false ∧ numCmp ar x e = 0 := by
  rw [equalsOne, List.any_eq_true]
  refine exists_congr fun e => and_congr_right fun _ => ?_
  rw [decide_eq_true_eq, compare3, hx, Bool.or_false]
  cases e.isNull <;> simp [Cmp.test]

/-- Membership by texts is `equalsOne` exactly under `ArAsEq`. -/
theorem holds_eq_iff {rhs : Rhs} {x : Val} (hx : x.isNull = false) (hs : Spelled x)
    (hv : ∀ e ∈ rhs.values, Spelled e) :
    rhs.holds x.text = equalsOne ar x rhs.values ↔ rhs.ArAsEq ar x := by
  rw [Bool.eq_iff_iff]
  cases rhs with
  | list es =>
    have hholds : (Rhs.list es).holds x.text = true ↔ ∃ e ∈ es.map Elem.val, e.text = x.text :=
      decide_eq_true_iff.trans mem_setOf
    have hequal : ∀ e ∈ es.map Elem.val, e.isNull = false → e.text = x.text →
        equalsOne ar x (es.map Elem.val) = true := fun e he hn ht =>
      (equalsOne_iff hx).2 ⟨e, he, hn, numCmp_of_text ar hs (hv e he) ht.symm⟩
    rw [hholds]
    constructor
    · intro h
      exact ⟨h.2, fun e he _ ht => h.1 ⟨e, he, ht⟩⟩
    · rintro ⟨h₁, h₂⟩
      refine ⟨?_, h₁⟩
      rintro ⟨e, he, ht⟩
      cases hn : e.isNull with
      | true => exact h₂ e he hn ht
      | false => exact hequal e he hn ht
  | select vs =>
    have hholds : (Rhs.select vs).holds x.text = true ↔
        ∃ e ∈ vs, e.isNull = false ∧ (⟨x.text⟩ : Dbt) ≤ ⟨e.text⟩ := by
      refine Query.alreadyExists_iff.trans ⟨?_, ?_⟩
      · rintro ⟨k, hk, hle⟩
        obtain ⟨e, he, hn, rfl⟩ := mem_tableOf.1 hk
        exact ⟨e, he, hn, hle⟩
      · rintro ⟨e, he, hn, hle⟩
        exact ⟨_, mem_tableOf.2 ⟨e, he, hn, rfl⟩, hle⟩
    rw [hholds]
    exact ⟨fun h => h.symm, fun h => h.symm⟩

end

/-! ## The code of the test -/

/-- The truth value of the test that the code makes. -/
def inTruth (env : Env) (pSelect : Bool) (iTable : Nat) (x : Val) : Option Bool :=
  if x.isNull then none else some (inHolds env pSelect iTable x)

section
variable {L : Type} {ar : Arith L} {env : Env} {g : Gen} {prog : Nat → Option Op} {exit : Nat → Prop}
variable {left : Expr} {pSelect : Bool} {iTable a : Nat} {st : List Val} {x : Val}

/-- The code of the value leaves the truth value on top. For NULL a 1 stays below. -/
theorem in_value (hx : Exits g prog exit) (hl : Compiled ar env g prog exit left)
    (hv : exprValue ar env g .code left = some x)
    (hc : CodeAt prog a (exprCode g a (.in_ left pSelect iTable))) :
    ∃ rest, Comes ar env prog (a + exprLen g (.in_ left pSelect iTable),
      .ofTruth (inTruth env pSelect iTable x) :: rest) (a, st) := by
  unfold inTruth
  cases hn : x.isNull with
  | false =>
    refine ⟨st, (Compiled.in_ hx hl).runs hc ?_⟩
    rw [exprValue, hv, Option.bind_eq_bind, Option.bind_some, hn]
    rfl
  | true =>
    refine ⟨.int 1 none :: st, ?_⟩
    rw [exprCode] at hc
    have htail := hc.after (b := a + 1 + exprLen g left) (by simp [exprCode_length]; omega)
    have hend : a + exprLen g (.in_ left pSelect iTable) = a + 1 + exprLen g left + 6 := by
      rw [exprLen]
      omega
    rw [hend]
    refine .op hc.left.head rfl (Ends.trans (hl.runs hc.left.tail hv) ?_)
    refine .op htail.head (t := (a + 1 + exprLen g left + 1, x :: .int 1 none :: st)) ?_ ?_
    · rw [Stack.exec, hn]
      rfl
    · refine .op htail.tail.head rfl (.op htail.tail.tail.head rfl ?_)
      exact .op htail.tail.tail.tail.head rfl (.here rfl)

theorem notIn_value (hx : Exits g prog exit) (hl : Compiled ar env g prog exit left)
    (hv : exprValue ar env g .code left = some x)
    (hc : CodeAt prog a (exprCode g a (.not (.in_ left pSelect iTable)))) :
    ∃ rest, Comes ar env prog (a + exprLen g (.not (.in_ left pSelect iTable)),
      .ofTruth (not3 (inTruth env pSelect iTable x)) :: rest) (a, st) := by
  have hcode : exprCode g a (.not (.in_ left pSelect iTable)) =
      exprCode g a (.in_ left pSelect iTable) ++ [.not] := by rw [exprCode]
  rw [hcode] at hc
  obtain ⟨rest, h⟩ : ∃ rest, Comes ar env prog (a + exprLen g (.in_ left pSelect iTable),
      .ofTruth (inTruth env pSelect iTable x) :: rest) (a, st) := in_value hx hl hv hc.left
  refine ⟨rest, Ends.trans h (.op (hc.after (by rw [exprCode_length])).head ?_ (.here rfl))⟩
  rw [exprLen, ← Nat.add_assoc]
  rcases inTruth env pSelect iTable x with _ | _ | _ <;> rfl

/-- The code that jumps on it. -/
theorem in_jumps {neg : Bool} {dest : Nat} {p1 : Bool}
    (hl : Compiled ar env g prog exit left) (hv : exprValue ar env g .code left = some x)
    (hc : CodeAt prog a (exprIf neg g a dest p1 (.in_ left pSelect iTable))) :
    Comes ar env prog (if condJumps neg p1 (inTruth env pSelect iTable x) then dest
      else a + (exprIf neg g a dest p1 (.in_ left pSelect iTable)).length, st) (a, st) := by
  have hlen : a + (exprIf neg g a dest p1 (.in_ left pSelect iTable)).length =
      a + exprLen g left + 4 := by
    cases neg <;> simp [exprIf, exprIfTrue, exprIfFalse, exprCode_length, Nat.add_assoc]
  have hcode : exprIf neg g a dest p1 (.in_ left pSelect iTable) = exprCode g a left ++
      [.notNull true (a + exprLen g left + 3), .pop 1,
        .goto (if p1 then dest else a + exprLen g left + 4), inOp pSelect neg iTable dest] := by
    cases neg <;> simp [exprIf, exprIfTrue, exprIfFalse]
  rw [hlen]
  rw [hcode] at hc
  have htail := hc.after (b := a + exprLen g left) (by rw [exprCode_length])
  refine Ends.trans (hl.runs hc.left hv) ?_
  have hjumps : Ends (Stack.exec ar env) prog (JumpsTo ar env g prog _ _ _ st) (_, x :: st) := inTest_jumps htail
  exact hjumps

end

/-! ## What the code yields -/

/-- The code of `e`, alone wherever it stands, leaves a truth value, or jumps on it. -/
structure Yields {L : Type} (ar : Arith L) (env : Env) (g : Gen) (e : Expr) (t : Option Bool) :
    Prop where
  value : ∀ a st, IgnoreOutside g a (exprLen g e) → ∃ rest,
    Comes ar env (block a (exprCode g a e)) (a + exprLen g e, .ofTruth t :: rest) (a, st)
  jump : ∀ neg a dest p1 st, Labels neg g a dest p1 e →
    GoesOn ar env (exprIf neg g a dest p1 e) a dest (condJumps neg p1 t) st

section
variable {L : Type} {ar : Arith L} {env : Env} {g : Gen} {left : Expr} {pSelect : Bool}
variable {iTable : Nat} {x : Val}

theorem ofTruth_inj {t t' : Option Bool} (h : Val.ofTruth t = .ofTruth t') : t = t' := by
  rcases t with _ | _ | _ <;> rcases t' with _ | _ | _ <;> first | rfl | cases h

/-- The code yields one truth value. -/
theorem Yields.unique {e : Expr} {t t' : Option Bool} (h : Yields ar env g e t)
    (h' : Yields ar env g e t') : t = t' := by
  -- an address at which a jump to `ignoreJump` leaves the code
  obtain ⟨a, ha⟩ : ∃ a, IgnoreOutside g a (exprLen g e) := by
    cases hj : g.ignoreJump with
    | none => exact ⟨0, fun j h => by rw [hj] at h; cases h⟩
    | some j =>
      refine ⟨j + 1, fun i h => .inl ?_⟩
      rw [hj] at h
      cases h
      exact Nat.lt_succ_self _
  obtain ⟨rest, hr⟩ := h.value a [] ha
  obtain ⟨rest', hr'⟩ := h'.value a [] ha
  have hhalt {st : List Val} : Halted (Stack.exec ar env) (block a (exprCode g a e))
      (a + exprLen g e, st) := halted_of_none ((exits_block ha).exit_none _ rfl)
  obtain ⟨s, hs, hs'⟩ := (Ends.halted hr hhalt).halted_unique (Ends.halted hr' hhalt)
  rw [hs] at hs'
  injection hs' with _ hs'
  injection hs' with hs' _
  exact ofTruth_inj hs'

theorem exits_exprIf {neg : Bool} {a dest : Nat} {p1 : Bool} {e : Expr}
    (hl : Labels neg g a dest p1 e) : Exits g (block a (exprIf neg g a dest p1 e)) fun _ => False :=
  ⟨fun _ h => h.elim, fun j hj => ⟨(hl.ignore j hj).2.1.none, id⟩⟩

/-- `x IN (...)` yields the truth value of its test, and `x NOT IN (...)` its negation. -/
theorem in_yields (hc : compiles g left = true) (hv : exprValue ar env g .code left = some x) :
    Yields ar env g (.in_ left pSelect iTable) (inTruth env pSelect iTable x) ∧
      Yields ar env g (.not (.in_ left pSelect iTable)) (not3 (inTruth env pSelect iTable x)) := by
  refine ⟨⟨fun a st ha => ?_, fun neg a dest p1 st hl => ?_⟩,
    ⟨fun a st ha => ?_, fun neg a dest p1 st hl => ?_⟩⟩
  · have hx := exits_block ha
    exact in_value hx (compiled hx left hc) hv (codeAt_block _ _)
  · exact in_jumps (compiled (exits_exprIf hl) left hc) hv (codeAt_block _ _)
  · have hx := exits_block ha
    exact notIn_value hx (compiled hx left hc) hv (codeAt_block _ _)
  · -- a jump on NOT is the other jump
    have hswap : exprIf neg g a dest p1 (.not (.in_ left pSelect iTable)) =
        exprIf (!neg) g a dest p1 (.in_ left pSelect iTable) := by
      cases neg <;> simp [exprIf, exprIfTrue, exprIfFalse]
    have hx := exits_exprIf hl
    unfold GoesOn
    rw [condJumps_not3]
    rw [hswap] at hx ⊢
    exact in_jumps (compiled hx left hc) hv (codeAt_block _ _)

/-- The test of a filled set or table is by texts. -/
theorem inTruth_filled {rhs : Rhs} (hf : Filled env iTable rhs) :
    inTruth env rhs.pSelect iTable x = if x.isNull then none else some (rhs.holds x.text) := by
  rw [inTruth, inHolds, hf x.text]

/-- **The code of `x IN (...)` and of `x NOT IN (...)` yields what the equalities say exactly
when `x` is NULL or texts decide as `OP_Eq` does.** -/
theorem in_yields_iff {rhs : Rhs} (hc : compiles g left = true)
    (hv : exprValue ar env g .code left = some x) (hf : Filled env iTable rhs) (hs : Spelled x)
    (hr : ∀ e ∈ rhs.values, Spelled e) :
    (Yields ar env g (.in_ left rhs.pSelect iTable) (rhs.truth ar x) ∧
      Yields ar env g (.not (.in_ left rhs.pSelect iTable)) (not3 (rhs.truth ar x))) ↔
      x.isNull = true ∨ rhs.ArAsEq ar x := by
  obtain ⟨hin, hnot⟩ : Yields ar env g (.in_ left rhs.pSelect iTable) _ ∧
    Yields ar env g (.not (.in_ left rhs.pSelect iTable)) _ := in_yields hc hv
  have htest : inTruth env rhs.pSelect iTable x = rhs.truth ar x ↔
      x.isNull = true ∨ rhs.ArAsEq ar x := by
    rw [inTruth_filled hf, Rhs.truth]
    cases hn : x.isNull with
    | true => simp
    | false =>
      have h : _ ↔ rhs.ArAsEq ar x := holds_eq_iff hn hs hr
      simp [← h]
  rw [← htest]
  constructor
  · rintro ⟨h, -⟩
    exact hin.unique h
  · intro h
    rw [← h]
    exact ⟨hin, hnot⟩

end
end Dbsql.L5
