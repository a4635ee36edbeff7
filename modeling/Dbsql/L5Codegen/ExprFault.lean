import Dbsql.L5Codegen.ExprCode
/-!
# Where the code of an expression ends

The code of an expression need not come to its end: a function reports an error, a division traps, the
assertion of an opcode fails, RAISE halts or goes to `ignoreJump`. And the NULL path of IN comes to its
end with an entry too many. `exprOut` is the value, or the first of these that is met (`CodeFault`), in the
order in which the code evaluates.

Results:
* `exprValue_eq`: the code's reading has a value where nothing of this is met.
* `exprCode_faults`: otherwise the code ends at the fault.
-/
namespace Dbsql.L5
open Dbsql.Core Dbsql.L1 Dbsql.L3 Dbsql.L3.Stack

/-- What is met in place of a value. -/
inductive CodeFault
  /-- an opcode that has no effect on its operands -/
  | stop (o : Op) (xs : List Val)
  /-- RAISE(IGNORE) -/
  | ignore
  /-- an IN with a NULL on its left -/
  | stray
  deriving DecidableEq, Repr

/-- The value, or the opcode stops. -/
def orStop (o : Op) (xs : List Val) : Option Val → Except CodeFault Val
  | some v => .ok v
  | none => .error (.stop o xs)

/-- What RAISE does in a trigger. -/
def raiseFault (onError : Oe) (msg : Bytes) : CodeFault :=
  if onError = .rollback ∨ onError = .abort ∨ onError = .fail then
    .stop (.halt .constraint onError (strUnquote msg)) []
  else .ignore

section
variable {L : Type} (ar : Arith L) (env : Env) (g : Gen)

mutual
/-- What the code of an expression comes to. -/
def exprOut : Expr → Except CodeFault Val
  | .column iTable iColumn iAgg _ => .ok (columnVal env g iTable iColumn iAgg)
  | .lit op token => .ok (litVal op token)
  | .null => .ok .null
  | .variable_ iTable => .ok (variableVal env iTable)
  | .aggFunction iAgg _ => .ok (env.aggMem iAgg)
  | .select iColumn _ => .ok (env.aMem iColumn)
  | .arith op left right => do
    let l ← exprOut left
    let r ← exprOut right
    orStop (.arith op) [r, l] (opArith ar op l r)
  | .bit .shiftLeft left right => do
    let r ← exprOut right
    let l ← exprOut left
    orStop (.bit .shiftLeft) [l, r] (opBit ar true .shiftLeft r l)
  | .bit .shiftRight left right => do
    let r ← exprOut right
    let l ← exprOut left
    orStop (.bit .shiftRight) [l, r] (opBit ar true .shiftRight r l)
  | .bit op left right => do
    let l ← exprOut left
    let r ← exprOut right
    orStop (.bit op) [r, l] (opBit ar true op l r)
  | .and left right => do
    let l ← exprOut left
    let r ← exprOut right
    .ok (.ofTruth (and3 (l.truth ar) (r.truth ar)))
  | .or left right => do
    let l ← exprOut left
    let r ← exprOut right
    .ok (.ofTruth (or3 (l.truth ar) (r.truth ar)))
  | .concat left right => do
    let l ← exprOut left
    let r ← exprOut right
    .ok (opConcat l r)
  | .compare op left right => do
    let l ← exprOut left
    let r ← exprOut right
    .ok (.ofTruth (compare3 ar (isText op left right) op l r))
  | .uminus (.lit .float token) => .ok (negLitVal .float token)
  | .uminus (.lit .integer token) => .ok (negLitVal .integer token)
  | .uminus left => do
    let v ← exprOut left
    .ok (opNegative ar v)
  | .bitNot left => do
    let v ← exprOut left
    orStop .bitNot [v] (opBitNot ar true v)
  | .not left => do
    let v ← exprOut left
    orStop .not [v] (opNot ar true v)
  | .uplus left | .as_ left => exprOut left
  | .isNull left => do
    let v ← exprOut left
    .ok (.ofTruth (some v.isNull))
  | .notNull left => do
    let v ← exprOut left
    .ok (.ofTruth (some (!v.isNull)))
  | .function fn list => do
    let vs ← exprsOut list
    orStop (.function list.nExpr fn.name) vs.reverse (env.xFunc fn.name (vs.map Val.arg))
  | .in_ left pSelect iTable => do
    let v ← exprOut left
    if v.isNull then .error .stray else .ok (.ofTruth (some (inHolds env pSelect iTable v)))
  | .between left lo hi => do
    let x ← exprOut left
    let a ← exprOut lo
    let b ← exprOut hi
    .ok (.ofTruth (and3 (compare3 ar false .ge x a) (compare3 ar false .le x b)))
  | .case_ list => whensOut none list
  | .caseOf left list => do
    let x ← exprOut left
    whensOut (some x) list
  | .raise onError msg => .error (raiseFault onError msg)

def exprsOut : Exprs → Except CodeFault (List Val)
  | .nil => .ok []
  | .cons e es => do
    let v ← exprOut e
    let vs ← exprsOut es
    .ok (v :: vs)

def whensOut (operand : Option Val) : Whens → Except CodeFault Val
  | .noElse => .ok .null
  | .orElse right => exprOut right
  | .when e r rest => do
    let v ← exprOut e
    if whenTaken ar .code false operand v = some true then exprOut r else whensOut operand rest
end

end

/-! ## Without a fault -/

theorem toOption_bind {α β : Type} (x : Except CodeFault α) (f : α → Except CodeFault β) :
    (x >>= f).toOption = x.toOption.bind fun a => (f a).toOption := by
  cases x <;> rfl

theorem toOption_orStop (o : Op) (xs : List Val) (v : Option Val) : (orStop o xs v).toOption = v := by
  cases v <;> rfl

theorem bind_eq_error {α β : Type} {x : Except CodeFault α} {f : α → Except CodeFault β} {e : CodeFault} :
    x >>= f = .error e ↔ x = .error e ∨ ∃ a, x = .ok a ∧ f a = .error e := by
  cases x with
  | error e' =>
    constructor
    · intro h
      cases h
      exact .inl rfl
    · intro h
      obtain h | ⟨_, h, _⟩ := h
      · cases h
        rfl
      · cases h
  | ok a =>
    constructor
    · intro h
      exact .inr ⟨a, rfl, h⟩
    · intro h
      obtain h | ⟨_, h, h'⟩ := h
      · cases h
      · cases h
        exact h'

theorem bind_eq_ok {α β : Type} {x : Except CodeFault α} {f : α → Except CodeFault β} {b : β} :
    x >>= f = .ok b ↔ ∃ a, x = .ok a ∧ f a = .ok b := by
  cases x with
  | error e => exact ⟨fun h => (by cases h), fun ⟨_, h, _⟩ => (by cases h)⟩
  | ok a =>
    constructor
    · intro h
      exact ⟨a, rfl, h⟩
    · intro ⟨_, h, h'⟩
      cases h
      exact h'

theorem orStop_eq_ok {o : Op} {xs : List Val} {v : Option Val} {w : Val} :
    orStop o xs v = .ok w ↔ v = some w := by
  cases v with
  | none => exact ⟨fun h => (by cases h), fun h => (by cases h)⟩
  | some v => exact ⟨fun h => (by cases h; rfl), fun h => (by cases h; rfl)⟩

theorem orStop_eq_error {o : Op} {xs : List Val} {v : Option Val} {e : CodeFault} :
    orStop o xs v = .error e ↔ v = none ∧ e = .stop o xs := by
  cases v with
  | none => exact ⟨fun h => by cases h; exact ⟨rfl, rfl⟩, fun h => by rw [h.2]; rfl⟩
  | some v => exact ⟨fun h => (by cases h), fun h => (by cases h.1)⟩

section
variable {L : Type} {ar : Arith L} {env : Env} {g : Gen}

theorem exprOut_uminus_lit {op : Lit} {token : Bytes} (h : op ≠ .string) :
    exprOut ar env g (.uminus (.lit op token)) = .ok (negLitVal op token) := by
  cases op with
  | string => exact absurd rfl h
  | _ => rw [exprOut]

theorem exprOut_uminus {left : Expr} (h : ∀ op token, left = .lit op token → op = .string) :
    exprOut ar env g (.uminus left) = exprOut ar env g left >>= fun v => .ok (opNegative ar v) := by
  rw [exprOut]
  · exact fun token hl => by cases h _ _ hl
  · exact fun token hl => by cases h _ _ hl

/-- The test of a WHEN in the code does not depend on the types. -/
theorem whenTaken_text (text : Bool) (operand : Option Val) (v : Val) :
    whenTaken ar .code text operand v = some (decide (whenTaken ar .code false operand v = some true)) := by
  cases operand with
  | none => simp [whenTaken]
  | some x => simp [whenTaken, Sem.pick]

mutual
/-- **The code's reading has the value, if there is one.** -/
theorem exprValue_eq : (e : Expr) → exprValue ar env g .code e = (exprOut ar env g e).toOption
  | .column _ _ _ _ | .lit _ _ | .null | .variable_ _ | .aggFunction _ _ | .select _ _ | .raise _ _ => by
    unfold exprValue exprOut
    rfl
  | .arith op left right => by
    unfold exprValue exprOut
    simp only [exprValue_eq left, exprValue_eq right, toOption_bind, toOption_orStop, Option.bind_eq_bind]
  | .and left right | .or left right | .concat left right | .compare op left right => by
    unfold exprValue exprOut
    simp only [exprValue_eq left, exprValue_eq right, toOption_bind, Option.bind_eq_bind]
    rfl
  | .bit op left right => by
    cases op <;>
    · unfold exprValue exprOut
      simp only [exprValue_eq left, exprValue_eq right, toOption_bind, toOption_orStop, Option.bind_eq_bind]
      rfl
  | .uminus left => by
    rcases number_or left with ⟨op, token, hop, rfl⟩ | hl
    · rw [exprValue_uminus_lit hop, exprOut_uminus_lit hop]
      rfl
    · rw [exprValue_uminus hl, exprOut_uminus hl, toOption_bind, exprValue_eq left, Option.map_eq_bind]
      rfl
  | .bitNot left | .not left => by
    unfold exprValue exprOut
    simp only [exprValue_eq left, toOption_bind, toOption_orStop]
    rfl
  | .isNull left | .notNull left => by
    unfold exprValue exprOut
    rw [exprValue_eq left, toOption_bind, Option.map_eq_bind]
    rfl
  | .uplus left | .as_ left => by
    unfold exprValue exprOut
    exact exprValue_eq left
  | .function fn list => by
    unfold exprValue exprOut
    simp only [exprsValue_eq list, toOption_bind, toOption_orStop, Option.bind_eq_bind]
  | .in_ left pSelect iTable => by
    unfold exprValue exprOut
    rw [exprValue_eq left, toOption_bind]
    refine congrArg _ (funext fun v => ?_)
    cases v.isNull <;> rfl
  | .between left lo hi => by
    unfold exprValue exprOut
    simp only [exprValue_eq left, exprValue_eq lo, exprValue_eq hi, toOption_bind, Option.bind_eq_bind]
    rfl
  | .case_ list => by
    unfold exprValue exprOut
    exact whensValue_eq list
  | .caseOf left list => by
    unfold exprValue exprOut
    rw [exprValue_eq left, toOption_bind]
    exact congrArg _ (funext fun x => whensValue_eq list)

theorem exprsValue_eq : (es : Exprs) → exprsValue ar env g .code es = (exprsOut ar env g es).toOption
  | .nil => by
    unfold exprsValue exprsOut
    rfl
  | .cons e es => by
    unfold exprsValue exprsOut
    simp only [exprValue_eq e, exprsValue_eq es, toOption_bind, Option.bind_eq_bind]
    rfl

theorem whensValue_eq {text : Expr → Bool} {operand : Option Val} : (w : Whens) →
    whensValue ar env g .code text operand w = (whensOut ar env g operand w).toOption
  | .noElse => by
    unfold whensValue whensOut
    rfl
  | .orElse right => by
    unfold whensValue whensOut
    exact exprValue_eq right
  | .when e r rest => by
    unfold whensValue whensOut
    rw [exprValue_eq e, toOption_bind]
    refine congrArg _ (funext fun v => ?_)
    rw [whenTaken_text (text e), Option.bind_eq_bind, Option.bind_some, exprValue_eq r, whensValue_eq rest]
    by_cases h : whenTaken ar .code false operand v = some true <;> simp [h]
end

theorem exprValue_of_ok {e : Expr} {v : Val} (h : exprOut ar env g e = .ok v) :
    exprValue ar env g .code e = some v := by
  rw [exprValue_eq, h]
  rfl

end

/-! ## The run to a fault -/

section
variable {L : Type} (ar : Arith L) (env : Env) (g : Gen) (prog : Nat → Option Op)

/-- The machine has met the fault. A stray entry is not seen where it is left. -/
def Faulted (f : CodeFault) (t : Nat × List Val) : Prop :=
  match f with
  | .stop o xs => prog t.1 = some o ∧ Stack.exec ar env o t = none ∧ t.2.take o.pops = xs
  | .ignore => g.ignoreJump = some t.1
  | .stray => True

/-- The code of `e`, wherever it stands, comes to the fault that `exprOut` says. -/
def Faults (e : Expr) : Prop :=
  ∀ (a : Nat) (st : List Val) (f : CodeFault), CodeAt prog a (exprCode g a e) → exprOut ar env g e = .error f →
    Ends (Stack.exec ar env) prog (Faulted ar env g prog f) (a, st)

/-- So does the code of the arguments of a function. -/
def ExprsFault (es : Exprs) : Prop :=
  ∀ (a : Nat) (st : List Val) (f : CodeFault), CodeAt prog a (exprsCode g a es) → exprsOut ar env g es = .error f →
    Ends (Stack.exec ar env) prog (Faulted ar env g prog f) (a, st)

/-- And that of the list of a CASE. -/
def WhensFault (w : Whens) : Prop :=
  ∀ (operand : Option Val) (a b : Nat) (st : List Val) (f : CodeFault),
    CodeAt prog a (whensCode g operand.isSome a b w) → a + whensLen g operand.isSome w = b →
    whensOut ar env g operand w = .error f →
    Ends (Stack.exec ar env) prog (Faulted ar env g prog f) (a, operand.toList ++ st)

end

section
variable {L : Type} {ar : Arith L} {env : Env} {g : Gen} {prog : Nat → Option Op} {exit : Nat → Prop}

/-- An expression without a fault. -/
theorem Faults.of_ok {e : Expr} {v : Val} (h : exprOut ar env g e = .ok v) : Faults ar env g prog e :=
  fun a st f _ he => by
    rw [h] at he
    cases he

theorem Faults.unary {e left : Expr} {o : Op} {f : Val → Option Val} (h : IsUnary ar env g e left o f)
    (hout : exprOut ar env g e = exprOut ar env g left >>= fun x => orStop o [x] (f x))
    (hl : Compiled ar env g prog exit left) (hfl : Faults ar env g prog left) : Faults ar env g prog e := by
  intro a st φ hc he
  rw [h.code] at hc
  rw [hout, bind_eq_error] at he
  obtain he | ⟨x, hx, he⟩ := he
  · exact hfl a st φ hc.left he
  · obtain ⟨hn, rfl⟩ := orStop_eq_error.1 he
    refine Ends.trans (hl.runs hc.left (exprValue_of_ok hx)) (.here ⟨?_, ?_, ?_⟩)
    · exact (hc.after (by rw [exprCode_length])).head
    · rw [h.exec, hn]
      rfl
    · rw [h.shape.1]
      rfl

theorem Faults.binary {e left right : Expr} {o : Op} {f : Val → Val → Option Val}
    (h : IsBinary ar env g e left right o f)
    (hout : exprOut ar env g e =
      exprOut ar env g left >>= fun x => exprOut ar env g right >>= fun y => orStop o [y, x] (f x y))
    (hl : Compiled ar env g prog exit left) (hr : Compiled ar env g prog exit right)
    (hfl : Faults ar env g prog left) (hfr : Faults ar env g prog right) : Faults ar env g prog e := by
  intro a st φ hc he
  rw [h.code] at hc
  rw [hout, bind_eq_error] at he
  have hcr := hc.left.after (b := a + exprLen g left) (by rw [exprCode_length])
  obtain he | ⟨x, hx, he⟩ := he
  · exact hfl a st φ hc.left.left he
  · refine Ends.trans (hl.runs hc.left.left (exprValue_of_ok hx)) ?_
    obtain he | ⟨y, hy, he⟩ := bind_eq_error.1 he
    · exact hfr _ _ φ hcr he
    · obtain ⟨hn, rfl⟩ := orStop_eq_error.1 he
      refine Ends.trans (hr.runs hcr (exprValue_of_ok hy)) (.here ⟨?_, ?_, ?_⟩)
      · exact (hc.after (by simp [exprCode_length, Nat.add_assoc])).head
      · rw [h.exec, hn]
        rfl
      · rw [h.shape.1]
        rfl

/-- A fault of the operand, after opcodes that come before its code. -/
theorem Faults.test {e left : Expr} {o : Nat → Op} {test : Val → Bool} (h : IsTest ar env g e left o test)
    (hout : exprOut ar env g e = exprOut ar env g left >>= fun v => .ok (.ofTruth (some (test v))))
    (hfl : Faults ar env g prog left) : Faults ar env g prog e := by
  intro a st φ hc he
  rw [h.code] at hc
  rw [hout, bind_eq_error] at he
  obtain he | ⟨x, _, he⟩ := he
  · exact .op hc.left.left.head rfl (hfl _ _ φ hc.left.tail he)
  · cases he

theorem Faults.in_ {left : Expr} {pSelect : Bool} {iTable : Nat} (hfl : Faults ar env g prog left) :
    Faults ar env g prog (.in_ left pSelect iTable) := by
  intro a st φ hc he
  rw [exprCode] at hc
  rw [exprOut, bind_eq_error] at he
  obtain he | ⟨x, _, he⟩ := he
  · exact .op hc.left.left.head rfl (hfl _ _ φ hc.left.tail he)
  · cases hn : x.isNull with
    | true =>
      rw [hn] at he
      cases he
      exact .here trivial
    | false =>
      rw [hn] at he
      cases he

theorem Faults.between {left lo hi : Expr} (hv : Compiled ar env g prog exit left)
    (hl : Compiled ar env g prog exit lo) (hfv : Faults ar env g prog left) (hfl : Faults ar env g prog lo)
    (hfh : Faults ar env g prog hi) : Faults ar env g prog (.between left lo hi) := by
  intro a st φ hc he
  obtain ⟨hcv, hd, hcl, hge, hch, -⟩ := between_code hc
  rw [exprOut, bind_eq_error] at he
  obtain he | ⟨x, hx, he⟩ := he
  · exact hfv a st φ hcv he
  · refine Ends.trans (hv.runs hcv (exprValue_of_ok hx)) (.op hd.head rfl ?_)
    obtain he | ⟨va, ha, he⟩ := bind_eq_error.1 he
    · exact hfl _ _ φ hcl he
    · refine Ends.trans (hl.runs hcl (exprValue_of_ok ha)) (.op hge.head rfl (.op hge.tail.head rfl ?_))
      obtain he | ⟨vb, _, he⟩ := bind_eq_error.1 he
      · exact hfh _ _ φ hch he
      · cases he

theorem Faults.function {fn : Fn} {list : Exprs} (hl : ExprsCompiled ar env g prog exit list)
    (hfl : ExprsFault ar env g prog list) : Faults ar env g prog (.function fn list) := by
  intro a st φ hc he
  rw [exprCode] at hc
  rw [exprOut, bind_eq_error] at he
  obtain he | ⟨vs, hvs, he⟩ := he
  · exact hfl a st φ hc.left he
  · obtain ⟨hn, rfl⟩ := orStop_eq_error.1 he
    have hvalue : exprsValue ar env g .code list = some vs := by
      rw [exprsValue_eq, hvs]
      rfl
    have hlen := exprsValue_length list hvalue
    refine Ends.trans (hl.runs hc.left hvalue) (.here ⟨?_, ?_, ?_⟩)
    · exact (hc.after (by rw [exprsCode_length])).head
    · rw [Stack.exec, if_pos (by simp [hlen]), List.take_left' (by simp [hlen]), List.map_reverse,
        List.map_reverse, List.reverse_reverse, hn]
      rfl
    · exact List.take_left' (by simp [hlen, Op.pops])

theorem Faults.raise {onError : Oe} {msg : Bytes} (hg : g.ignoreJump.isSome) :
    Faults ar env g prog (.raise onError msg) := by
  intro a st φ hc he
  obtain ⟨j, hj⟩ := Option.isSome_iff_exists.1 hg
  rw [exprCode, raiseCode, hj] at hc
  rw [exprOut] at he
  cases he
  unfold raiseFault
  dsimp only at hc
  split at hc
  · rename_i herr
    rw [if_pos herr]
    exact .here ⟨hc.head, rfl, rfl⟩
  · rename_i herr
    rw [if_neg herr]
    exact .op hc.head rfl (.here hj)

theorem Faults.case_ {list : Whens} (hfl : WhensFault ar env g prog list) :
    Faults ar env g prog (.case_ list) := by
  intro a st φ hc he
  rw [exprCode] at hc
  rw [exprOut] at he
  exact hfl none a _ st φ hc rfl he

theorem Faults.caseOf {left : Expr} {list : Whens} (hl : Compiled ar env g prog exit left)
    (hfl : Faults ar env g prog left) (hfw : WhensFault ar env g prog list) :
    Faults ar env g prog (.caseOf left list) := by
  intro a st φ hc he
  rw [exprCode] at hc
  rw [exprOut, bind_eq_error] at he
  obtain he | ⟨x, hx, he⟩ := he
  · exact hfl a st φ hc.left he
  · refine Ends.trans (hl.runs hc.left (exprValue_of_ok hx)) ?_
    exact hfw (some x) _ _ st φ (hc.after (by rw [exprCode_length])) rfl he

theorem WhensFault.orElse {right : Expr} (hfr : Faults ar env g prog right) :
    WhensFault ar env g prog (.orElse right) := by
  intro operand a b st φ hc _ he
  rw [whensCode] at hc
  rw [whensOut] at he
  cases operand with
  | none => exact hfr a st φ hc he
  | some x => exact .op hc.head rfl (hfr _ st φ hc.tail he)

theorem WhensFault.when {e r : Expr} {rest : Whens} (he : Compiled ar env g prog exit e)
    (hfe : Faults ar env g prog e) (hfr : Faults ar env g prog r) (hfw : WhensFault ar env g prog rest) :
    WhensFault ar env g prog (.when e r rest) := by
  intro operand a b st φ hc hb h
  obtain ⟨hce, htest, hcr, -, hcrest⟩ := when_code hc
  rw [whensOut, bind_eq_error] at h
  obtain h | ⟨x, hx, h⟩ := h
  · exact hfe a _ φ hce h
  · refine Ends.trans (he.runs hce (exprValue_of_ok hx)) ?_
    obtain ⟨taken, ht⟩ := whenTaken_code ar false operand x
    refine Ends.trans (when_test htest (Nat.succ_ne_zero _) ht) ?_
    rw [ht] at h
    cases taken with
    | true =>
      rw [if_pos rfl] at h
      exact hfr _ st φ hcr h
    | false =>
      rw [if_neg (by decide)] at h
      exact hfw operand _ b st φ hcrest (when_end hb) h

mutual
/-- **The code of every expression that compiles comes to the fault.** -/
theorem exprCode_faults (hx : Exits g prog exit) :
    (e : Expr) → compiles g e = true → Faults ar env g prog e
  | .column _ _ _ _, _ | .lit _ _, _ | .null, _ | .variable_ _, _ | .aggFunction _ _, _ | .select _ _, _ =>
    .of_ok (by rw [exprOut])
  | .arith op left right, h => by
    rw [compiles, Bool.and_eq_true] at h
    exact .binary (isBinary_arith ar env g op left right) (by rw [exprOut]) (compiled hx left h.1)
      (compiled hx right h.2) (exprCode_faults hx left h.1) (exprCode_faults hx right h.2)
  | .bit op left right, h => by
    rw [compiles, Bool.and_eq_true] at h
    obtain ⟨hshift, hbits⟩ := isBinary_bit ar env g op left right
    have hl : Compiled ar env g prog exit left := compiled hx left h.1
    have hr : Compiled ar env g prog exit right := compiled hx right h.2
    have hfl := exprCode_faults hx left h.1
    have hfr := exprCode_faults hx right h.2
    cases op with
    | shiftLeft => exact .binary (hshift (.inl rfl)) (by rw [exprOut]) hr hl hfr hfl
    | shiftRight => exact .binary (hshift (.inr rfl)) (by rw [exprOut]) hr hl hfr hfl
    | bitAnd => exact .binary (hbits (.inl rfl)) (by rw [exprOut] <;> simp) hl hr hfl hfr
    | bitOr => exact .binary (hbits (.inr rfl)) (by rw [exprOut] <;> simp) hl hr hfl hfr
  | .and left right, h => by
    rw [compiles, Bool.and_eq_true] at h
    refine .binary (isBinary_and ar env g left right) ?_ (compiled hx left h.1) (compiled hx right h.2)
      (exprCode_faults hx left h.1) (exprCode_faults hx right h.2)
    simp only [opAnd_eq]
    rw [exprOut]
    rfl
  | .or left right, h => by
    rw [compiles, Bool.and_eq_true] at h
    refine .binary (isBinary_or ar env g left right) ?_ (compiled hx left h.1) (compiled hx right h.2)
      (exprCode_faults hx left h.1) (exprCode_faults hx right h.2)
    simp only [opOr_eq]
    rw [exprOut]
    rfl
  | .concat left right, h => by
    rw [compiles, Bool.and_eq_true] at h
    exact .binary (isBinary_concat ar env g left right) (by rw [exprOut]; rfl) (compiled hx left h.1)
      (compiled hx right h.2) (exprCode_faults hx left h.1) (exprCode_faults hx right h.2)
  | .compare op left right, h => by
    rw [compiles, Bool.and_eq_true, Bool.and_eq_true] at h
    exact .binary (isBinary_compare ar env g op left right) (by rw [exprOut]; rfl) (compiled hx left h.1.2)
      (compiled hx right h.2) (exprCode_faults hx left h.1.2) (exprCode_faults hx right h.2)
  | .uminus left, h => by
    rw [compiles] at h
    rcases number_or left with ⟨op, token, hop, rfl⟩ | hl
    · exact .of_ok (exprOut_uminus_lit hop)
    · exact .unary (isUnary_uminus ar env g hl) (exprOut_uminus hl) (compiled hx left h)
        (exprCode_faults hx left h)
  | .bitNot left, h => by
    rw [compiles] at h
    exact .unary (isUnary_bitNot ar env g left) (by rw [exprOut]) (compiled hx left h) (exprCode_faults hx left h)
  | .not left, h => by
    rw [compiles] at h
    exact .unary (isUnary_not ar env g left) (by rw [exprOut]) (compiled hx left h) (exprCode_faults hx left h)
  | .uplus left, h | .as_ left, h => fun a st φ hc he => by
    rw [compiles] at h
    rw [exprCode] at hc
    rw [exprOut] at he
    exact exprCode_faults hx left h a st φ hc he
  | .isNull left, h => by
    rw [compiles] at h
    exact .test (isTest_isNull ar env g left) (by rw [exprOut]) (exprCode_faults hx left h)
  | .notNull left, h => by
    rw [compiles] at h
    exact .test (isTest_notNull ar env g left) (by rw [exprOut]) (exprCode_faults hx left h)
  | .function fn list, h => by
    rw [compiles] at h
    exact .function (exprsCompiled hx list h) (exprsCode_faults hx list h)
  | .in_ left pSelect iTable, h => by
    rw [compiles] at h
    exact .in_ (exprCode_faults hx left h)
  | .between left lo hi, h => by
    rw [compiles, Bool.and_eq_true, Bool.and_eq_true] at h
    exact .between (compiled hx left h.1.1) (compiled hx lo h.1.2) (exprCode_faults hx left h.1.1)
      (exprCode_faults hx lo h.1.2) (exprCode_faults hx hi h.2)
  | .case_ list, h => by
    rw [compiles] at h
    exact .case_ (whensCode_faults hx list h)
  | .caseOf left list, h => by
    rw [compiles, Bool.and_eq_true] at h
    exact .caseOf (compiled hx left h.1) (exprCode_faults hx left h.1) (whensCode_faults hx list h.2)
  | .raise _ _, h => by
    rw [compiles] at h
    exact .raise h

theorem exprsCode_faults (hx : Exits g prog exit) :
    (es : Exprs) → exprsCompile g es = true → ExprsFault ar env g prog es
  | .nil, _ => fun a st φ _ he => by
    rw [exprsOut] at he
    cases he
  | .cons e es, h => fun a st φ hc he => by
    rw [exprsCompile, Bool.and_eq_true] at h
    rw [exprsCode] at hc
    rw [exprsOut, bind_eq_error] at he
    obtain he | ⟨x, hx', he⟩ := he
    · exact exprCode_faults hx e h.1 a st φ hc.left he
    · refine Ends.trans ((compiled hx e h.1).runs hc.left (exprValue_of_ok hx')) ?_
      obtain he | ⟨xs, _, he⟩ := bind_eq_error.1 he
      · exact exprsCode_faults hx es h.2 _ _ φ (hc.after (by rw [exprCode_length])) he
      · cases he

theorem whensCode_faults (hx : Exits g prog exit) :
    (w : Whens) → whensCompile g w = true → WhensFault ar env g prog w
  | .noElse, _ => fun operand a b st φ _ _ he => by
    rw [whensOut] at he
    cases he
  | .orElse right, h => by
    rw [whensCompile] at h
    exact .orElse (exprCode_faults hx right h)
  | .when e r rest, h => by
    rw [whensCompile, Bool.and_eq_true, Bool.and_eq_true] at h
    exact .when (compiled hx e h.1.1) (exprCode_faults hx e h.1.1) (exprCode_faults hx r h.1.2)
      (whensCode_faults hx rest h.2)
end

end
end Dbsql.L5
