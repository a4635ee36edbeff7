import Dbsql.Core.Block
import Dbsql.L1Encoding.Codes
import Dbsql.L3Vdbe.Value
/-!
# The stack machine of expressions (vdbe.c)

The opcodes that `__expr_code` emits, over the stack with its top first. What they read
besides the stack (rows, memory cells, aggregates, variables, sets, functions) is the same
throughout an expression and is an argument (`Env`). An opcode that ends the program with an
error, traps, or fails an assertion has no next state.

Results:
* `exec_effect`: each opcode changes the depth of the stack by a fixed amount, and goes on
  at the next address or at its P2.
-/
namespace Dbsql.L3.Stack
open Dbsql.Core Dbsql.L1

/-- What an expression reads. -/
structure Env where
  /-- `OP_Column` -/
  column : Nat → Nat → Val
  /-- `OP_Recno` -/
  recno : Nat → Val
  /-- the cells of the current aggregate -/
  aggMem : Nat → Val
  /-- `p->aMem` -/
  aMem : Nat → Val
  /-- `p->azVar`, each text with its terminator -/
  azVar : Nat → Option Bytes
  /-- `(*pFunc->xFunc)`; none where it reports an error -/
  xFunc : Bytes → List (Option Bytes) → Option Val
  /-- whether a set holds a text -/
  aSet : Nat → Bytes → Bool
  /-- whether `__sm_moveto` reports a hit in a table -/
  found : Nat → Bytes → Bool

/-- Nothing to read: NULL everywhere, no function, and empty sets. -/
def emptyEnv : Env where
  column _ _ := .null
  recno _ := .null
  aggMem _ := .null
  aMem _ := .null
  azVar _ := none
  xFunc _ _ := none
  aSet _ _ := false
  found _ _ := false

inductive Op
  | integer (p1 : CInt) (p3 : Option Bytes)
  | string (p3 : Option Bytes)
  | variable_ (p1 : Nat)
  | column (p1 p2 : Nat)
  | recno (p1 : Nat)
  | aggGet (p2 : Nat)
  | memLoad (p1 : Nat)
  | pop (p1 : Nat)
  | dup (p1 : Nat)
  | pull (p1 : Nat)
  | concat
  | arith (op : ArithOp)
  | bit (op : BitOp)
  | function (p1 : Nat) (p3 : Bytes)
  | addImm (p1 : CInt)
  /-- `OP_Eq` … `OP_Ge`, and `OP_StrEq` … `OP_StrGe` with `text` -/
  | cmp (text : Bool) (op : Cmp) (p1 : Bool) (p2 : Nat)
  | and
  | or
  | negative
  | not
  | bitNot
  | if_ (p1 : Bool) (p2 : Nat)
  | ifNot (p1 : Bool) (p2 : Nat)
  /-- `OP_IsNull` with P1 1 -/
  | isNull (p2 : Nat)
  /-- `OP_NotNull` with P1 1, and with P1 -1 when `keep` -/
  | notNull (keep : Bool) (p2 : Nat)
  | goto (p2 : Nat)
  /-- `OP_Found`, and `OP_NotFound` with `neg` -/
  | found (neg : Bool) (p1 p2 : Nat)
  /-- `OP_SetFound`, and `OP_SetNotFound` with `neg` -/
  | setFound (neg : Bool) (p1 p2 : Nat)
  | halt (p1 : Rc) (p2 : Oe) (p3 : Bytes)
  deriving DecidableEq, Repr

/-- A text with its terminator. -/
def nulTerm (p3 : Bytes) : Bytes := p3 ++ [0]

/-- What a text P3 or its absence pushes. -/
def stringVal (p3 : Option Bytes) : Val :=
  match p3 with
  | none => .null
  | some z => .str (nulTerm z)

/-- What `OP_Variable` pushes. -/
def variableVal (env : Env) (p1 : Nat) : Val :=
  match if p1 = 0 then none else env.azVar (p1 - 1) with
  | none => .null
  | some z => .str z

/-- `OP_AddImm` of an entry. -/
def addImmVal {L : Type} (ar : Arith L) (p1 : CInt) (tos : Val) : Val :=
  match tos with
  | .int i z => .int (i + p1) z
  | v => .int (v.toInt ar + p1) none

section
variable {L : Type} (ar : Arith L) (env : Env)

/-- Whether `OP_If`, or `OP_IfNot` with `neg`, jumps (vdbe.c:1921-1938). -/
def ifJumps (neg p1 : Bool) (tos : Val) : Bool :=
  match tos.truth ar with
  | none => p1
  | some b => if neg then !b else b

/-- Whether a comparison with P2 jumps. -/
def cmpJumps (p1 : Bool) : Option Bool → Bool
  | none => p1
  | some b => b

/-- One opcode: the next address and stack. -/
def exec : Op → Nat × List Val → Option (Nat × List Val)
  | .integer p1 p3, (pc, st) => some (pc + 1, .int p1 (p3.map nulTerm) :: st)
  | .string p3, (pc, st) => some (pc + 1, stringVal p3 :: st)
  | .variable_ p1, (pc, st) => some (pc + 1, variableVal env p1 :: st)
  | .column p1 p2, (pc, st) => some (pc + 1, env.column p1 p2 :: st)
  | .recno p1, (pc, st) => some (pc + 1, env.recno p1 :: st)
  | .aggGet p2, (pc, st) => some (pc + 1, env.aggMem p2 :: st)
  | .memLoad p1, (pc, st) => some (pc + 1, env.aMem p1 :: st)
  | .pop p1, (pc, st) => if p1 ≤ st.length then some (pc + 1, st.drop p1) else none
  | .dup p1, (pc, st) => st[p1]?.map fun v => (pc + 1, v :: st)
  | .pull p1, (pc, st) => st[p1]?.map fun v => (pc + 1, v :: st.eraseIdx p1)
  | .concat, (pc, tos :: nos :: st) => some (pc + 1, opConcat nos tos :: st)
  | .arith op, (pc, tos :: nos :: st) => (opArith ar op nos tos).map fun v => (pc + 1, v :: st)
  | .bit op, (pc, tos :: nos :: st) => (opBit ar true op nos tos).map fun v => (pc + 1, v :: st)
  | .function p1 p3, (pc, st) =>
    if p1 ≤ st.length then
      (env.xFunc p3 ((st.take p1).reverse.map Val.arg)).map fun v => (pc + 1, v :: st.drop p1)
    else none
  | .addImm p1, (pc, tos :: st) => some (pc + 1, addImmVal ar p1 tos :: st)
  | .cmp text op p1 p2, (pc, tos :: nos :: st) =>
    let b := compare3 ar text op nos tos
    if p2 = 0 then some (pc + 1, .ofTruth b :: st)
    else some (if cmpJumps p1 b then p2 else pc + 1, st)
  | .and, (pc, tos :: nos :: st) => some (pc + 1, opAnd ar nos tos :: st)
  | .or, (pc, tos :: nos :: st) => some (pc + 1, opOr ar nos tos :: st)
  | .negative, (pc, tos :: st) => some (pc + 1, opNegative ar tos :: st)
  | .not, (pc, tos :: st) => (opNot ar true tos).map fun v => (pc + 1, v :: st)
  | .bitNot, (pc, tos :: st) => (opBitNot ar true tos).map fun v => (pc + 1, v :: st)
  | .if_ p1 p2, (pc, tos :: st) => some (if ifJumps ar false p1 tos then p2 else pc + 1, st)
  | .ifNot p1 p2, (pc, tos :: st) => some (if ifJumps ar true p1 tos then p2 else pc + 1, st)
  | .isNull p2, (pc, tos :: st) => some (if tos.isNull then p2 else pc + 1, st)
  | .notNull keep p2, (pc, tos :: st) =>
    some (if tos.isNull then pc + 1 else p2, if keep then tos :: st else st)
  | .goto p2, (_, st) => some (p2, st)
  | .found neg p1 p2, (pc, tos :: st) =>
    some (if env.found p1 tos.text != neg then p2 else pc + 1, st)
  | .setFound neg p1 p2, (pc, tos :: st) =>
    some (if env.aSet p1 tos.text != neg then p2 else pc + 1, st)
  | _, _ => none

end

/-! ## Depth -/

/-- The entries an opcode takes off the stack. -/
def Op.pops : Op → Nat
  | .integer _ _ | .string _ | .variable_ _ | .column _ _ | .recno _ | .aggGet _ | .memLoad _
  | .dup _ | .goto _ | .halt _ _ _ => 0
  | .pull _ | .addImm _ | .negative | .not | .bitNot | .if_ _ _ | .ifNot _ _ | .isNull _
  | .notNull _ _ | .found _ _ _ | .setFound _ _ _ => 1
  | .concat | .arith _ | .bit _ | .cmp _ _ _ _ | .and | .or => 2
  | .pop p1 | .function p1 _ => p1

/-- The entries it puts on the stack. -/
def Op.pushes : Op → Nat
  | .pop _ | .if_ _ _ | .ifNot _ _ | .isNull _ | .goto _ | .found _ _ _ | .setFound _ _ _
  | .halt _ _ _ => 0
  | .notNull keep _ => if keep then 1 else 0
  | .cmp _ _ _ p2 => if p2 = 0 then 1 else 0
  | _ => 1

/-- Where it may jump. -/
def Op.target : Op → Option Nat
  | .cmp _ _ _ p2 => if p2 = 0 then none else some p2
  | .if_ _ p2 | .ifNot _ p2 | .isNull p2 | .notNull _ p2 | .goto p2 | .found _ _ p2
  | .setFound _ _ p2 => some p2
  | _ => none

section
variable {L : Type} {ar : Arith L} {env : Env}

/-- A comparison with P2. -/
theorem exec_cmp_jump {text p1 : Bool} {op : Cmp} {p2 pc : Nat} {tos nos : Val} {st : List Val}
    (h : p2 ≠ 0) : exec ar env (.cmp text op p1 p2) (pc, tos :: nos :: st) =
      some (if cmpJumps p1 (compare3 ar text op nos tos) then p2 else pc + 1, st) := by
  rw [exec, if_neg h]

/-- How an opcode changes the depth, and where it goes on. -/
theorem exec_effect {o : Op} {pc : Nat} {st : List Val} {t : Nat × List Val}
    (h : exec ar env o (pc, st) = some t) :
    t.2.length + o.pops = st.length + o.pushes ∧ (t.1 = pc + 1 ∨ some t.1 = o.target) := by
  cases o with
  | integer | string | variable_ | column | recno | aggGet | memLoad =>
    cases h
    simp [Op.pops, Op.pushes]
  | pop p1 =>
    simp only [exec, Option.ite_none_right_eq_some, Option.some.injEq] at h
    obtain ⟨hp, rfl⟩ := h
    simp [Op.pops, Op.pushes]
    omega
  | dup p1 =>
    simp only [exec, Option.map_eq_some_iff] at h
    obtain ⟨v, -, rfl⟩ := h
    simp [Op.pops, Op.pushes]
  | pull p1 =>
    simp only [exec, Option.map_eq_some_iff] at h
    obtain ⟨v, hv, rfl⟩ := h
    obtain ⟨hlt, -⟩ := List.getElem?_eq_some_iff.1 hv
    simp [Op.pops, Op.pushes, List.length_eraseIdx, hlt]
    omega
  | function p1 p3 =>
    simp only [exec, Option.ite_none_right_eq_some, Option.map_eq_some_iff] at h
    obtain ⟨hp, v, -, rfl⟩ := h
    simp [Op.pops, Op.pushes]
    omega
  | goto p2 =>
    cases h
    simp [Op.pops, Op.pushes, Op.target]
  | halt => cases h
  | concat | and | or =>
    rcases st with _ | ⟨tos, _ | ⟨nos, st⟩⟩ <;> cases h
    simp [Op.pops, Op.pushes]
  | arith op | bit op =>
    rcases st with _ | ⟨tos, _ | ⟨nos, st⟩⟩
    · cases h
    · cases h
    · simp only [exec, Option.map_eq_some_iff] at h
      obtain ⟨v, -, rfl⟩ := h
      simp [Op.pops, Op.pushes]
  | cmp text op p1 p2 =>
    rcases st with _ | ⟨tos, _ | ⟨nos, st⟩⟩
    · cases h
    · cases h
    · simp only [exec] at h
      split at h
      · rename_i hp
        cases h
        simp [Op.pops, Op.pushes, hp]
      · rename_i hp
        cases h
        refine ⟨by simp [Op.pops, Op.pushes, hp], ?_⟩
        dsimp only
        split
        · exact .inr (by simp [Op.target, hp])
        · exact .inl rfl
  | addImm | negative =>
    rcases st with _ | ⟨tos, st⟩ <;> cases h
    simp [Op.pops, Op.pushes]
  | not | bitNot =>
    rcases st with _ | ⟨tos, st⟩
    · cases h
    · simp only [exec, Option.map_eq_some_iff] at h
      obtain ⟨v, -, rfl⟩ := h
      simp [Op.pops, Op.pushes]
  | if_ | ifNot | isNull | found | setFound =>
    rcases st with _ | ⟨tos, st⟩ <;> cases h
    refine ⟨by simp [Op.pops, Op.pushes], ?_⟩
    dsimp only
    split
    · exact .inr rfl
    · exact .inl rfl
  | notNull keep p2 =>
    rcases st with _ | ⟨tos, st⟩ <;> cases h
    refine ⟨?_, ?_⟩
    · dsimp only
      cases keep <;> simp [Op.pops, Op.pushes]
    · dsimp only
      split
      · exact .inl rfl
      · exact .inr rfl

end
end Dbsql.L3.Stack
