import Dbsql.Core.ShiftReduce
import Mathlib.Algebra.Order.Ring.Nat
/-!
# The grammar lemon has read (lemon.c)

What `struct lemon` holds after the input file is parsed and the symbols are sorted and numbered:
`$` is 0, the tokens are below `nterminal`, the nonterminals below `nsymbol`, and `{default}` is
`nsymbol`. Symbols and rules are named by their index. The fields that say so are what `main`
(lemon.c:1378-1402) and the parser of the input file make true; the last two keep the lists that
are sorted below what `msort` can take.

`toGrammar` is the grammar that the rules write down. Everything later is compared with it.
-/
namespace Dbsql.L7
open Dbsql.Core

/-- `enum e_assoc` (lemon.c:152-157). -/
inductive Assoc
  | LEFT
  | RIGHT
  | NONE
  | UNK
  deriving DecidableEq

/-- `struct symbol` (lemon.c:143-171), what the construction of the tables reads of it. -/
structure Sym where
  name : String
  fallback : Option Nat
  prec : Int
  assoc : Assoc

/-- `struct rule` (lemon.c:175-190), what the construction reads of it. -/
structure Rule where
  lhs : Nat
  rhs : List Nat
  precsym : Option Nat

/-- `struct lemon` (lemon.c:257-299) when the tables are made. -/
structure Lemon where
  symbols : List Sym
  nterminal : Nat
  rules : List Rule
  start : Option String
  errsym : Nat
  nterminal_pos : 0 < nterminal
  nterminal_le : nterminal ≤ symbols.length
  lhs_nonterminal : ∀ r ∈ rules, nterminal ≤ r.lhs ∧ r.lhs < symbols.length
  rhs_symbol : ∀ r ∈ rules, ∀ x ∈ r.rhs, 0 < x ∧ x < symbols.length
  fallback_token : ∀ s ∈ symbols, ∀ x, s.fallback = some x → 0 < x ∧ x < nterminal
  rules_ne : rules ≠ []
  actions_small : symbols.length + rules.length * nterminal + 1 < 2 ^ 30
  items_small : (rules.map (fun r => r.rhs.length + 1)).sum < 2 ^ 30

namespace Lemon
variable (lemp : Lemon)

def nsymbol : Nat := lemp.symbols.length

def nrule : Nat := lemp.rules.length

/-- `sp->type==TERMINAL` of a symbol of a rule. -/
def isTerminal (x : Nat) : Bool := x < lemp.nterminal

/-- `Symbol_find` (lemon.c:4022-4036) on the numbered symbols. -/
def symbolFind (name : String) : Option Nat := lemp.symbols.findIdx? (·.name == name)

/-- The start symbol, as `FindStates` and `FindActions` find it (lemon.c:697-711, 938-943). -/
def startSymbol : Nat :=
  let first := (lemp.rules.head lemp.rules_ne).lhs
  (lemp.start.bind lemp.symbolFind).getD first

/-- `sp->rule`, linked by `nextlhs`: the rules of a nonterminal, the last one first. -/
def rulesOf (x : Nat) : List Nat :=
  ((List.range lemp.nrule).filter (fun i => (lemp.rules[i]?).any (·.lhs == x))).reverse

def prec (x : Nat) : Int := (lemp.symbols[x]?).elim (-1) Sym.prec

def assoc (x : Nat) : Assoc := (lemp.symbols[x]?).elim .UNK Sym.assoc

def fallback (x : Nat) : Option Nat := (lemp.symbols[x]?).bind Sym.fallback

/-- The symbol of the grammar with this number. -/
def toSymbol (x : Nat) : Symbol Nat Nat := if x < lemp.nterminal then .terminal x else .nonterminal x

def toRule (r : Rule) : ContextFreeRule Nat Nat := ⟨r.lhs, r.rhs.map lemp.toSymbol⟩

/-- The grammar the rules write down. -/
def toGrammar : ShiftReduce.Grammar Nat Nat := ⟨lemp.startSymbol, lemp.rules.map lemp.toRule⟩

/-! ## Symbols and rules by number -/

variable {lemp} {x y i : Nat} {r : Rule}

theorem toSymbol_terminal (h : x < lemp.nterminal) : lemp.toSymbol x = .terminal x := if_pos h

theorem toSymbol_nonterminal (h : lemp.nterminal ≤ x) : lemp.toSymbol x = .nonterminal x :=
  if_neg (Nat.not_lt.2 h)

theorem toSymbol_inj : lemp.toSymbol x = lemp.toSymbol y ↔ x = y := by
  unfold toSymbol
  constructor
  · intro h
    split at h <;> split at h <;> cases h <;> rfl
  · intro h
    rw [h]

theorem toSymbol_eq_nonterminal {a : Nat} : lemp.toSymbol x = .nonterminal a ↔ lemp.nterminal ≤ x ∧ x = a := by
  unfold toSymbol
  split
  next h => simp [h]
  next h => simp [Nat.not_lt.1 h]

@[simp] theorem toRule_input (r : Rule) : (lemp.toRule r).input = r.lhs := rfl

@[simp] theorem length_toRule_output (r : Rule) : (lemp.toRule r).output.length = r.rhs.length := by
  simp [toRule]

theorem toRule_output_getElem? (r : Rule) (k : Nat) :
    (lemp.toRule r).output[k]? = (r.rhs[k]?).map lemp.toSymbol := by
  simp [toRule]

@[simp] theorem toGrammar_initial : lemp.toGrammar.initial = lemp.startSymbol := rfl

theorem toGrammar_rules : lemp.toGrammar.rules[i]? = (lemp.rules[i]?).map lemp.toRule :=
  List.getElem?_map

theorem toGrammar_rule (h : lemp.rules[i]? = some r) : lemp.toGrammar.rules[i]? = some (lemp.toRule r) := by
  rw [toGrammar_rules, h]
  rfl

theorem of_toGrammar_rule {r' : ContextFreeRule Nat Nat} (h : lemp.toGrammar.rules[i]? = some r') :
    ∃ r, lemp.rules[i]? = some r ∧ r' = lemp.toRule r := by
  rw [toGrammar_rules, Option.map_eq_some_iff] at h
  obtain ⟨r, hr, rfl⟩ := h
  exact ⟨r, hr, rfl⟩

theorem mem_rulesOf : i ∈ lemp.rulesOf x ↔ ∃ r, lemp.rules[i]? = some r ∧ r.lhs = x := by
  unfold rulesOf
  rw [List.mem_reverse, List.mem_filter, List.mem_range]
  constructor
  · intro h
    cases hr : lemp.rules[i]? with
    | none => simp [hr] at h
    | some r => exact ⟨r, rfl, by simpa [hr] using h.2⟩
  · intro h
    obtain ⟨r, hr, rfl⟩ := h
    exact ⟨(List.getElem?_eq_some_iff.1 hr).1, by simp [hr]⟩

theorem rule_lt (h : lemp.rules[i]? = some r) : i < lemp.nrule := (List.getElem?_eq_some_iff.1 h).1

theorem rule_mem (h : lemp.rules[i]? = some r) : r ∈ lemp.rules := List.mem_of_getElem? h

end Lemon

/-- The precedence symbol `FindRulePrecedences` leaves in a rule (lemon.c:608-625). -/
def rulePrecedence (lemp : Lemon) (r : Rule) : Option Nat :=
  r.precsym.or (r.rhs.find? (fun x => 0 ≤ lemp.prec x))

end Dbsql.L7
