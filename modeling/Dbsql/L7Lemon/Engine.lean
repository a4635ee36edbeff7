import Dbsql.Core.Lts
import Mathlib.Data.List.Forall2
/-!
# The parser template (lempar.c)

The tables of a generated parser and the functions that run on them. An array that is read outside
its bounds, or the stack below its bottom, is `none`. The code a grammar attaches is a parameter:
`act` gives the value a rule's code leaves in `yygotominor`, from all that happened before, the
rule and the values on the stack. What the engine calls is kept in `log`, in order; `shift` is
there besides, as in the trace. The stack is a list with the top first, so that `yyidx` is its
length less one.

`yy_find_shift_action` calls itself on the fallback of a token. The calls are bounded by the number
of tokens: a longer chain comes back to a token it has seen and does not end, which is `none` too.
-/
namespace Dbsql.L7.Engine
open Dbsql.Core

/-- What `ReportTable` writes into the template. -/
structure Tables where
  YYNSTATE : Nat
  YYNRULE : Nat
  YYNOCODE : Nat
  YYSTACKDEPTH : Nat
  YYERRORSYMBOL : Nat
  YY_SHIFT_USE_DFLT : Int
  YY_REDUCE_USE_DFLT : Int
  yyAction : List Nat
  yyLookahead : List Nat
  yyShiftOfst : List Int
  yyReduceOfst : List Int
  yyDefault : List Nat
  yyFallback : List Nat
  yyRuleInfo : List (Nat × Nat)

/-- What a parser does that its caller or the code of the grammar can see. -/
inductive Event (M : Type)
  | shift (major : Nat) (minor : M)
  | reduce (yyruleno : Nat)
  | destructor (major : Nat) (minor : M)
  | syntaxError (major : Nat) (minor : M)
  | overflow
  | failure
  | accept
  deriving DecidableEq

/-- The code of the grammar: the values of the rules, `u2` with `YYERRSYMDT` zero, and what is in
a `minor` that nothing was stored in. -/
structure Code (M : Type) where
  act : List (Event M) → Nat → List M → M
  u2 : M
  junk : M

/-- `struct yyStackEntry` (lempar.c:161-167). -/
structure Entry (M : Type) where
  stateno : Nat
  major : Nat
  minor : M

/-- `struct yyParser` (lempar.c:172-177). -/
structure Parser (M : Type) where
  yystack : List (Entry M)
  yyerrcnt : Int
  log : List (Event M)

variable {M : Type} (t : Tables) (c : Code M)

def Tables.YY_NO_ACTION : Nat := t.YYNSTATE + t.YYNRULE + 2
def Tables.YY_ACCEPT_ACTION : Nat := t.YYNSTATE + t.YYNRULE + 1
def Tables.YY_ERROR_ACTION : Nat := t.YYNSTATE + t.YYNRULE

/-- `ParseAlloc` (lempar.c:256-263). -/
def parseAlloc : Parser M := ⟨[], 0, []⟩

/-- `yyFallback[iLookAhead]` where it is in the table and not zero. -/
def fallbackOf (iLookAhead : Nat) : Option Nat := (t.yyFallback[iLookAhead]?).filter (· ≠ 0)

/-- The entry at `i + iLookAhead`, where the lookahead of the entry is `iLookAhead`. -/
def entryAt (i : Int) (iLookAhead : Nat) : Option Nat :=
  if i + iLookAhead < 0 ∨ (t.yyAction.length : Int) ≤ i + iLookAhead ∨
      t.yyLookahead[(i + iLookAhead).toNat]? ≠ some iLookAhead then none
  else t.yyAction[(i + iLookAhead).toNat]?

/-- `yy_find_shift_action` (lempar.c:344-378), for so many calls. -/
def findShiftLoop : Nat → Nat → Nat → Option Nat
  | 0, _, _ => none
  | fuel + 1, stateno, iLookAhead =>
    (t.yyShiftOfst[stateno]?).bind fun i =>
      if i = t.YY_SHIFT_USE_DFLT then t.yyDefault[stateno]?
      else if iLookAhead = t.YYNOCODE then some t.YY_NO_ACTION
      else
        match entryAt t i iLookAhead with
        | some act => some act
        | none =>
          match fallbackOf t iLookAhead with
          | some iFallback => findShiftLoop fuel stateno iFallback
          | none => t.yyDefault[stateno]?

def yyFindShiftAction (stateno iLookAhead : Nat) : Option Nat :=
  findShiftLoop t (t.yyFallback.length + 1) stateno iLookAhead

/-- `yy_find_reduce_action` (lempar.c:388-408). -/
def yyFindReduceAction (stateno iLookAhead : Nat) : Option Nat :=
  (t.yyReduceOfst[stateno]?).bind fun i =>
    if i = t.YY_REDUCE_USE_DFLT then t.yyDefault[stateno]?
    else if iLookAhead = t.YYNOCODE then some t.YY_NO_ACTION
    else
      match entryAt t i iLookAhead with
      | some act => some act
      | none => t.yyDefault[stateno]?

/-- `while( yyidx>=0 ) yy_pop_parser_stack` (lempar.c:295-311). -/
def popAll (p : Parser M) : Parser M :=
  { p with yystack := [], log := p.log ++ p.yystack.map (fun e => .destructor e.major e.minor) }

/-- `yy_shift` (lempar.c:413-450). -/
def yyShift (p : Parser M) (yyNewState yyMajor : Nat) (yypMinor : M) : Parser M :=
  if t.YYSTACKDEPTH ≤ p.yystack.length then { popAll p with log := (popAll p).log ++ [.overflow] }
  else { p with yystack := ⟨yyNewState, yyMajor, yypMinor⟩ :: p.yystack }

/-- `yy_accept` (lempar.c:545-559). -/
def yyAccept (p : Parser M) : Parser M := { popAll p with log := (popAll p).log ++ [.accept] }

/-- `yy_parse_failed` (lempar.c:512-526). -/
def yyParseFailed (p : Parser M) : Parser M := { popAll p with log := (popAll p).log ++ [.failure] }

/-- `yy_reduce` (lempar.c:468-507). -/
def yyReduce (p : Parser M) (yyruleno : Nat) : Option (Parser M) :=
  (t.yyRuleInfo[yyruleno]?).bind fun info =>
    if p.yystack.length < info.2 then none
    else
      let yygotominor := c.act p.log yyruleno (p.yystack.map Entry.minor)
      let p := { p with yystack := p.yystack.drop info.2, log := p.log ++ [Event.reduce yyruleno] }
      (p.yystack.head?).bind fun yytos =>
        (yyFindReduceAction t yytos.stateno info.1).bind fun yyact =>
          if yyact < t.YYNSTATE then some (yyShift t p yyact info.1 yygotominor)
          else if yyact = t.YYNSTATE + t.YYNRULE + 1 then some (yyAccept p)
          else some p

/-- The arguments and the variables of a call of `Parse`. -/
structure Call (M : Type) where
  yymajor : Nat
  yyminor : M
  yyendofinput : Bool
  yyerrorhit : Bool

/-- The loop that pops until the error symbol can be shifted (lempar.c:664-670): what is left of
the stack, with the action found, and the destructor calls. -/
def popToError : List (Entry M) → Option (List (Entry M) × Nat × List (Event M))
  | [] => some ([], 0, [])
  | e :: s =>
    (yyFindShiftAction t e.stateno t.YYERRORSYMBOL).bind fun yyact =>
      if yyact < t.YYNSTATE then some (e :: s, yyact, [])
      else (popToError s).map fun r => (r.1, r.2.1, .destructor e.major e.minor :: r.2.2)

/-- The branch for `YY_ERROR_ACTION` (lempar.c:623-682), `e` on top of the stack. -/
def onError (p : Parser M) (e : Entry M) (call : Call M) : Option (Parser M × Call M) :=
  let p := if p.yyerrcnt < 0 then { p with log := p.log ++ [.syntaxError call.yymajor call.yyminor] } else p
  if e.major = t.YYERRORSYMBOL ∨ call.yyerrorhit = true then
    some ({ p with yyerrcnt := 3, log := p.log ++ [.destructor call.yymajor call.yyminor] },
      { call with yymajor := t.YYNOCODE, yyerrorhit := true })
  else
    (popToError t p.yystack).map fun r =>
      let p := { p with yystack := r.1, log := p.log ++ r.2.2 }
      if r.1 = [] ∨ call.yymajor = 0 then
        ({ yyParseFailed { p with log := p.log ++ [.destructor call.yymajor call.yyminor] } with yyerrcnt := 3 },
          { call with yymajor := t.YYNOCODE, yyerrorhit := true })
      else
        ({ yyShift t p r.2.1 t.YYERRORSYMBOL c.u2 with yyerrcnt := 3 }, { call with yyerrorhit := true })

/-- One round of the loop of `Parse` (lempar.c:611-707). -/
def iterate (p : Parser M) (call : Call M) : Option (Parser M × Call M) :=
  (p.yystack.head?).bind fun e =>
    (yyFindShiftAction t e.stateno call.yymajor).bind fun yyact =>
      if yyact < t.YYNSTATE then
        let p := yyShift t p yyact call.yymajor call.yyminor
        let p := { p with
          yyerrcnt := p.yyerrcnt - 1
          log := p.log ++ if p.yystack = [] then [] else [.shift call.yymajor call.yyminor] }
        some (p, { call with
          yymajor := if call.yyendofinput = true ∧ p.yystack ≠ [] then 0 else t.YYNOCODE })
      else if yyact < t.YYNSTATE + t.YYNRULE then
        (yyReduce t c p (yyact - t.YYNSTATE)).map fun p => (p, call)
      else if yyact = t.YY_ERROR_ACTION then onError t c p e call
      else some (yyAccept p, { call with yymajor := t.YYNOCODE })

/-- The beginning of `Parse` (lempar.c:592-603), `none` where it returns at once. -/
def enter (p : Parser M) (yymajor : Nat) (yyminor : M) : Option (Parser M × Call M) :=
  let call : Call M := ⟨yymajor, yyminor, decide (yymajor = 0), false⟩
  if p.yystack = [] then
    if yymajor = 0 then none else some ({ p with yystack := [⟨0, 0, c.junk⟩], yyerrcnt := -1 }, call)
  else some (p, call)

/-- The condition of the loop. -/
def goesOn (p : Parser M) (call : Call M) : Bool := call.yymajor ≠ t.YYNOCODE && p.yystack ≠ []

end Dbsql.L7.Engine
