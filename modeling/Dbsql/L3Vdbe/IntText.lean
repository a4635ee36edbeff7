import Dbsql.L3Vdbe.Compare
/-!
# Integers that go through a text (vdbe.c:247-267, 371-387, str.c:638-662, dbsql_atoi.c)

An integer is stored in a record as its decimal text. `__entity_as_string` prints it with `%d` and
`__entity_to_int` reads it with `__dbsql_atoi`, whose sum wraps around at the smallest integer and
comes out right.

`__str_int_in32b` says whether the digits that a text begins with fit into an `int`; it has no other
output. Where it says so, `__dbsql_atoi` stores the integer that they make. What comes behind them is
ignored by both.

Results:
* `intText`: the integer read is the one printed, and where it fits the one that is written.
-/
namespace Dbsql.L3
open Dbsql.L1

section
variable {L : Type} (ar : Arith L)

/-- `__entity_to_int` (vdbe.c:371-387) of a stack entry; `__entity_release_mem` frees its text. -/
def entityToInt (stack : Mem) : Mem :=
  if stack.flags.int then stack
  else
    let i :=
      if stack.flags.real then ar.toInt stack.r
      else if stack.flags.str then (dbsqlAtoi stack.z).1
      else 0
    { stack with i := i, flags := { int := true } }

/-- An integer without a text, as `MEM_Int` alone says. -/
def intMem (i : CInt) (r : Double) (z : Bytes) : Mem := { i := i, flags := { int := true }, r := r, z := z }

theorem entityToInt_asString (i : CInt) (r : Double) (z : Bytes) :
    (entityToInt ar (intMem i r z).asString).i = i := by
  have htext := dbsqlAtoi_fmtD i
  simp [Mem.asString, intMem, entityToInt, htext]

/-- **Integers and texts**: every integer is read back as it was printed, and where `__str_int_in32b` holds
of a text, what `__dbsql_atoi` stores is the integer that the text begins with. -/
theorem intText (i : CInt) (r : Double) (z num : Bytes) (h : strIntIn32b num = true) :
    (entityToInt ar (intMem i r z).asString).i = i ∧ (dbsqlAtoi num).1.toInt = leadingInt num :=
  ⟨entityToInt_asString ar i r z, toInt_dbsqlAtoi h⟩

end

/-- What `__str_int_in32b` returns, as an int. -/
def strIntIn32bResult (num : Bytes) : Int := if strIntIn32b num then 1 else 0

theorem intText_max : (entityToInt exactMachine (intMem (.intMin 32) .nan []).asString).i = .intMin 32 ∧
    (dbsqlAtoi (ascii "+2147483647;" ++ [0])).1.toInt = leadingInt (ascii "+2147483647;" ++ [0]) :=
  intText exactMachine (.intMin 32) .nan [] (ascii "+2147483647;" ++ [0]) (by decide)

/-- On the text `5` it returns 1. -/
theorem strIntIn32b_output : ¬∀ num : Bytes, strIntIn32b num = true →
    strIntIn32bResult num = leadingInt num ∧ strIntIn32bResult num = (dbsqlAtoi num).1.toInt := by
  intro h
  have hfive := (h (ascii "5" ++ [0]) (by decide)).1
  revert hfive
  decide

end Dbsql.L3
