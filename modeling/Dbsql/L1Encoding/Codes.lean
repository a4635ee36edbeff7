import Mathlib.Tactic.Common
/-!
# Return codes and conflict resolutions

The result codes of dbsql.in:159-198 and the conflict resolution algorithms `OE_*`
of dbsql_int.in, as enumerations: the code only ever compares them for equality.
-/
namespace Dbsql.L1

/-- `DBSQL_SUCCESS` … `DBSQL_EMPTY` (dbsql.in:159-198), and a code that a Berkeley DB
call returned and the caller hands on. -/
inductive Rc
  | success | error | internal | perm | abort | busy | locked | nomem | readonly | interrupted
  | ioerr | full | cantopen | protocol | schema | constraint | mismatch | misuse | auth | format
  | range | row | done | corrupt | runrecovery | invalidName | notFound | empty
  | bdb (code : Int)
  deriving DecidableEq, Repr

/-- `OE_None` … `OE_Default`. -/
inductive Oe
  | none | rollback | abort | fail | ignore | replace | default
  deriving DecidableEq, Repr

end Dbsql.L1
