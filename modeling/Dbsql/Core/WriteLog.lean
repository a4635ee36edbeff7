import Mathlib.Data.List.Induction
import Mathlib.Tactic.Common
/-!
# Write logs with owners

The contents of a store as a starting contents and the list of writes applied to
it, oldest first, each tagged with the party that may still take it back. A write
covers any set of locations, so that clearing a whole table is one write.

Results:
* `contents_append`, `contents_eq`: the contents after a log, at a location, is the
  value of the last write covering it, or the starting value.
* `contents_reown`, `contents_congr`: who owns the writes does not matter to the
  contents.
* `contents_restores_iff`: a log leaves the contents as they were exactly when the
  last write to each location puts the starting value back.
-/
namespace Dbsql.Core

structure Write (L V : Type) where
  covers : L → Bool
  value : V

abbrev WriteLog (O L V : Type) := List (O × Write L V)

namespace WriteLog
variable {O O' L V : Type}

/-- The contents after the writes of `log`, from the contents `c`. -/
def contents (c : L → V) (log : WriteLog O L V) : L → V :=
  log.foldl (fun c e l => if e.2.covers l then e.2.value else c l) c

/-- The value of the last write that covers `l`. -/
def lastWrite (log : WriteLog O L V) (l : L) : Option V :=
  (log.reverse.find? (fun e => e.2.covers l)).map (fun e => e.2.value)

/-- The writes of the owners that pass `q`. -/
def keep (q : O → Bool) (log : WriteLog O L V) : WriteLog O L V := log.filter (fun e => q e.1)

/-- The same writes under other owners. -/
def reown (f : O → O') (log : WriteLog O L V) : WriteLog O' L V := log.map (fun e => (f e.1, e.2))

theorem contents_append (c : L → V) (a b : WriteLog O L V) :
    contents c (a ++ b) = contents (contents c a) b := List.foldl_append

theorem contents_concat (c : L → V) (a : WriteLog O L V) (e : O × Write L V) (l : L) :
    contents c (a ++ [e]) l = if e.2.covers l then e.2.value else contents c a l := by
  rw [contents_append]
  rfl

theorem contents_eq (c : L → V) (log : WriteLog O L V) (l : L) :
    contents c log l = (lastWrite log l).getD (c l) := by
  induction log using List.reverseRecOn with
  | nil => rfl
  | append_singleton log e ih =>
    rw [contents_concat, ih, lastWrite, lastWrite, List.reverse_append, List.reverse_singleton,
      List.singleton_append, List.find?_cons]
    cases e.2.covers l <;> rfl

/-- The contents depend on the writes alone, not on their owners. -/
theorem contents_congr (c : L → V) {a : WriteLog O L V} {b : WriteLog O' L V}
    (h : a.map Prod.snd = b.map Prod.snd) : contents c a = contents c b := by
  have key : ∀ {P : Type} (log : WriteLog P L V), contents c log =
      (log.map Prod.snd).foldl (fun c w l => if w.covers l then w.value else c l) c := by
    intro P log
    rw [List.foldl_map]
    rfl
  rw [key a, key b, h]

theorem map_snd_reown (f : O → O') (log : WriteLog O L V) :
    (reown f log).map Prod.snd = log.map Prod.snd := by
  rw [reown, List.map_map]
  rfl

@[simp] theorem contents_reown (c : L → V) (f : O → O') (log : WriteLog O L V) :
    contents c (reown f log) = contents c log := contents_congr c (map_snd_reown f log)

theorem keep_reown (q : O' → Bool) (f : O → O') (log : WriteLog O L V) :
    keep q (reown f log) = reown f (keep (fun o => q (f o)) log) := List.filter_map

/-- When a log leaves the contents as they were. -/
theorem contents_restores_iff (c : L → V) (log : WriteLog O L V) :
    contents c log = c ↔ ∀ l v, lastWrite log l = some v → v = c l := by
  refine ⟨fun h l v hv => ?_, fun h => funext fun l => ?_⟩
  · have := congrFun h l
    rwa [contents_eq, hv, Option.getD_some] at this
  · rw [contents_eq]
    cases hv : lastWrite log l with
    | none => rfl
    | some v => exact h l v hv

end WriteLog
end Dbsql.Core
