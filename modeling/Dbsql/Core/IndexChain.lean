import Mathlib.Data.List.Basic
import Mathlib.Logic.Function.Basic
import Mathlib.Order.Nat
/-!
# Hash chains by index

The entries of a table are threaded into chains, one for each hash value. A link is 0 at the end of a
chain and `i + 1` at entry `i`; `next` has the links of the entries and `heads` those of the chains.
`thread` puts the entries into their chains one after the other, each at the front.

Results:
* `chain_thread`: each chain has exactly the entries of its hash, the last one first.
* `walk_eq`: the walk along a chain ends, and finds what is on it.
-/
namespace Dbsql.Core.IndexChain

/-- The entries from a link on. -/
inductive Chain (next : Nat → Nat) : Nat → List Nat → Prop
  | nil : Chain next 0 []
  | cons {i : Nat} {is : List Nat} : Chain next (next i) is → Chain next (i + 1) (i :: is)

theorem Chain.congr {next next' : Nat → Nat} {a : Nat} {is : List Nat} (h : Chain next a is)
    (hn : ∀ i ∈ is, next' i = next i) : Chain next' a is := by
  induction h with
  | nil => exact .nil
  | @cons i is _ ih =>
    refine .cons ?_
    rw [hn i List.mem_cons_self]
    exact ih fun j hj => hn j (List.mem_cons_of_mem _ hj)

/-! ## Threading -/

/-- The links of the entries and of the chains. -/
structure Links where
  next : Nat → Nat
  heads : Nat → Nat

section
variable (hash : Nat → Nat)

/-- Entry `k` at the front of its chain. -/
def Links.push (l : Links) (k : Nat) : Links where
  next := Function.update l.next k (l.heads (hash k))
  heads := Function.update l.heads (hash k) (k + 1)

/-- The first `k` entries, with no links to begin with. -/
def thread : Nat → Links
  | 0 => ⟨fun _ => 0, fun _ => 0⟩
  | k + 1 => (thread k).push hash k

/-- The entries of a hash value below `k`, the last one first. -/
def bucket (k h : Nat) : List Nat := (List.range k).reverse.filter fun i => hash i = h

theorem mem_bucket {k h i : Nat} : i ∈ bucket hash k h ↔ i < k ∧ hash i = h := by
  simp [bucket]

theorem length_bucket_le (k h : Nat) : (bucket hash k h).length ≤ k := by
  have h := List.length_filter_le (fun i => decide (hash i = h)) (List.range k).reverse
  rwa [List.length_reverse, List.length_range] at h

theorem bucket_succ (k h : Nat) :
    bucket hash (k + 1) h = if hash k = h then k :: bucket hash k h else bucket hash k h := by
  rw [bucket, List.range_succ, List.reverse_append, List.reverse_singleton, List.singleton_append,
    List.filter_cons]
  simp only [decide_eq_true_eq]
  rfl

/-- **Each chain has exactly the entries of its hash.** -/
theorem chain_thread (k h : Nat) : Chain (thread hash k).next ((thread hash k).heads h) (bucket hash k h) := by
  induction k with
  | zero => exact .nil
  | succ k ih =>
    -- an entry is on no chain before it is pushed
    have hold : Chain (thread hash (k + 1)).next ((thread hash k).heads h) (bucket hash k h) := by
      refine ih.congr fun i hi => Function.update_of_ne ?_ _ _
      exact Nat.ne_of_lt ((mem_bucket hash).1 hi).1
    rw [bucket_succ]
    split
    · rename_i hk
      subst hk
      have hhead : (thread hash (k + 1)).heads (hash k) = k + 1 := Function.update_self _ _ _
      have hnext : (thread hash (k + 1)).next k = (thread hash k).heads (hash k) :=
        Function.update_self _ _ _
      rw [hhead]
      refine .cons ?_
      rw [hnext]
      exact hold
    · rename_i hk
      have hhead : (thread hash (k + 1)).heads h = (thread hash k).heads h :=
        Function.update_of_ne (Ne.symm hk) _ _
      rw [hhead]
      exact hold

end

/-! ## Walks -/

/-- The walk from a link to the first entry with `p`; `none` if `fuel` entries are not enough. -/
def walk (next : Nat → Nat) (p : Nat → Bool) : Nat → Nat → Option (Option Nat)
  | _, 0 => some none
  | 0, _ + 1 => none
  | fuel + 1, i + 1 => if p i then some (some i) else walk next p fuel (next i)

/-- **The walk along a chain ends and finds the first entry on it.** -/
theorem walk_eq {next : Nat → Nat} {a : Nat} {is : List Nat} (h : Chain next a is) (p : Nat → Bool)
    {fuel : Nat} (hf : is.length ≤ fuel) : walk next p fuel a = some (is.find? p) := by
  induction h generalizing fuel with
  | nil => cases fuel <;> rfl
  | @cons i is _ ih =>
    obtain ⟨fuel, rfl⟩ : ∃ f, fuel = f + 1 := ⟨fuel - 1, by rw [List.length_cons] at hf; omega⟩
    rw [walk, List.find?_cons]
    cases hp : p i with
    | true => simp
    | false =>
      simp only [Bool.false_eq_true, if_false]
      exact ih (Nat.le_of_succ_le_succ hf)

end Dbsql.Core.IndexChain
