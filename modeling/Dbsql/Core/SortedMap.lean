import Mathlib.Order.Lattice
import Mathlib.Tactic.Common
/-!
# Finite ordered maps with cursor lookups

`SortedMap K V` is a finite map over a linear order, kept as a list of entries
with strictly increasing keys; the order is a field, so an unsorted map cannot
be built. The lookups are those of an ordered store with a cursor: `ceil`
(smallest key at or above a given one), `succ` and `pred` (next and previous
key), `first` and `last`.

Results:
* `mem_insert`, `mem_erase`: what an update does to the key set.
* `ceil_eq_none`, `ceil_some`, `succ_some`, `pred_some`, `last_some`: each lookup is
  characterised by the order alone.
* `scan_eq_filter`: a cursor that starts at `ceil lo` and moves by `succ` while
  a downward closed test holds visits exactly the entries at or above `lo` that
  pass the test, in order.
* `takeWhile_eq_filter_iff`: when a walk that ends at the first element to fail one test visits
  the elements that pass another.
-/
namespace Dbsql.Core

/-- On a list ordered for it, a downward closed test holds of a prefix. -/
theorem takeWhile_eq_filter {α : Type} {go : α → Bool} :
    ∀ l : List α, l.Pairwise (fun a b => go b = true → go a = true) →
      l.takeWhile go = l.filter go := by
  intro l
  induction l with
  | nil => intro _; rfl
  | cons a l ih =>
    intro hs
    obtain ⟨ha, hs⟩ := List.pairwise_cons.1 hs
    by_cases h : go a = true
    · rw [List.takeWhile_cons_of_pos h, List.filter_cons_of_pos h, ih hs]
    · rw [List.takeWhile_cons_of_neg h, List.filter_cons_of_neg h]
      exact (List.filter_eq_nil_iff.2 fun x hx hx' => h (ha x hx hx')).symm

/-- On a list in order, the elements up to the first that fails a test are those that pass another,
which fails from some element on, if and only if the tests agree up to that element. -/
theorem takeWhile_eq_filter_iff {α β : Type} [LinearOrder β] (f : α → β) {go ok : α → Bool}
    {l : List α} (hl : l.Pairwise fun a b => f a < f b)
    (hok : ∀ a b, f a ≤ f b → ok b = true → ok a = true) :
    l.takeWhile go = l.filter ok ↔
      ∀ b ∈ l, (∀ a ∈ l, f a < f b → ok a = true) → go b = ok b := by
  induction l with
  | nil => simp
  | cons a l ih =>
    obtain ⟨ha, hl⟩ := List.pairwise_cons.1 hl
    have hleast : ∀ x ∈ a :: l, ¬ f x < f a := by
      intro x hx hlt
      rcases List.mem_cons.1 hx with rfl | hx
      · exact lt_irrefl _ hlt
      · exact lt_asymm hlt (ha x hx)
    by_cases h : ok a = true
    · rw [List.filter_cons_of_pos h]
      by_cases hgo : go a = true
      · rw [List.takeWhile_cons_of_pos hgo, List.cons_inj_right, ih hl]
        constructor
        · intro hrest b hb hbefore
          rcases List.mem_cons.1 hb with rfl | hb
          · rw [hgo, h]
          · exact hrest b hb fun x hx => hbefore x (List.mem_cons_of_mem _ hx)
        · intro hall b hb hbefore
          refine hall b (List.mem_cons_of_mem _ hb) fun x hx hlt => ?_
          rcases List.mem_cons.1 hx with rfl | hx
          · exact h
          · exact hbefore x hx hlt
      · rw [List.takeWhile_cons_of_neg hgo]
        refine iff_of_false (List.cons_ne_nil _ _).symm fun hall => hgo ?_
        rw [hall a List.mem_cons_self fun x hx hlt => absurd hlt (hleast x hx), h]
    · have hnone : (a :: l).filter ok = [] := by
        refine List.filter_eq_nil_iff.2 fun x hx hx' => h ?_
        exact hok a x (not_lt.1 (hleast x hx)) hx'
      rw [hnone]
      by_cases hgo : go a = true
      · rw [List.takeWhile_cons_of_pos hgo]
        refine iff_of_false (List.cons_ne_nil _ _) fun hall => h ?_
        rw [← hall a List.mem_cons_self fun x hx hlt => absurd hlt (hleast x hx), hgo]
      · rw [List.takeWhile_cons_of_neg hgo]
        refine iff_of_true rfl fun b hb hbefore => ?_
        rcases List.mem_cons.1 hb with rfl | hb
        · rw [Bool.eq_false_iff.2 hgo, Bool.eq_false_iff.2 h]
        · exact absurd (hbefore a List.mem_cons_self (ha b hb)) h

/-- Two tests keep the same elements when they agree on all of them. -/
theorem filter_eq_filter_iff {α : Type} {p q : α → Bool} {l : List α} :
    l.filter p = l.filter q ↔ ∀ x ∈ l, p x = q x := by
  refine ⟨fun h x hx => ?_, fun h => List.filter_congr h⟩
  have hmem : x ∈ l.filter p ↔ x ∈ l.filter q := by rw [h]
  rw [List.mem_filter, List.mem_filter] at hmem
  exact Bool.eq_iff_iff.2 ⟨fun hp => (hmem.1 ⟨hx, hp⟩).2, fun hq => (hmem.2 ⟨hx, hq⟩).2⟩

structure SortedMap (K V : Type) [LinearOrder K] where
  entries : List (K × V)
  sorted : entries.Pairwise (fun a b => a.1 < b.1)

namespace SortedMap
variable {K V : Type} [LinearOrder K]

def empty : SortedMap K V := ⟨[], .nil⟩

def keys (m : SortedMap K V) : List K := m.entries.map Prod.fst

instance : Membership K (SortedMap K V) := ⟨fun m k => k ∈ m.keys⟩

instance (m : SortedMap K V) (k : K) : Decidable (k ∈ m) := inferInstanceAs (Decidable (k ∈ m.keys))

def find? (m : SortedMap K V) (k : K) : Option (K × V) := m.entries.find? (fun e => e.1 = k)

/-- The entry with the smallest key at or above `k`. -/
def ceil (m : SortedMap K V) (k : K) : Option (K × V) := m.entries.find? (fun e => k ≤ e.1)

/-- The entry with the smallest key above `k`. -/
def succ (m : SortedMap K V) (k : K) : Option (K × V) := m.entries.find? (fun e => k < e.1)

/-- The entry with the largest key below `k`. -/
def pred (m : SortedMap K V) (k : K) : Option (K × V) :=
  (m.entries.filter (fun e => e.1 < k)).getLast?

def first (m : SortedMap K V) : Option (K × V) := m.entries.head?

def last (m : SortedMap K V) : Option (K × V) := m.entries.getLast?

def erase (m : SortedMap K V) (k : K) : SortedMap K V :=
  ⟨m.entries.filter (fun e => e.1 ≠ k), m.sorted.filter _⟩

/-- The entries that meet `p`. -/
def filter (m : SortedMap K V) (p : K × V → Bool) : SortedMap K V := ⟨m.entries.filter p, m.sorted.filter _⟩

theorem insert_sorted (m : SortedMap K V) (k : K) (v : V) :
    (m.entries.filter (fun e => e.1 < k) ++ (k, v) :: m.entries.filter (fun e => k < e.1)).Pairwise
      (fun a b => a.1 < b.1) := by
  refine List.pairwise_append.2 ⟨m.sorted.filter _, List.pairwise_cons.2 ⟨?_, m.sorted.filter _⟩, ?_⟩
  · intro b hb
    simpa using (List.mem_filter.1 hb).2
  · intro a ha b hb
    have ha' : a.1 < k := by simpa using (List.mem_filter.1 ha).2
    rcases List.mem_cons.1 hb with rfl | hb
    · exact ha'
    · exact ha'.trans (by simpa using (List.mem_filter.1 hb).2)

def insert (m : SortedMap K V) (k : K) (v : V) : SortedMap K V := ⟨_, m.insert_sorted k v⟩

/-! ## The key set -/

theorem mem_iff {m : SortedMap K V} {k : K} : k ∈ m ↔ ∃ e ∈ m.entries, e.1 = k := by
  show k ∈ m.entries.map Prod.fst ↔ _
  rw [List.mem_map]

theorem mem_of_entry {m : SortedMap K V} {e : K × V} (h : e ∈ m.entries) : e.1 ∈ m :=
  mem_iff.2 ⟨e, h, rfl⟩

@[simp] theorem mem_insert {m : SortedMap K V} {k k' : K} {v : V} :
    k' ∈ m.insert k v ↔ k' = k ∨ k' ∈ m := by
  simp only [mem_iff, insert, List.mem_append, List.mem_cons, List.mem_filter, decide_eq_true_eq]
  constructor
  · rintro ⟨e, ⟨he, -⟩ | rfl | ⟨he, -⟩, rfl⟩
    · exact .inr ⟨e, he, rfl⟩
    · exact .inl rfl
    · exact .inr ⟨e, he, rfl⟩
  · rintro (rfl | ⟨e, he, rfl⟩)
    · exact ⟨(k', v), .inr (.inl rfl), rfl⟩
    · rcases lt_trichotomy e.1 k with h | h | h
      · exact ⟨e, .inl ⟨he, h⟩, rfl⟩
      · exact ⟨(k, v), .inr (.inl rfl), h.symm⟩
      · exact ⟨e, .inr (.inr ⟨he, h⟩), rfl⟩

@[simp] theorem mem_erase {m : SortedMap K V} {k k' : K} : k' ∈ m.erase k ↔ k' ∈ m ∧ k' ≠ k := by
  simp only [mem_iff, erase, List.mem_filter, decide_eq_true_eq]
  constructor
  · rintro ⟨e, ⟨he, hne⟩, rfl⟩
    exact ⟨⟨e, he, rfl⟩, hne⟩
  · rintro ⟨⟨e, he, rfl⟩, hne⟩
    exact ⟨e, ⟨he, hne⟩, rfl⟩

@[simp] theorem not_mem_empty {k : K} : k ∉ (empty : SortedMap K V) := by
  simp [mem_iff, empty]

theorem entry_erase {m : SortedMap K V} {k : K} {e : K × V} :
    e ∈ (m.erase k).entries ↔ e ∈ m.entries ∧ e.1 ≠ k := by
  simp [erase]

theorem entry_insert {m : SortedMap K V} {k : K} {v : V} {e : K × V} :
    e ∈ (m.insert k v).entries ↔ e = (k, v) ∨ e ∈ m.entries ∧ e.1 ≠ k := by
  simp only [insert, List.mem_append, List.mem_cons, List.mem_filter, decide_eq_true_eq]
  constructor
  · rintro (⟨he, hlt⟩ | rfl | ⟨he, hlt⟩)
    · exact .inr ⟨he, hlt.ne⟩
    · exact .inl rfl
    · exact .inr ⟨he, hlt.ne'⟩
  · rintro (rfl | ⟨he, hne⟩)
    · exact .inr (.inl rfl)
    · rcases lt_or_gt_of_ne hne with hlt | hlt
      · exact .inl ⟨he, hlt⟩
      · exact .inr (.inr ⟨he, hlt⟩)

/-- Keys are unique: two entries with one key are one entry. -/
theorem entry_unique {m : SortedMap K V} {a b : K × V} (ha : a ∈ m.entries) (hb : b ∈ m.entries)
    (h : a.1 = b.1) : a = b := by
  have key : ∀ l : List (K × V), l.Pairwise (fun a b => a.1 < b.1) → a ∈ l → b ∈ l → a = b := by
    intro l
    induction l with
    | nil => intro _ ha; cases ha
    | cons x l ih =>
      intro hs ha hb
      obtain ⟨hx, hs⟩ := List.pairwise_cons.1 hs
      rcases List.mem_cons.1 ha with hax | ha <;> rcases List.mem_cons.1 hb with hbx | hb
      · exact hax.trans hbx.symm
      · exact absurd h (hax ▸ hx b hb).ne
      · exact absurd h (hbx ▸ hx a ha).ne'
      · exact ih hs ha hb
  exact key m.entries m.sorted ha hb

theorem find?_eq_none {m : SortedMap K V} {k : K} : m.find? k = none ↔ k ∉ m := by
  simp only [find?, List.find?_eq_none, decide_eq_true_eq, mem_iff, not_exists, not_and]

theorem find?_some {m : SortedMap K V} {k : K} {e : K × V} (h : m.find? k = some e) :
    e ∈ m.entries ∧ e.1 = k :=
  ⟨List.mem_of_find?_eq_some h, by simpa using List.find?_some h⟩

theorem find?_isSome {m : SortedMap K V} {k : K} : (m.find? k).isSome ↔ k ∈ m := by
  rw [← not_iff_not, ← find?_eq_none, Option.not_isSome_iff_eq_none]

/-! ## Lookups -/

/-- The first entry of a sorted list that passes an upward closed test is the
least such entry. -/
theorem find?_least {l : List (K × V)} (hs : l.Pairwise (fun a b => a.1 < b.1)) {p : K × V → Bool}
    {e : K × V} (h : l.find? p = some e) : ∀ x ∈ l, p x = true → e.1 ≤ x.1 := by
  obtain ⟨hp, as, bs, rfl, hnot⟩ := List.find?_eq_some_iff_append.1 h
  intro x hx hpx
  rcases List.mem_append.1 hx with hx | hx
  · have := hnot x hx
    simp [hpx] at this
  · rcases List.mem_cons.1 hx with rfl | hx
    · exact le_refl _
    · exact ((List.pairwise_cons.1 (List.pairwise_append.1 hs).2.1).1 x hx).le

theorem ceil_eq_none {m : SortedMap K V} {k : K} : m.ceil k = none ↔ ∀ k' ∈ m, k' < k := by
  simp only [ceil, List.find?_eq_none, decide_eq_true_eq, not_le, mem_iff]
  exact ⟨fun h _ ⟨e, he, hk⟩ => hk ▸ h e he, fun h e he => h _ ⟨e, he, rfl⟩⟩

theorem ceil_some {m : SortedMap K V} {k : K} {e : K × V} (h : m.ceil k = some e) :
    e ∈ m.entries ∧ k ≤ e.1 ∧ ∀ k' ∈ m, k ≤ k' → e.1 ≤ k' := by
  refine ⟨List.mem_of_find?_eq_some h, by simpa using List.find?_some h, fun k' hk' hle => ?_⟩
  obtain ⟨x, hx, rfl⟩ := mem_iff.1 hk'
  exact find?_least m.sorted h x hx (by simpa using hle)

/-- `ceil` lands on its argument exactly when the argument is a key. -/
theorem ceil_key_eq_iff {m : SortedMap K V} {k : K} {e : K × V} (h : m.ceil k = some e) :
    e.1 = k ↔ k ∈ m := by
  obtain ⟨he, hle, hmin⟩ := ceil_some h
  exact ⟨fun hk => hk ▸ mem_of_entry he, fun hk => le_antisymm (hmin k hk le_rfl) hle⟩

theorem succ_eq_none {m : SortedMap K V} {k : K} : m.succ k = none ↔ ∀ k' ∈ m, k' ≤ k := by
  simp only [succ, List.find?_eq_none, decide_eq_true_eq, not_lt, mem_iff]
  exact ⟨fun h _ ⟨e, he, hk⟩ => hk ▸ h e he, fun h e he => h _ ⟨e, he, rfl⟩⟩

theorem succ_some {m : SortedMap K V} {k : K} {e : K × V} (h : m.succ k = some e) :
    e ∈ m.entries ∧ k < e.1 ∧ ∀ k' ∈ m, k < k' → e.1 ≤ k' := by
  refine ⟨List.mem_of_find?_eq_some h, by simpa using List.find?_some h, fun k' hk' hlt => ?_⟩
  obtain ⟨x, hx, rfl⟩ := mem_iff.1 hk'
  exact find?_least m.sorted h x hx (by simpa using hlt)

/-- The last entry of a sorted list is the greatest. -/
theorem getLast?_greatest {l : List (K × V)} (hs : l.Pairwise (fun a b => a.1 < b.1)) {e : K × V}
    (h : l.getLast? = some e) : e ∈ l ∧ ∀ x ∈ l, x.1 ≤ e.1 := by
  obtain ⟨ys, rfl⟩ := List.getLast?_eq_some_iff.1 h
  refine ⟨by simp, fun x hx => ?_⟩
  rcases List.mem_append.1 hx with hx | hx
  · exact ((List.pairwise_append.1 hs).2.2 x hx e (by simp)).le
  · rw [List.mem_singleton.1 hx]

theorem last_eq_none {m : SortedMap K V} : m.last = none ↔ ∀ k, k ∉ m := by
  simp only [last, List.getLast?_eq_none_iff, mem_iff]
  constructor
  · intro h k
    simp [h]
  · intro h
    exact List.eq_nil_iff_forall_not_mem.2 fun e he => h e.1 ⟨e, he, rfl⟩

theorem last_some {m : SortedMap K V} {e : K × V} (h : m.last = some e) :
    e ∈ m.entries ∧ ∀ k ∈ m, k ≤ e.1 := by
  obtain ⟨he, hmax⟩ := getLast?_greatest m.sorted h
  refine ⟨he, fun k hk => ?_⟩
  obtain ⟨x, hx, rfl⟩ := mem_iff.1 hk
  exact hmax x hx

theorem first_eq_none {m : SortedMap K V} : m.first = none ↔ ∀ k, k ∉ m := by
  rw [← last_eq_none, first, last, List.head?_eq_none_iff, List.getLast?_eq_none_iff]

/-! ## Scanning with a cursor -/

/-- The entries a cursor visits that stands on `pos` and moves by `succ` for as
long as `go` holds of the entry it is on; `fuel` bounds the number of moves. -/
def scan (m : SortedMap K V) (go : K × V → Bool) : Nat → Option (K × V) → List (K × V)
  | 0, _ => []
  | _, none => []
  | fuel + 1, some e => if go e then e :: m.scan go fuel (m.succ e.1) else []

/-- The successor of an entry is the one after it in the list. -/
theorem succ_append {m : SortedMap K V} {as bs : List (K × V)} {e : K × V}
    (h : m.entries = as ++ e :: bs) : m.succ e.1 = bs.head? := by
  have hs := m.sorted
  rw [h] at hs
  obtain ⟨-, hs2, hs3⟩ := List.pairwise_append.1 hs
  have has : ∀ x ∈ as, ¬ e.1 < x.1 := fun x hx => (hs3 x hx e (by simp)).not_gt
  rw [succ, h, List.find?_append, List.find?_eq_none.2 (by simpa using has), Option.none_or,
    List.find?_cons_of_neg (by simp)]
  cases bs with
  | nil => rfl
  | cons b bs =>
    have hb : e.1 < b.1 := (List.pairwise_cons.1 hs2).1 b (by simp)
    rw [List.find?_cons_of_pos (by simpa using hb)]
    rfl

/-- The successor of a key between two parts of the entries, which may itself have been erased. -/
theorem succ_split {m : SortedMap K V} {as bs : List (K × V)} {k : K} (h : m.entries = as ++ bs)
    (has : ∀ x ∈ as, x.1 ≤ k) (hbs : ∀ x ∈ bs, k < x.1) : m.succ k = bs.head? := by
  rw [succ, h, List.find?_append, List.find?_eq_none.2 (by simpa using has), Option.none_or]
  cases bs with
  | nil => rfl
  | cons b bs =>
    rw [List.find?_cons_of_pos (by simpa using hbs b List.mem_cons_self)]
    rfl

theorem erase_split {m : SortedMap K V} {as bs : List (K × V)} {e : K × V} (h : m.entries = as ++ e :: bs) :
    (m.erase e.1).entries = as ++ bs := by
  have hs := m.sorted
  rw [h] at hs
  obtain ⟨-, hs2, hs3⟩ := List.pairwise_append.1 hs
  have has : ∀ x ∈ as, x.1 ≠ e.1 := fun x hx => (hs3 x hx e List.mem_cons_self).ne
  have hbs : ∀ x ∈ bs, x.1 ≠ e.1 := fun x hx => ((List.pairwise_cons.1 hs2).1 x hx).ne'
  show m.entries.filter (fun x => x.1 ≠ e.1) = as ++ bs
  rw [h, List.filter_append, List.filter_cons_of_neg (by simp), List.filter_eq_self.2 (by simpa using has),
    List.filter_eq_self.2 (by simpa using hbs)]

/-- The first entry that meets `p`. -/
theorem find_entries_iff {m : SortedMap K V} {p : K × V → Bool} {e : K × V} :
    m.entries.find? p = some e ↔ e ∈ m.entries ∧ p e = true ∧ ∀ x ∈ m.entries, x.1 < e.1 → p x = false := by
  have hs := m.sorted
  constructor
  · intro h
    obtain ⟨hp, as, bs, hent, has⟩ := List.find?_eq_some_iff_append.1 h
    refine ⟨List.mem_of_find?_eq_some h, hp, fun x hx hlt => ?_⟩
    rw [hent] at hs hx
    obtain ⟨-, hs2, -⟩ := List.pairwise_append.1 hs
    rcases List.mem_append.1 hx with hx | hx
    · simpa using has x hx
    · rcases List.mem_cons.1 hx with rfl | hx
      · exact absurd hlt (lt_irrefl _)
      · exact absurd hlt ((List.pairwise_cons.1 hs2).1 x hx).not_gt
  · rintro ⟨he, hp, hbefore⟩
    obtain ⟨as, bs, hent⟩ := List.append_of_mem he
    refine List.find?_eq_some_iff_append.2 ⟨hp, as, bs, hent, fun x hx => ?_⟩
    have hlt : x.1 < e.1 := by
      rw [hent] at hs
      exact (List.pairwise_append.1 hs).2.2 x hx e List.mem_cons_self
    rw [hbefore x (hent ▸ List.mem_append_left _ hx) hlt]
    rfl

theorem scan_takeWhile {m : SortedMap K V} (go : K × V → Bool) :
    ∀ (bs as : List (K × V)) (fuel : Nat), m.entries = as ++ bs → bs.length ≤ fuel →
      m.scan go fuel bs.head? = bs.takeWhile go := by
  intro bs
  induction bs with
  | nil => intro as fuel _ _; cases fuel <;> rfl
  | cons e bs ih =>
    intro as fuel h hf
    cases fuel with
    | zero => simp at hf
    | succ fuel =>
      rw [List.head?_cons, scan, succ_append h, List.takeWhile_cons]
      split
      · rw [ih (as ++ [e]) fuel (by simpa using h) (by simpa using hf)]
      · rfl

/-- A sorted list splits at any lower bound. -/
theorem filter_ge_split (m : SortedMap K V) (lo : K) :
    m.entries = m.entries.filter (fun e => e.1 < lo) ++ m.entries.filter (fun e => lo ≤ e.1) := by
  have key : ∀ l : List (K × V), l.Pairwise (fun a b => a.1 < b.1) →
      l = l.filter (fun e => e.1 < lo) ++ l.filter (fun e => lo ≤ e.1) := by
    intro l
    induction l with
    | nil => intro _; rfl
    | cons a l ih =>
      intro hs
      obtain ⟨ha, hs⟩ := List.pairwise_cons.1 hs
      by_cases h : a.1 < lo
      · rw [List.filter_cons_of_pos (by simpa using h), List.filter_cons_of_neg (by simpa using h),
          List.cons_append, ← ih hs]
      · have hall : ∀ x ∈ l, lo ≤ x.1 := fun x hx => (not_lt.1 h).trans (ha x hx).le
        have hnone : l.filter (fun e => e.1 < lo) = [] :=
          List.filter_eq_nil_iff.2 fun x hx => by simpa using hall x hx
        have hself : l.filter (fun e => lo ≤ e.1) = l :=
          List.filter_eq_self.2 fun x hx => by simpa using hall x hx
        rw [List.filter_cons_of_neg (by simpa using h),
          List.filter_cons_of_pos (by simpa using not_lt.1 h), hnone, hself, List.nil_append]
  exact key m.entries m.sorted

theorem ceil_eq_head? (m : SortedMap K V) (lo : K) :
    m.ceil lo = (m.entries.filter (fun e => lo ≤ e.1)).head? := by
  rw [ceil, List.head?_filter]

/-- A scan from `ceil lo` that goes on while a test closed downwards among the
entries holds visits exactly the entries at or above `lo` that pass the test. -/
theorem scan_eq_filter (m : SortedMap K V) (lo : K) {go : K × V → Bool}
    (hgo : ∀ a ∈ m.entries, ∀ b ∈ m.entries, a.1 < b.1 → go b = true → go a = true)
    {fuel : Nat} (hf : m.entries.length ≤ fuel) :
    m.scan go fuel (m.ceil lo) = m.entries.filter (fun e => decide (lo ≤ e.1) && go e) := by
  have hsub : (m.entries.filter (fun e => lo ≤ e.1)).Sublist m.entries := List.filter_sublist
  have hpair : (m.entries.filter (fun e => lo ≤ e.1)).Pairwise (fun a b => go b = true → go a = true) :=
    (m.sorted.sublist hsub).imp_of_mem fun ha hb => hgo _ (hsub.mem ha) _ (hsub.mem hb)
  rw [ceil_eq_head?, scan_takeWhile go _ _ fuel (filter_ge_split m lo) (hsub.length_le.trans hf),
    takeWhile_eq_filter _ hpair, List.filter_filter]
  exact List.filter_congr fun e _ => Bool.and_comm _ _

end SortedMap
end Dbsql.Core
