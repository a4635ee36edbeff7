import Mathlib.Data.List.Basic
import Mathlib.Data.List.Forall2
/-!
# Wildcard patterns

A pattern is a list of items: `star` stands for any word, and `one p` for one letter of the set `p`. A
pattern of `k` letters and any stars matches no shorter word, and its words of `k` letters are the
products of its sets.

Results:
* `matches_star_one`: a star in front of a letter looks for a place to go on from.
* `matches_iff_of_alike`: two patterns of one shape match the same words if and only if they have the
  same sets, or each has a set without letters.
-/
namespace Dbsql.Core.Wildcard

variable {α : Type*}

inductive Item (α : Type*)
  | star
  | one (p : α → Bool)

/-- The words of a pattern. -/
inductive Matches : List (Item α) → List α → Prop
  | nil : Matches [] []
  | star {is : List (Item α)} (xs : List α) {ys : List α} :
      Matches is ys → Matches (.star :: is) (xs ++ ys)
  | one {p : α → Bool} {is : List (Item α)} {x : α} {xs : List α} :
      p x = true → Matches is xs → Matches (.one p :: is) (x :: xs)

/-- Any letter. -/
@[grind =] def Item.any : Item α := .one fun _ => true

@[simp] theorem matches_nil {s : List α} : Matches [] s ↔ s = [] := by
  constructor
  · intro h
    cases h
    rfl
  · rintro rfl
    exact .nil

@[simp] theorem matches_one_nil {p : α → Bool} {is : List (Item α)} : ¬Matches (.one p :: is) [] := nofun

@[simp] theorem matches_one_cons {p : α → Bool} {is : List (Item α)} {x : α} {xs : List α} :
    Matches (.one p :: is) (x :: xs) ↔ p x = true ∧ Matches is xs := by
  constructor
  · intro h
    cases h with
    | one hp h => exact ⟨hp, h⟩
  · intro h
    exact .one h.1 h.2

theorem matches_star {is : List (Item α)} {s : List α} :
    Matches (.star :: is) s ↔ ∃ n, Matches is (s.drop n) := by
  constructor
  · intro h
    cases h with
    | star xs h =>
      refine ⟨xs.length, ?_⟩
      simpa using h
  · intro h
    obtain ⟨n, h⟩ := h
    rw [← List.take_append_drop n s]
    exact .star _ h

theorem matches_star_cons {is : List (Item α)} {x : α} {xs : List α} :
    Matches (.star :: is) (x :: xs) ↔ Matches is (x :: xs) ∨ Matches (.star :: is) xs := by
  simp only [matches_star]
  constructor
  · intro h
    obtain ⟨n, h⟩ := h
    cases n with
    | zero => exact .inl h
    | succ n => exact .inr ⟨n, h⟩
  · intro h
    cases h with
    | inl h => exact ⟨0, h⟩
    | inr h =>
      obtain ⟨n, h⟩ := h
      exact ⟨n + 1, h⟩

theorem matches_star_nil {is : List (Item α)} : Matches (.star :: is) [] ↔ Matches is [] := by
  simp [matches_star]

theorem matches_star_end (s : List α) : Matches [.star] s :=
  matches_star.2 ⟨s.length, by simp⟩

theorem matches_star_star {is : List (Item α)} {s : List α} :
    Matches (.star :: .star :: is) s ↔ Matches (.star :: is) s := by
  constructor
  · intro h
    obtain ⟨n, h⟩ := matches_star.1 h
    obtain ⟨m, h⟩ := matches_star.1 h
    rw [List.drop_drop] at h
    exact matches_star.2 ⟨_, h⟩
  · intro h
    exact matches_star.2 ⟨0, h⟩

/-- A star and any letter may be exchanged. -/
theorem matches_star_any {is : List (Item α)} {s : List α} :
    Matches (.star :: .any :: is) s ↔ Matches (.any :: .star :: is) s := by
  induction s with
  | nil => simp [matches_star_nil, Item.any]
  | cons x xs ih =>
    rw [matches_star_cons, ih]
    cases xs with
    | nil => simp [Item.any, matches_star_nil]
    | cons y ys =>
      simp only [Item.any, matches_one_cons, true_and]
      rw [matches_star_cons]

/-- A star in front of a letter: a place to go on from. -/
theorem matches_star_one {p : α → Bool} {is : List (Item α)} {s : List α} :
    Matches (.star :: .one p :: is) s ↔ ∃ n x xs, s.drop n = x :: xs ∧ p x = true ∧ Matches is xs := by
  rw [matches_star]
  refine exists_congr fun n => ?_
  cases s.drop n with
  | nil => simp
  | cons x xs => simp

/-! ## Shortest words -/

/-- The sets of the letters. -/
@[grind =] def sets : List (Item α) → List (α → Bool)
  | [] => []
  | .star :: is => sets is
  | .one p :: is => p :: sets is

theorem length_sets_le {is : List (Item α)} {s : List α} (h : Matches is s) :
    (sets is).length ≤ s.length := by
  induction h with
  | nil => simp [sets]
  | star xs _ ih =>
    simp [sets]
    omega
  | one _ _ ih =>
    simp [sets]
    omega

/-- A set without letters leaves no words. -/
theorem nonempty_of_matches {is : List (Item α)} {s : List α} (h : Matches is s) :
    ∀ p ∈ sets is, ∃ x ∈ s, p x = true := by
  induction h with
  | nil => simp [sets]
  | star xs _ ih =>
    intro p hp
    obtain ⟨x, hx, h⟩ := ih p hp
    exact ⟨x, List.mem_append_right _ hx, h⟩
  | @one p is x xs hx _ ih =>
    intro q hq
    cases hq with
    | head => exact ⟨x, List.mem_cons_self, hx⟩
    | tail _ hq =>
      obtain ⟨y, hy, h⟩ := ih q hq
      exact ⟨y, List.mem_cons_of_mem _ hy, h⟩

/-- The shortest words are the products of the sets. -/
theorem matches_shortest {is : List (Item α)} {s : List α} (hlen : s.length = (sets is).length) :
    Matches is s ↔ List.Forall₂ (fun p x => p x = true) (sets is) s := by
  induction is generalizing s with
  | nil => simp [sets]
  | cons i is ih =>
    cases i with
    | star =>
      rw [sets, ← ih hlen, matches_star]
      constructor
      · intro h
        obtain ⟨n, h⟩ := h
        -- a star that takes a letter leaves too few
        have hle : s.length ≤ s.length - n := by
          have := length_sets_le h
          rw [List.length_drop] at this
          simp only [sets] at hlen
          omega
        have hn : n = 0 ∨ s = [] := by
          rw [← List.length_eq_zero_iff]
          omega
        cases hn with
        | inl hn => simpa [hn] using h
        | inr hs => simpa [hs] using h
      · intro h
        exact ⟨0, h⟩
    | one p =>
      cases s with
      | nil => simp [sets] at hlen
      | cons x xs =>
        rw [matches_one_cons, sets, List.forall₂_cons, ih]
        simpa [sets] using hlen

/-! ## Patterns of one shape -/

section
variable (A : α → Prop)

theorem exists_product {ps : List (α → Bool)} (h : ∀ p ∈ ps, ∃ x, A x ∧ p x = true) :
    ∃ s, (∀ x ∈ s, A x) ∧ List.Forall₂ (fun p x => p x = true) ps s := by
  induction ps with
  | nil => exact ⟨[], by simp⟩
  | cons p ps ih =>
    obtain ⟨x, hx, hp⟩ := h p List.mem_cons_self
    obtain ⟨s, hs, hps⟩ := ih fun q hq => h q (List.mem_cons_of_mem _ hq)
    refine ⟨x :: s, ?_, .cons hp hps⟩
    simpa using ⟨hx, hs⟩

/-- Equal products of sets with letters have equal sets. -/
theorem sets_eq_of_products {ps qs : List (α → Bool)} (hlen : ps.length = qs.length)
    (hps : ∀ p ∈ ps, ∃ x, A x ∧ p x = true)
    (h : ∀ s, (∀ x ∈ s, A x) →
      (List.Forall₂ (fun p x => p x = true) ps s ↔ List.Forall₂ (fun p x => p x = true) qs s)) :
    List.Forall₂ (fun p q => ∀ x, A x → p x = q x) ps qs := by
  induction ps generalizing qs with
  | nil =>
    cases qs with
    | nil => exact .nil
    | cons => simp at hlen
  | cons p ps ih =>
    cases qs with
    | nil => simp at hlen
    | cons q qs =>
      obtain ⟨x₀, hx₀, hp⟩ := hps p List.mem_cons_self
      obtain ⟨s₀, hs₀, hprod⟩ := exists_product A fun q hq => hps q (List.mem_cons_of_mem _ hq)
      have hcons : ∀ x s, A x → (∀ y ∈ s, A y) → (p x = true ∧ List.Forall₂ (fun p x => p x = true) ps s ↔
          q x = true ∧ List.Forall₂ (fun p x => p x = true) qs s) := by
        intro x s hx hs
        simpa using h (x :: s) (by simpa using ⟨hx, hs⟩)
      have h₀ := (hcons x₀ s₀ hx₀ hs₀).1 ⟨hp, hprod⟩
      apply List.Forall₂.cons
      · -- one letter changed in a word of the product
        intro x hx
        have := hcons x s₀ hx hs₀
        simp only [hprod, h₀.2, and_true] at this
        exact Bool.eq_iff_iff.2 this
      · apply ih (by simpa using hlen) fun q hq => hps q (List.mem_cons_of_mem _ hq)
        intro s hs
        have := hcons x₀ s hx₀ hs
        simpa [hp, h₀.1] using this

/-- Two patterns with their stars at the same places. -/
inductive Alike : List (Item α) → List (Item α) → Prop
  | nil : Alike [] []
  | star {is js : List (Item α)} : Alike is js → Alike (.star :: is) (.star :: js)
  | one {is js : List (Item α)} (p q : α → Bool) : Alike is js → Alike (.one p :: is) (.one q :: js)

/-- The two patterns have the same sets. -/
def SameSets (is js : List (Item α)) : Prop :=
  List.Forall₂ (fun p q : α → Bool => ∀ x, A x → p x = q x) (sets is) (sets js)

/-- A set of the pattern has no letter. -/
def Void (is : List (Item α)) : Prop := ∃ p ∈ sets is, ∀ x, A x → p x = false

variable {A}

theorem Alike.length {is js : List (Item α)} (h : Alike is js) : (sets is).length = (sets js).length := by
  induction h with
  | nil => rfl
  | star _ ih => exact ih
  | one p q _ ih => simp [sets, ih]

theorem Alike.matches_congr {is js : List (Item α)} (h : Alike is js) (hsame : SameSets A is js)
    {s : List α} (hs : ∀ x ∈ s, A x) : Matches is s ↔ Matches js s := by
  induction h generalizing s with
  | nil => rfl
  | star _ ih =>
    simp only [matches_star]
    exact exists_congr fun n => ih hsame fun x hx => hs x (List.mem_of_mem_drop hx)
  | one p q _ ih =>
    obtain ⟨hpq, hsame⟩ := List.forall₂_cons.1 hsame
    cases s with
    | nil => simp
    | cons x xs =>
      rw [List.forall_mem_cons] at hs
      rw [matches_one_cons, matches_one_cons, ih hsame hs.2, hpq x hs.1]

theorem not_matches_of_void {is : List (Item α)} (h : Void A is) {s : List α} (hs : ∀ x ∈ s, A x) :
    ¬Matches is s := by
  intro hm
  obtain ⟨p, hp, hno⟩ := h
  obtain ⟨x, hx, hpx⟩ := nonempty_of_matches hm p hp
  simp [hno x (hs x hx)] at hpx

/-- Without an empty set there are words. -/
theorem exists_word {is : List (Item α)} (h : ¬Void A is) : (∀ p ∈ sets is, ∃ x, A x ∧ p x = true) ∧
    ∃ s, (∀ x ∈ s, A x) ∧ Matches is s := by
  have hps : ∀ p ∈ sets is, ∃ x, A x ∧ p x = true := by
    simpa [Void] using h
  obtain ⟨s, hs, hprod⟩ := exists_product A hps
  exact ⟨hps, s, hs, (matches_shortest hprod.length_eq.symm).2 hprod⟩

/-- **Two patterns of one shape match the same words if and only if they have the same sets or each has
an empty one.** -/
theorem matches_iff_of_alike {is js : List (Item α)} (h : Alike is js) :
    (∀ s, (∀ x ∈ s, A x) → (Matches is s ↔ Matches js s)) ↔
      SameSets A is js ∨ Void A is ∧ Void A js := by
  constructor
  · intro heq
    by_cases his : Void A is
    · refine .inr ⟨his, ?_⟩
      by_contra hjs
      obtain ⟨-, s, hs, hm⟩ := exists_word hjs
      exact not_matches_of_void his hs ((heq s hs).2 hm)
    · obtain ⟨hps, s, hs, hm⟩ := exists_word his
      have hjs : ¬Void A js := fun hjs => not_matches_of_void hjs hs ((heq s hs).1 hm)
      refine .inl (sets_eq_of_products A h.length hps fun s hs => ?_)
      by_cases hlen : s.length = (sets is).length
      · rw [← matches_shortest hlen, ← matches_shortest (hlen.trans h.length)]
        exact heq s hs
      · constructor
        · intro hp
          exact absurd hp.length_eq.symm hlen
        · intro hq
          exact absurd (hq.length_eq.symm.trans h.length.symm) hlen
  · intro hor s hs
    cases hor with
    | inl hsame => exact h.matches_congr hsame hs
    | inr hvoid => exact iff_of_false (not_matches_of_void hvoid.1 hs) (not_matches_of_void hvoid.2 hs)

end

end Dbsql.Core.Wildcard
