import Mathlib.Data.List.Basic
/-!
# What is held

A run takes names, loses them and uses them. It is safe if each name it uses is held: it was taken
and has not been lost since. A loop whose rounds may end early is safe if its body is, and loses
nothing that it needs at its beginning.
-/
namespace Dbsql.Core.Held

variable {C : Type} [DecidableEq C]

inductive Ev (C : Type)
  | take (c : C)
  | lose (c : C)
  | use (c : C)
  deriving DecidableEq, Repr

/-- What is held after an event. -/
def after (own : List C) : Ev C → List C
  | .take c => c :: own
  | .lose c => own.filter (· ≠ c)
  | .use _ => own

def held (own : List C) (es : List (Ev C)) : List C := es.foldl after own

/-- Only what is held is used. -/
def Safe : List C → List (Ev C) → Prop
  | _, [] => True
  | own, .use c :: es => c ∈ own ∧ Safe own es
  | own, e :: es => Safe (after own e) es

instance decSafe : ∀ (own : List C) (es : List (Ev C)), Decidable (Safe own es)
  | _, [] => .isTrue trivial
  | own, .use c :: es =>
    have := decSafe own es
    inferInstanceAs (Decidable (c ∈ own ∧ Safe own es))
  | own, .take c :: es => decSafe (after own (.take c)) es
  | own, .lose c :: es => decSafe (after own (.lose c)) es

variable {own : List C} {xs ys es : List (Ev C)} {c : C} {P : List C}

theorem safe_append : Safe own (xs ++ ys) ↔ Safe own xs ∧ Safe (held own xs) ys := by
  induction xs generalizing own with
  | nil => exact ⟨fun h => ⟨trivial, h⟩, fun h => h.2⟩
  | cons e xs ih =>
    cases e with
    | use c => exact (and_congr_right fun _ => ih).trans and_assoc.symm
    | take c => exact ih
    | lose c => exact ih

theorem Safe.take (h : Safe own es) (k : Nat) : Safe own (es.take k) := by
  rw [← List.take_append_drop k es] at h
  exact (safe_append.1 h).1

/-- What is not lost stays held. -/
theorem mem_held (h : c ∈ own) (hl : Ev.lose c ∉ es) : c ∈ held own es := by
  induction es generalizing own with
  | nil => exact h
  | cons e es ih =>
    rw [List.mem_cons, not_or] at hl
    refine ih ?_ hl.2
    cases e with
    | take d => exact List.mem_cons_of_mem d h
    | lose d => exact List.mem_filter.2 ⟨h, by simpa using fun hd => hl.1 (by rw [hd])⟩
    | use d => exact h

/-- What is taken and not lost is held. -/
theorem mem_held_of_take (h : Ev.take c ∈ es) (hl : Ev.lose c ∉ es) : c ∈ held own es := by
  induction es generalizing own with
  | nil => cases h
  | cons e es ih =>
    rw [List.mem_cons, not_or] at hl
    rcases List.mem_cons.1 h with rfl | h
    · have hself : c ∈ after own (.take c) := List.mem_cons_self
      have hheld : c ∈ held (after own (.take c)) es := mem_held hself hl.2
      exact hheld
    · exact ih h hl.2

/-- What is not taken does not come back. -/
theorem not_mem_held (h : c ∉ own) (ht : Ev.take c ∉ es) : c ∉ held own es := by
  induction es generalizing own with
  | nil => exact h
  | cons e es ih =>
    rw [List.mem_cons, not_or] at ht
    refine ih ?_ ht.2
    cases e with
    | take d => exact fun hc => (List.mem_cons.1 hc).elim (fun hd => ht.1 (by rw [hd])) h
    | lose d => exact fun hc => h (List.mem_filter.1 hc).1
    | use d => exact h

/-- What is lost and not taken is not held. -/
theorem not_mem_held_of_lose (h : Ev.lose c ∈ es) (ht : Ev.take c ∉ es) : c ∉ held own es := by
  induction es generalizing own with
  | nil => cases h
  | cons e es ih =>
    rw [List.mem_cons, not_or] at ht
    rcases List.mem_cons.1 h with rfl | h
    · have hself : c ∉ after own (.lose c) := fun hc => by simp [after] at hc
      have hheld : c ∉ held (after own (.lose c)) es := not_mem_held hself ht.2
      exact hheld
    · exact ih h ht.2

/-- What is used is held from the start, and not lost. -/
theorem safe_of_held (h : ∀ c, Ev.use c ∈ es → c ∈ own ∧ Ev.lose c ∉ es) : Safe own es := by
  induction es generalizing own with
  | nil => trivial
  | cons e es ih =>
    have htail : ∀ d, Ev.use d ∈ es → d ∈ after own e ∧ Ev.lose d ∉ es := fun d hd => by
      obtain ⟨hown, hl⟩ := h d (List.mem_cons_of_mem e hd)
      rw [List.mem_cons, not_or] at hl
      have hheld : d ∈ held own [e] :=
        mem_held hown fun he => hl.1 (List.mem_singleton.1 he)
      exact ⟨hheld, hl.2⟩
    cases e with
    | use d => exact ⟨(h d List.mem_cons_self).1, ih htail⟩
    | take d => exact ih htail
    | lose d => exact ih htail

theorem safe_of_no_use (h : ∀ c, Ev.use c ∉ es) : Safe own es :=
  safe_of_held fun c hc => absurd hc (h c)

/-- What is used without being held or taken is not safe. -/
theorem not_safe_of_use (hu : Ev.use c ∈ es) (h : c ∉ own) (ht : Ev.take c ∉ es) :
    ¬ Safe own es := by
  intro hs
  obtain ⟨xs, ys, rfl⟩ := List.append_of_mem hu
  have hx : Ev.take c ∉ xs := fun hx => ht (List.mem_append_left _ hx)
  exact not_mem_held h hx (safe_append.1 hs).2.1

/-- **Rounds of a loop.** Each may end early. -/
theorem safe_rounds (hP : ∀ c ∈ P, Ev.lose c ∉ es) (hs : ∀ own, P ⊆ own → Safe own es)
    (h : P ⊆ own) (rounds : List Nat) : Safe own (rounds.flatMap fun k => es.take k) := by
  induction rounds generalizing own with
  | nil => trivial
  | cons k rounds ih =>
    rw [List.flatMap_cons, safe_append]
    refine ⟨(hs own h).take k, ih fun c hc => ?_⟩
    exact mem_held (h hc) fun hl => hP c hc (List.mem_of_mem_take hl)

end Dbsql.Core.Held
