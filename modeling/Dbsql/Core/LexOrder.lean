import Mathlib.Data.List.ModifyLast
import Mathlib.Order.Lattice
import Mathlib.Tactic.Common
/-!
# Lexicographic order of concatenated encodings

`List.compareLex cmp` orders strings over an ordered alphabet, shorter first.
An `OrderedCode` encodes each field by a string such that two strings compare
like the fields whatever follows them; then concatenations of equally many
fields compare field by field (`OrderedCode.concat`), and raising the last
letter of a concatenation gives an exact strict upper bound of all strings that
extend it (`OrderedCode.concat_bump`).

`terminated` is the basic such code: strings over the letters above `z`, each
closed by `z`. `compareLex_digits` is the fixed-width one: big-endian digits of
one length compare like their values.
-/
namespace Dbsql.Core.Lex
open List (compareLex)

variable {α β : Type} {cmp : β → β → Ordering}

theorem compareLex_cons_self [Std.ReflCmp cmp] (a : β) (x y : List β) :
    compareLex cmp (a :: x) (a :: y) = compareLex cmp x y := by
  rw [List.compareLex_cons_cons, @Std.ReflCmp.compare_self _ cmp, Ordering.eq_then]

theorem compareLex_append_self [Std.ReflCmp cmp] (p x y : List β) :
    compareLex cmp (p ++ x) (p ++ y) = compareLex cmp x y := by
  induction p with
  | nil => rfl
  | cons a p ih => rw [List.cons_append, List.cons_append, compareLex_cons_self, ih]

theorem compareLex_self [Std.ReflCmp cmp] (p : List β) : compareLex cmp p p = .eq := by
  have : compareLex cmp (p ++ []) (p ++ []) = _ := compareLex_append_self p [] []
  rwa [List.append_nil, List.compareLex_nil_nil] at this

theorem compareLex_eq_iff :
    ∀ x y : List β, compareLex cmp x y = .eq ↔ List.Forall₂ (fun a b => cmp a b = .eq) x y
  | [], [] => by simp [List.compareLex_nil_nil]
  | [], _ :: _ => by
    rw [List.compareLex_nil_cons]
    exact ⟨fun h => (by cases h), fun h => (by cases h)⟩
  | _ :: _, [] => by
    rw [List.compareLex_cons_nil]
    exact ⟨fun h => (by cases h), fun h => (by cases h)⟩
  | a :: x, b :: y => by
    rw [List.compareLex_cons_cons, Ordering.then_eq_eq, List.forall₂_cons, compareLex_eq_iff x y]

/-- Two comparisons agree if they have the same less and the same greater. -/
theorem compare_congr {γ δ : Type} [LinearOrder γ] [LinearOrder δ] {a b : γ} {c d : δ}
    (h : a < b ↔ c < d) (h' : b < a ↔ d < c) : compare a b = compare c d := by
  rcases lt_trichotomy a b with hlt | heq | hgt
  · rw [compare_lt_iff_lt.2 hlt, compare_lt_iff_lt.2 (h.1 hlt)]
  · subst heq
    have : c = d := le_antisymm (not_lt.1 fun hd => lt_irrefl a (h'.2 hd))
      (not_lt.1 fun hd => lt_irrefl a (h.2 hd))
    rw [compare_eq_iff_eq.2 rfl, compare_eq_iff_eq.2 this]
  · rw [compare_gt_iff_gt.2 hgt, compare_gt_iff_gt.2 (h'.1 hgt)]

/-- Renaming the letters in order does not change the comparison. -/
theorem compareLex_map {cmp' : α → α → Ordering} (f : α → β) :
    ∀ x y : List α, (∀ a ∈ x, ∀ b ∈ y, cmp (f a) (f b) = cmp' a b) →
      compareLex cmp (x.map f) (y.map f) = compareLex cmp' x y
  | [], [], _ => rfl
  | [], _ :: _, _ => rfl
  | _ :: _, [], _ => rfl
  | a :: x, b :: y, h => by
    rw [List.map_cons, List.map_cons, List.compareLex_cons_cons, List.compareLex_cons_cons,
      h a (by simp) b (by simp),
      compareLex_map f x y fun a ha b hb => h a (by simp [ha]) b (by simp [hb])]

/-! ## Terminated strings -/

section Terminated
variable [Std.TransCmp cmp] [Std.LawfulEqCmp cmp]

/-- Two different strings over the letters above `z` compare, once closed by
`z`, as before, whatever follows. -/
theorem compareLex_terminated {z : β} :
    ∀ (s t : List β), (∀ b ∈ s, cmp z b = .lt) → (∀ b ∈ t, cmp z b = .lt) → s ≠ t →
      ∀ x y, compareLex cmp (s ++ z :: x) (t ++ z :: y) = compareLex cmp s t
  | [], [], _, _, hne, _, _ => absurd rfl hne
  | [], b :: t, _, ht, _, x, y => by
    rw [List.nil_append, List.cons_append, List.compareLex_cons_cons, ht b (by simp)]
    rfl
  | a :: s, [], hs, _, _, x, y => by
    have : cmp a z = .gt := by rw [@Std.OrientedCmp.eq_swap _ cmp, hs a (by simp)]; rfl
    rw [List.nil_append, List.cons_append, List.compareLex_cons_cons, this]
    rfl
  | a :: s, b :: t, hs, ht, hne, x, y => by
    rw [List.cons_append, List.cons_append, List.compareLex_cons_cons, List.compareLex_cons_cons]
    by_cases hab : a = b
    · subst hab
      rw [compareLex_terminated s t (fun b hb => hs b (by simp [hb])) (fun b hb => ht b (by simp [hb]))
        (by simpa using hne) x y]
    · have hc : cmp a b ≠ .eq := fun h => hab (Std.LawfulEqCmp.eq_of_compare h)
      cases h : cmp a b
      · rfl
      · exact absurd h hc
      · rfl

/-- The same when the right terminator is raised to `z'`, the letter next above
`z`, and nothing follows it. -/
theorem compareLex_terminated_bump {z z' : β} (hz : cmp z z' = .lt)
    (hnext : ∀ b, cmp z b = .lt → b ≠ z' → cmp z' b = .lt) :
    ∀ (s t : List β), (∀ b ∈ s, cmp z b = .lt) → (∀ b ∈ t, cmp z b = .lt) → s ≠ t →
      ∀ x, compareLex cmp (s ++ z :: x) (t ++ [z']) = compareLex cmp s t
  | [], [], _, _, hne, _ => absurd rfl hne
  | [], b :: t, _, ht, _, x => by
    rw [List.nil_append, List.cons_append, List.compareLex_cons_cons, ht b (by simp)]
    rfl
  | a :: s, [], hs, _, _, x => by
    rw [List.nil_append, List.cons_append, List.compareLex_cons_cons]
    by_cases haz : a = z'
    · -- the raised terminator is met by an equal letter, but more follows on the left
      subst haz
      rw [@Std.ReflCmp.compare_self _ cmp, Ordering.eq_then]
      cases s <;> rfl
    · have : cmp a z' = .gt := by
        rw [@Std.OrientedCmp.eq_swap _ cmp, hnext a (hs a (by simp)) haz]; rfl
      rw [this]
      rfl
  | a :: s, b :: t, hs, ht, hne, x => by
    rw [List.cons_append, List.cons_append, List.compareLex_cons_cons, List.compareLex_cons_cons]
    by_cases hab : a = b
    · subst hab
      rw [compareLex_terminated_bump hz hnext s t (fun b hb => hs b (by simp [hb]))
        (fun b hb => ht b (by simp [hb])) (by simpa using hne) x]
    · have hc : cmp a b ≠ .eq := fun h => hab (Std.LawfulEqCmp.eq_of_compare h)
      cases h : cmp a b
      · rfl
      · exact absurd h hc
      · rfl

end Terminated

/-! ## Concatenations of fields -/

/-- `enc` orders its fields by `fcmp` whatever follows them; `bump` raises the
last letter of a string. -/
structure OrderedCode (fcmp : α → α → Ordering) (cmp : β → β → Ordering) (enc : α → List β)
    (bump : β → β) : Prop where
  ne_nil : ∀ a, enc a ≠ []
  eq : ∀ a b, fcmp a b = .eq → enc a = enc b
  ne : ∀ a b, fcmp a b ≠ .eq → ∀ x y, compareLex cmp (enc a ++ x) (enc b ++ y) = fcmp a b
  bump_ne : ∀ a b, fcmp a b ≠ .eq → ∀ x,
    compareLex cmp (enc a ++ x) ((enc b).modifyLast bump) = fcmp a b
  bump_self : ∀ a x, compareLex cmp (enc a ++ x) ((enc a).modifyLast bump) = .lt

namespace OrderedCode
variable {fcmp : α → α → Ordering} {enc : α → List β} {bump : β → β}

/-- Concatenations of equally many fields compare field by field, then by what
follows. -/
theorem concat [Std.ReflCmp cmp] (h : OrderedCode fcmp cmp enc bump) :
    ∀ as bs : List α, as.length = bs.length → ∀ x y,
      compareLex cmp (as.flatMap enc ++ x) (bs.flatMap enc ++ y) =
        (compareLex fcmp as bs).then (compareLex cmp x y)
  | [], [], _, x, y => by simp [List.compareLex_nil_nil]
  | a :: as, b :: bs, hl, x, y => by
    rw [List.flatMap_cons, List.flatMap_cons, List.append_assoc, List.append_assoc,
      List.compareLex_cons_cons]
    by_cases hc : fcmp a b = .eq
    · rw [h.eq a b hc, compareLex_append_self, hc, Ordering.eq_then,
        concat h as bs (by simpa using hl) x y]
    · rw [h.ne a b hc]
      cases hf : fcmp a b
      · rfl
      · exact absurd hf hc
      · rfl

/-- Raising the last letter of a non-empty concatenation: the strings that
extend it stay below, all others compare as before. -/
theorem concat_bump [Std.ReflCmp cmp] (h : OrderedCode fcmp cmp enc bump) :
    ∀ as bs : List α, as.length = bs.length → bs ≠ [] → ∀ x,
      compareLex cmp (as.flatMap enc ++ x) ((bs.flatMap enc).modifyLast bump) =
        (compareLex fcmp as bs).then .lt
  | [], [], _, hne, _ => absurd rfl hne
  | [a], [b], _, _, x => by
    rw [List.flatMap_singleton, List.flatMap_singleton, List.compareLex_cons_cons,
      List.compareLex_nil_nil]
    by_cases hc : fcmp a b = .eq
    · rw [h.eq a b hc, h.bump_self, hc]
      rfl
    · rw [h.bump_ne a b hc]
      cases hf : fcmp a b
      · rfl
      · exact absurd hf hc
      · rfl
  | a :: a' :: as, b :: b' :: bs, hl, _, x => by
    have hne : (b' :: bs).flatMap enc ≠ [] := by
      rw [List.flatMap_cons]
      exact List.append_ne_nil_of_left_ne_nil (h.ne_nil b') _
    rw [List.flatMap_cons, @List.flatMap_cons _ _ b, List.append_assoc,
      List.modifyLast_append_of_right_ne_nil _ _ _ hne, List.compareLex_cons_cons]
    by_cases hc : fcmp a b = .eq
    · rw [h.eq a b hc, compareLex_append_self, hc, Ordering.eq_then,
        concat_bump h (a' :: as) (b' :: bs) (by simpa using hl) (by simp) x]
    · rw [h.ne a b hc]
      cases hf : fcmp a b
      · rfl
      · exact absurd hf hc
      · rfl

/-- Fields written over the letters above `z`, each closed by `z`. -/
theorem of_terminated [Std.TransCmp cmp] [Std.LawfulEqCmp cmp] {body : α → List β} {z : β}
    (habove : ∀ a, ∀ b ∈ body a, cmp z b = .lt) (hz : cmp z (bump z) = .lt)
    (hnext : ∀ b, cmp z b = .lt → b ≠ bump z → cmp (bump z) b = .lt)
    (hcmp : ∀ a b, compareLex cmp (body a) (body b) = fcmp a b) :
    OrderedCode fcmp cmp (fun a => body a ++ [z]) bump := by
  have hne : ∀ a b, fcmp a b ≠ .eq → body a ≠ body b := by
    intro a b h e
    rw [← hcmp, e, compareLex_self] at h
    exact h rfl
  refine ⟨fun a => by simp, fun a b h => ?_, fun a b h x y => ?_, fun a b h x => ?_, fun a x => ?_⟩
  · have : body a = body b := by
      rw [← hcmp] at h
      exact Std.LawfulEqCmp.eq_of_compare h
    rw [this]
  · rw [List.append_assoc, List.append_assoc, ← hcmp]
    exact compareLex_terminated _ _ (habove a) (habove b) (hne a b h) x y
  · rw [List.modifyLast_append_of_right_ne_nil _ _ _ (by simp), List.append_assoc, ← hcmp]
    exact compareLex_terminated_bump hz hnext _ _ (habove a) (habove b) (hne a b h) x
  · rw [List.modifyLast_append_of_right_ne_nil _ _ _ (by simp), List.append_assoc, compareLex_append_self]
    show compareLex cmp (z :: x) [bump z] = .lt
    rw [List.compareLex_cons_cons, hz]
    rfl

end OrderedCode

/-! ## Fixed-width numerals -/

/-- The value of a big-endian numeral. -/
def digitsVal (base : Nat) (ds : List Nat) : Nat := ds.foldl (fun v d => v * base + d) 0

theorem compareLex_digits_go {base : Nat} :
    ∀ (x y : List Nat), x.length = y.length → (∀ d ∈ x, d < base) → (∀ d ∈ y, d < base) →
      ∀ v w : Nat, (compare v w).then (compareLex compare x y) =
        compare (x.foldl (fun v d => v * base + d) v) (y.foldl (fun v d => v * base + d) w)
  | [], [], _, _, _, v, w => by simp [List.compareLex_nil_nil]
  | a :: x, b :: y, hl, hx, hy, v, w => by
    have ha := hx a (by simp)
    have hb := hy b (by simp)
    rw [List.foldl_cons, List.foldl_cons, ← compareLex_digits_go x y (by simpa using hl)
      (fun d hd => hx d (by simp [hd])) (fun d hd => hy d (by simp [hd])), List.compareLex_cons_cons,
      ← Ordering.then_assoc]
    congr 1
    rcases Nat.lt_trichotomy v w with h | h | h
    · have h1 := Nat.mul_le_mul_right base h
      rw [Nat.succ_mul] at h1
      rw [Nat.compare_eq_lt.2 h, Nat.compare_eq_lt.2 (show v * base + a < w * base + b by omega)]
      rfl
    · subst h
      rw [Nat.compare_eq_eq.2 rfl, Ordering.eq_then]
      rcases Nat.lt_trichotomy a b with h' | h' | h'
      · rw [Nat.compare_eq_lt.2 h', Nat.compare_eq_lt.2 (by omega)]
      · rw [h', Nat.compare_eq_eq.2 rfl, Nat.compare_eq_eq.2 rfl]
      · rw [Nat.compare_eq_gt.2 h', Nat.compare_eq_gt.2 (by omega)]
    · have h1 := Nat.mul_le_mul_right base h
      rw [Nat.succ_mul] at h1
      rw [Nat.compare_eq_gt.2 h, Nat.compare_eq_gt.2 (show w * base + b < v * base + a by omega)]
      rfl

/-- Numerals of one width compare like their values. -/
theorem compareLex_digits {base : Nat} (x y : List Nat) (hl : x.length = y.length)
    (hx : ∀ d ∈ x, d < base) (hy : ∀ d ∈ y, d < base) :
    compareLex compare x y = compare (digitsVal base x) (digitsVal base y) := by
  have := compareLex_digits_go x y hl hx hy 0 0
  rwa [Nat.compare_eq_eq.2 rfl, Ordering.eq_then] at this

end Dbsql.Core.Lex
