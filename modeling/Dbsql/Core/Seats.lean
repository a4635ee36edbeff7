import Mathlib.Data.Finset.Card
import Mathlib.Data.List.Nodup
import Mathlib.Data.List.TakeWhile
/-!
# Seats

There are `n` seats, and who comes first gets the next one, until all are taken. A seat is a bit of a
word of `n` bits: a set of those who came is the union of their bits, and who has no seat is in no set.

Results:
* `mem_seats_iff`: who gets a seat.
* `mask_subset_iff`: what it says about two sets that the bits of one are among those of the other.
-/
namespace Dbsql.Core.Seats

variable {α : Type} [DecidableEq α] {n : Nat} {ix jx : List α} {c : α}

/-! ## Who gets a seat -/

/-- The seats when `c` has come. -/
def seat (n : Nat) (ix : List α) (c : α) : List α := if c ∈ ix ∨ n ≤ ix.length then ix else ix ++ [c]

/-- The seats when all of a list have come. -/
def seats (n : Nat) (ix : List α) (xs : List α) : List α := xs.foldl (seat n) ix

theorem seats_append (xs ys : List α) : seats n ix (xs ++ ys) = seats n (seats n ix xs) ys :=
  List.foldl_append

theorem seat_of_mem (h : c ∈ ix) : seat n ix c = ix := if_pos (.inl h)

theorem seat_of_full (h : n ≤ ix.length) : seat n ix c = ix := if_pos (.inr h)

theorem seat_of_new (h : c ∉ ix) (hlt : ix.length < n) : seat n ix c = ix ++ [c] :=
  if_neg (not_or.2 ⟨h, by omega⟩)

theorem prefix_seat (ix : List α) (c : α) : ix <+: seat n ix c := by
  unfold seat
  split
  · exact List.prefix_rfl
  · exact List.prefix_append ix [c]

theorem prefix_seats (ix xs : List α) : ix <+: seats n ix xs := by
  induction xs generalizing ix with
  | nil => exact List.prefix_rfl
  | cons x xs ih => exact (prefix_seat ix x).trans (ih (seat n ix x))

theorem nodup_seat (h : ix.Nodup) (c : α) : (seat n ix c).Nodup := by
  unfold seat
  split
  · exact h
  · next hc =>
    rw [not_or] at hc
    exact List.nodup_append.2 ⟨h, List.nodup_singleton c, fun a ha b hb =>
      fun e => hc.1 (List.mem_singleton.1 hb ▸ e ▸ ha)⟩

theorem length_seat_le (h : ix.length ≤ n) (c : α) : (seat n ix c).length ≤ n := by
  unfold seat
  split
  · exact h
  · next hc =>
    rw [not_or] at hc
    rw [List.length_append, List.length_singleton]
    omega

theorem nodup_seats (h : ix.Nodup) (xs : List α) : (seats n ix xs).Nodup := by
  induction xs generalizing ix with
  | nil => exact h
  | cons x xs ih => exact ih (nodup_seat h x)

theorem length_seats_le (h : ix.length ≤ n) (xs : List α) : (seats n ix xs).length ≤ n := by
  induction xs generalizing ix with
  | nil => exact h
  | cons x xs ih => exact ih (length_seat_le h x)

theorem seats_of_full (h : n ≤ ix.length) (xs : List α) : seats n ix xs = ix := by
  induction xs with
  | nil => rfl
  | cons x xs ih =>
    show seats n (seat n ix x) xs = ix
    rw [seat_of_full h, ih]

/-- Who has come has a seat, or none is left. -/
theorem mem_seat_or_full (ix : List α) (c : α) : c ∈ seat n ix c ∨ n ≤ (seat n ix c).length := by
  by_cases h : c ∈ ix ∨ n ≤ ix.length
  · rw [seat, if_pos h]
    exact h
  · rw [seat, if_neg h]
    exact .inl (List.mem_append_right ix (List.mem_singleton_self c))

theorem mem_seats_or_full {xs : List α} (h : c ∈ xs) : c ∈ seats n ix xs ∨ n ≤ (seats n ix xs).length := by
  obtain ⟨as, bs, rfl⟩ := List.append_of_mem h
  rw [seats_append]
  have hp : seat n (seats n ix as) c <+: seats n (seats n ix as) (c :: bs) := prefix_seats _ bs
  rcases mem_seat_or_full (n := n) (seats n ix as) c with hc | hfull
  · exact .inl (hp.subset hc)
  · exact .inr (hfull.trans hp.length_le)

/-- Who gets a seat that comes at all: who has one, or before whom less than `n` others were there. -/
theorem mem_seats_of_mem {xs : List α} (hix : ix.Nodup) (h : c ∈ xs) :
    c ∈ seats n ix xs ↔ c ∈ ix ∨ (ix ++ xs.takeWhile (· ≠ c)).toFinset.card < n := by
  induction xs generalizing ix with
  | nil => cases h
  | cons x xs ih =>
    show c ∈ seats n (seat n ix x) xs ↔ _
    have hcard : ix.toFinset.card = ix.length := List.toFinset_card_of_nodup hix
    by_cases hx : x = c
    · subst hx
      rw [List.takeWhile_cons_of_neg (by simp), List.append_nil, hcard]
      by_cases hmem : x ∈ ix
      · exact ⟨fun _ => .inl hmem, fun _ => (prefix_seats _ xs).subset ((prefix_seat ix x).subset hmem)⟩
      · rcases Nat.lt_or_ge ix.length n with hlt | hge
        · rw [seat_of_new hmem hlt]
          exact ⟨fun _ => .inr hlt, fun _ => (prefix_seats _ xs).subset
            (List.mem_append_right ix (List.mem_singleton_self x))⟩
        · rw [seat_of_full hge, seats_of_full hge]
          exact ⟨.inl, fun h => h.resolve_right (by omega)⟩
    · have hc : c ∈ xs := (List.mem_cons.1 h).resolve_left fun e => hx e.symm
      rw [ih (nodup_seat hix x) hc, List.takeWhile_cons_of_pos (by simpa using hx)]
      by_cases hmem : x ∈ ix
      · have hset : (ix ++ x :: xs.takeWhile (· ≠ c)).toFinset = (ix ++ xs.takeWhile (· ≠ c)).toFinset := by
          ext a
          simp only [List.mem_toFinset, List.mem_append, List.mem_cons]
          constructor
          · rintro (ha | rfl | ha)
            exacts [.inl ha, .inl hmem, .inr ha]
          · rintro (ha | ha)
            exacts [.inl ha, .inr (.inr ha)]
        rw [seat_of_mem hmem, hset]
      · rcases Nat.lt_or_ge ix.length n with hlt | hge
        · have hmem' : c ∈ ix ++ [x] ↔ c ∈ ix := by
            rw [List.mem_append, List.mem_singleton]
            exact or_iff_left fun e => hx e.symm
          rw [seat_of_new hmem hlt, hmem', List.append_assoc, List.singleton_append]
        · have hmany : ∀ ys : List α, ¬ (ix ++ ys).toFinset.card < n := fun ys hys => by
            have hle : ix.toFinset.card ≤ (ix ++ ys).toFinset.card := by
              rw [List.toFinset_append]
              exact Finset.card_le_card Finset.subset_union_left
            omega
          rw [seat_of_full hge, or_iff_left (hmany _), or_iff_left (hmany _)]

/-- Who gets a seat when nobody has one at first. -/
theorem mem_seats_iff {xs : List α} (h : c ∈ xs) :
    c ∈ seats n [] xs ↔ (xs.takeWhile (· ≠ c)).toFinset.card < n := by
  rw [mem_seats_of_mem List.nodup_nil h, List.nil_append]
  exact or_iff_right List.not_mem_nil

/-! ## The bits of the seats -/

/-- The bit of a seat, and none for who has no seat. -/
def bit (n : Nat) (ix : List α) (c : α) : BitVec n := if c ∈ ix then 1#n <<< ix.idxOf c else 0#n

/-- The bits of some of those who came. -/
def mask (n : Nat) (ix : List α) (cs : List α) : BitVec n := cs.foldr (fun c m => bit n ix c ||| m) 0#n

theorem mask_append (ix cs ds : List α) : mask n ix (cs ++ ds) = mask n ix cs ||| mask n ix ds := by
  induction cs with
  | nil => simp [mask]
  | cons c cs ih =>
    show bit n ix c ||| mask n ix (cs ++ ds) = bit n ix c ||| mask n ix cs ||| mask n ix ds
    rw [ih, BitVec.or_assoc]

theorem mask_singleton (ix : List α) (c : α) : mask n ix [c] = bit n ix c := BitVec.or_zero

/-- A seat keeps its bit, and who came too late never gets one. -/
theorem bit_of_prefix (hp : ix <+: jx) (hle : jx.length ≤ n) (h : c ∈ ix ∨ n ≤ ix.length) :
    bit n ix c = bit n jx c := by
  rcases h with h | h
  · obtain ⟨ys, rfl⟩ := hp
    rw [bit, bit, if_pos h, if_pos (List.mem_append_left ys h), List.idxOf_append_of_mem h]
  · rw [hp.eq_of_length_le (by omega)]

theorem getLsbD_bit (hix : ix.Nodup) (hle : ix.length ≤ n) (c : α) (k : Nat) :
    (bit n ix c).getLsbD k = decide (ix[k]? = some c) := by
  unfold bit
  split
  · next h =>
    have hlt : ix.idxOf c < ix.length := List.idxOf_lt_length_of_mem h
    rw [← BitVec.twoPow_eq, BitVec.getLsbD_twoPow, decide_eq_true (by omega : ix.idxOf c < n), Bool.true_and]
    refine decide_eq_decide.2 ⟨fun e => ?_, fun e => ?_⟩
    · rw [← e, List.getElem?_eq_getElem hlt, List.getElem_idxOf]
    · obtain ⟨hk, he⟩ := List.getElem?_eq_some_iff.1 e
      exact (List.Nodup.getElem_inj_iff hix).1 ((List.getElem_idxOf hlt).trans he.symm)
  · next h =>
    rw [BitVec.getLsbD_zero]
    exact (decide_eq_false fun e => h (List.mem_of_getElem? e)).symm

theorem getLsbD_mask (hix : ix.Nodup) (hle : ix.length ≤ n) (cs : List α) (k : Nat) :
    (mask n ix cs).getLsbD k = true ↔ ∃ c ∈ cs, ix[k]? = some c := by
  induction cs with
  | nil => simp [mask]
  | cons c cs ih =>
    show (bit n ix c ||| mask n ix cs).getLsbD k = true ↔ _
    rw [BitVec.getLsbD_or, Bool.or_eq_true, getLsbD_bit hix hle, decide_eq_true_iff, ih,
      List.exists_mem_cons_iff]

/-- A bit taken out takes one out of the set. -/
theorem mask_remove (hix : ix.Nodup) (hle : ix.length ≤ n) (cs : List α) (c : α) :
    mask n ix cs &&& ~~~ bit n ix c = mask n ix (cs.filter (· ≠ c)) := by
  refine BitVec.eq_of_getLsbD_eq fun k hk => ?_
  rw [BitVec.getLsbD_and, BitVec.getLsbD_not, decide_eq_true hk, Bool.true_and, getLsbD_bit hix hle,
    Bool.eq_iff_iff, Bool.and_eq_true, getLsbD_mask hix hle, getLsbD_mask hix hle, Bool.not_eq_true',
    decide_eq_false_iff_not]
  constructor
  · rintro ⟨⟨d, hd, hkd⟩, hne⟩
    exact ⟨d, List.mem_filter.2 ⟨hd, decide_eq_true fun e => hne (e ▸ hkd)⟩, hkd⟩
  · rintro ⟨d, hd, hkd⟩
    obtain ⟨hd, hne⟩ := List.mem_filter.1 hd
    exact ⟨⟨d, hd, hkd⟩, fun hkc => of_decide_eq_true hne (Option.some.inj (hkd.symm.trans hkc))⟩

/-- The bits of one set are among those of another, just when those of the one who have a seat
belong to the other. -/
theorem mask_subset_iff (hix : ix.Nodup) (hle : ix.length ≤ n) (cs ds : List α) :
    mask n ix cs &&& mask n ix ds = mask n ix cs ↔ ∀ c ∈ cs, c ∈ ix → c ∈ ds := by
  constructor
  · intro h c hc hseat
    obtain ⟨k, hk⟩ := List.getElem?_of_mem hseat
    have hbit : (mask n ix cs).getLsbD k = true := (getLsbD_mask hix hle cs k).2 ⟨c, hc, hk⟩
    rw [← h, BitVec.getLsbD_and, Bool.and_eq_true] at hbit
    obtain ⟨d, hd, hkd⟩ := (getLsbD_mask hix hle ds k).1 hbit.2
    rw [hk] at hkd
    exact Option.some.inj hkd ▸ hd
  · intro h
    refine BitVec.eq_of_getLsbD_eq fun k _ => ?_
    rw [BitVec.getLsbD_and, Bool.eq_iff_iff, Bool.and_eq_true]
    refine and_iff_left_of_imp fun hk => ?_
    obtain ⟨c, hc, hkc⟩ := (getLsbD_mask hix hle cs k).1 hk
    exact (getLsbD_mask hix hle ds k).2 ⟨c, h c hc (List.mem_of_getElem? hkc), hkc⟩

end Dbsql.Core.Seats
