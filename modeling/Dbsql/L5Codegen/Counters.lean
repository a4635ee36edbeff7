import Dbsql.Core.Fresh
import Dbsql.L5Codegen.Select
/-!
# The counters of LIMIT and OFFSET

The cells that `__compute_limit_registers` fills are counted up by `OP_MemIncr` until they
are positive. `gate` says which rows of a loop they let through, whatever becomes of these,
and `gates` the same of loops that share them.

Results:
* `gates_window`: the loops together let a window through, with a limit if they are fewer
  than 2^31, and without one if there are fewer than 2^31 rows behind the offset.
* `gate_overflow`: without a limit and with more rows, one is lost: the counter becomes
  negative again.
-/
namespace Dbsql.L5.Query
open Dbsql.Core Dbsql.L1

/-! ## The counters -/

theorem toInt_succ {i : CInt} (h : i.toInt < 2147483647) : (i + 1).toInt = i.toInt + 1 := by
  have h₁ : (-2147483648 : Int) ≤ i.toInt := i.le_toInt
  rw [BitVec.toInt_add, show (1 : CInt).toInt = 1 from rfl, Int.bmod_def]
  split <;> omega

theorem toInt_neg {n : CInt} (h : 0 ≤ n.toInt) : (-n).toInt = -n.toInt := by
  have h₁ : n.toInt < 2147483648 := n.toInt_lt
  rw [BitVec.toInt_neg, Int.bmod_def]
  split <;> omega

/-- The largest value is followed by the smallest. -/
theorem toInt_succ_max {i : CInt} (h : i.toInt = 2147483647) : (i + 1).toInt < 0 := by
  rw [BitVec.toInt_add, h, show (1 : CInt).toInt = 1 from rfl]
  decide

section
variable {l : Limits} {i o : CInt}

theorem countOffset_none (h : l.iOffset = none) : countOffset l = some (false, l) := by
  rw [countOffset, h]

theorem countOffset_some (h : l.iOffset = some (some o)) :
    countOffset l = some (!decide (0 < (o + 1).toInt), { l with iOffset := some (some (o + 1)) }) := by
  rw [countOffset, h]
  rfl

theorem countLimit_none (h : l.iLimit = none) : countLimit l = some (.pass, l) := by
  rw [countLimit, h]

theorem countLimit_some (h : l.iLimit = some (some i)) :
    countLimit l = some (if 0 < (i + 1).toInt then .brk else .pass,
      { l with iLimit := some (some (i + 1)) }) := by
  rw [countLimit, h]
  simp only [memIncr, Option.map_some, decide_eq_true_eq]

theorem countRow_eq {skip : Bool} {l' : Limits} (h : countOffset l = some (skip, l')) :
    countRow l = if skip then some (.cont, l') else countLimit l' := by
  rw [countRow, h]
  rfl

end

section
variable {α β : Type}

/-- The rows that the counters let through in one loop. -/
def gate : List α → Limits → Option (List α × Limits)
  | [], l => some ([], l)
  | x :: xs, l => do
    let (c, l) ← countRow l
    match c with
    | .cont => gate xs l
    | .brk => some ([], l)
    | .pass => (gate xs l).map fun (p, l) => (x :: p, l)

/-- In one loop after the other. -/
def gates : List (List α) → Limits → Option (List (List α) × Limits)
  | [], l => some ([], l)
  | xs :: xss, l => do
    let (p, l) ← gate xs l
    (gates xss l).map fun (ps, l) => (p :: ps, l)

variable {l : Limits} {k q c : Nat}

theorem flatten_sublist {xss yss : List (List α)} (h : List.Forall₂ List.Sublist xss yss) :
    xss.flatten.Sublist yss.flatten := by
  induction h with
  | nil => exact .slnil
  | cons h _ ih => exact h.append ih

theorem gate_map (f : α → β) (xs : List α) (l : Limits) :
    gate (xs.map f) l = (gate xs l).map fun p => (p.1.map f, p.2) := by
  induction xs generalizing l with
  | nil => rfl
  | cons x xs ih =>
    rw [List.map_cons, gate, gate]
    cases hc : countRow l with
    | none => rfl
    | some cl =>
      obtain ⟨c, l'⟩ := cl
      cases c with
      | cont => exact ih l'
      | brk => rfl
      | pass =>
        simp only [Option.bind_eq_bind, Option.bind_some, ih l', Option.map_map]
        rfl

/-- Without registers every row goes through. -/
theorem gate_none (xs : List α) : gate xs .none = some (xs, .none) := by
  induction xs with
  | nil => rfl
  | cons x xs ih =>
    have hc : countRow .none = some (.pass, .none) := rfl
    rw [gate, hc]
    simp only [Option.bind_eq_bind, Option.bind_some, ih]
    rfl

theorem gates_none (xss : List (List α)) : gates xss .none = some (xss, .none) := by
  induction xss with
  | nil => rfl
  | cons xs xss ih =>
    rw [gates, gate_none]
    simp only [Option.bind_eq_bind, Option.bind_some, ih]
    rfl

/-! ### With a limit -/

/-- The counters of a limit with `k` rows still to drop and `q` to keep, with loops to come
that are fewer than `c`. -/
structure At (l : Limits) (k q c : Nat) : Prop where
  few : q < 2147483648 ∧ c < 2147483648
  limit : ∃ i : CInt, l.iLimit = some (some i) ∧ (0 < q → i.toInt = -q) ∧
    (q = 0 → 0 ≤ i.toInt ∧ i.toInt + c < 2147483648)
  offset : (l.iOffset = none ∧ k = 0) ∨ ∃ o : CInt, l.iOffset = some (some o) ∧
    (0 < k → o.toInt = -k) ∧ (k = 0 → 0 < q → 0 ≤ o.toInt ∧ o.toInt + q < 2147483648)

theorem At.mono (h : At l k q (c + 1)) : At l k q c := by
  obtain ⟨⟨hq, hc⟩, ⟨i, hi, hpos, hzero⟩, ho⟩ := h
  exact ⟨⟨hq, by omega⟩, ⟨i, hi, hpos, fun h0 => by have := hzero h0; omega⟩, ho⟩

/-- A row to drop. -/
theorem At.drop (h : At l (k + 1) q c) : ∃ l', countRow l = some (.cont, l') ∧ At l' k q c := by
  obtain ⟨few, hlim, ⟨-, hk⟩ | ⟨o, ho, hneg, -⟩⟩ := h
  · cases hk
  · have hneg := hneg (Nat.succ_pos k)
    have hsucc : (o + 1).toInt = -(k : Int) := by
      rw [toInt_succ (by omega)]
      omega
    refine ⟨{ l with iOffset := some (some (o + 1)) }, ?_, few, hlim, .inr ⟨o + 1, rfl, ?_, ?_⟩⟩
    · rw [countRow_eq (countOffset_some ho), decide_eq_false (by omega)]
      rfl
    · exact fun _ => hsucc
    · intro hk hq
      omega

/-- What the offset counter does with a row when none is to drop. -/
theorem At.offset_past (h : At l 0 q c) : ∃ skip l', countOffset l = some (skip, l') ∧
    l'.iLimit = l.iLimit ∧ (0 < q → skip = false) ∧
    ((l'.iOffset = none) ∨ ∃ o : CInt, l'.iOffset = some (some o) ∧
      (0 < q → 0 ≤ o.toInt ∧ o.toInt + (q - 1 : Nat) < 2147483648)) := by
  obtain ⟨few, -, ⟨ho, -⟩ | ⟨o, ho, -, hpos⟩⟩ := h
  · exact ⟨false, l, countOffset_none ho, rfl, fun _ => rfl, .inl ho⟩
  · refine ⟨_, _, countOffset_some ho, rfl, fun hq => ?_, .inr ⟨o + 1, rfl, fun hq => ?_⟩⟩
    · obtain ⟨h₁, h₂⟩ := hpos rfl hq
      rw [toInt_succ (by omega), decide_eq_true (by omega)]
      rfl
    · obtain ⟨h₁, h₂⟩ := hpos rfl hq
      rw [toInt_succ (by omega)]
      omega

/-- A row to keep. -/
theorem At.keep (h : At l 0 (q + 1) c) : ∃ l', countRow l = some (.pass, l') ∧ At l' 0 q c := by
  obtain ⟨skip, l', hskip, hl', hfalse, hoff⟩ := h.offset_past
  obtain ⟨⟨hq, hc⟩, ⟨i, hi, hneg, -⟩, -⟩ := h
  have hneg := hneg (Nat.succ_pos q)
  have hsucc : (i + 1).toInt = -(q : Int) := by
    rw [toInt_succ (by omega)]
    omega
  rw [hfalse (Nat.succ_pos q)] at hskip
  refine ⟨{ l' with iLimit := some (some (i + 1)) }, ?_, ⟨by omega, hc⟩,
    ⟨i + 1, rfl, fun _ => hsucc, fun _ => by omega⟩, ?_⟩
  · rw [countRow_eq hskip, if_neg Bool.false_ne_true, countLimit_some (hl' ▸ hi),
      if_neg (by omega)]
  · rcases hoff with hoff | ⟨o, hoff, hpos⟩
    · exact .inl ⟨hoff, rfl⟩
    · exact .inr ⟨o, hoff, fun hk => absurd hk (Nat.lt_irrefl 0), fun _ _ => hpos (Nat.succ_pos q)⟩

/-- A row after the last. -/
theorem At.stop (h : At l 0 0 (c + 1)) :
    (∃ l', countRow l = some (.cont, l') ∧ At l' 0 0 (c + 1)) ∨
      ∃ l', countRow l = some (.brk, l') ∧ At l' 0 0 c := by
  obtain ⟨skip, l', hskip, hl', -, hoff⟩ := h.offset_past
  obtain ⟨few, ⟨i, hi, -, hzero⟩, -⟩ := h
  have hzero := hzero rfl
  have hoff' (l'' : Limits) (hl'' : l''.iOffset = l'.iOffset) :
      (l''.iOffset = none ∧ 0 = 0) ∨ ∃ o : CInt, l''.iOffset = some (some o) ∧
        (0 < 0 → o.toInt = -((0 : Nat) : Int)) ∧
        (0 = 0 → 0 < 0 → 0 ≤ o.toInt ∧ o.toInt + ((0 : Nat) : Int) < 2147483648) := by
    rcases hoff with hoff | ⟨o, hoff, -⟩
    · exact .inl ⟨hl''.trans hoff, rfl⟩
    · exact .inr ⟨o, hl''.trans hoff, by simp, by simp⟩
  cases skip with
  | true =>
    refine .inl ⟨l', ?_, few, ⟨i, hl' ▸ hi, by simp, fun _ => hzero⟩, hoff' l' rfl⟩
    rw [countRow_eq hskip, if_pos rfl]
  | false =>
    have hsucc := toInt_succ (i := i) (by omega)
    refine .inr ⟨{ l' with iLimit := some (some (i + 1)) }, ?_, ⟨few.1, by omega⟩,
      ⟨i + 1, rfl, by simp, fun _ => by omega⟩, hoff' _ rfl⟩
    rw [countRow_eq hskip, if_neg Bool.false_ne_true, countLimit_some (hl' ▸ hi), if_pos (by omega)]

/-- One loop lets its part of the window through. -/
theorem gate_at (xs : List α) (h : At l k q (c + 1)) :
    ∃ l', gate xs l = some ((xs.drop k).take q, l') ∧
      At l' (k - xs.length) (q - (xs.length - k)) c := by
  induction xs generalizing l k q with
  | nil => exact ⟨l, by simp [gate], by simpa using h.mono⟩
  | cons x xs ih =>
    rw [gate]
    cases k with
    | succ k =>
      obtain ⟨l₁, hc, h₁⟩ := h.drop
      obtain ⟨l', hg, h'⟩ := ih h₁
      refine ⟨l', ?_, ?_⟩
      · rw [hc]
        exact hg
      · rwa [List.length_cons, Nat.add_sub_add_right, Nat.add_sub_add_right]
    | zero =>
      cases q with
      | succ q =>
        obtain ⟨l₁, hc, h₁⟩ := h.keep
        obtain ⟨l', hg, h'⟩ := ih h₁
        refine ⟨l', ?_, ?_⟩
        · rw [hc]
          simp only [Option.bind_eq_bind, Option.bind_some, hg]
          rfl
        · simpa using h'
      | zero =>
        rcases h.stop with ⟨l₁, hc, h₁⟩ | ⟨l₁, hc, h₁⟩
        · obtain ⟨l', hg, h'⟩ := ih h₁
          refine ⟨l', ?_, ?_⟩
          · rw [hc]
            simpa using hg
          · simpa using h'
        · refine ⟨l₁, ?_, by simpa using h₁⟩
          rw [hc]
          simp

/-- All loops together let the window through. -/
theorem gates_at {xss : List (List α)} (h : At l k q xss.length) :
    ∃ ps l', gates xss l = some (ps, l') ∧ ps.flatten = (xss.flatten.drop k).take q ∧
      List.Forall₂ List.Sublist ps xss := by
  induction xss generalizing l k q with
  | nil => exact ⟨[], l, rfl, by simp, .nil⟩
  | cons xs xss ih =>
    obtain ⟨l₁, hg, h₁⟩ := gate_at xs h
    obtain ⟨ps, l', hgs, hps, hsub⟩ := ih h₁
    refine ⟨(xs.drop k).take q :: ps, l', ?_, ?_, .cons ?_ hsub⟩
    · rw [gates, hg]
      simp only [Option.bind_eq_bind, Option.bind_some, hgs]
      rfl
    · rw [List.flatten_cons, List.flatten_cons, hps, List.drop_append, List.take_append,
        List.length_drop]
    · exact (List.take_sublist _ _).trans (List.drop_sublist _ _)

/-! ### Without a limit -/

/-- Only an offset is counted. -/
def Open (l : Limits) (o : CInt) : Prop := l.iLimit = none ∧ l.iOffset = some (some o)

section
variable {o : CInt} {xs ys : List α}

theorem Open.count (h : Open l o) : ∃ l', Open l' (o + 1) ∧
    countRow l = some (if 0 < (o + 1).toInt then .pass else .cont, l') := by
  refine ⟨{ l with iOffset := some (some (o + 1)) }, ⟨h.1, rfl⟩, ?_⟩
  rw [countRow_eq (countOffset_some h.2)]
  by_cases hj : 0 < (o + 1).toInt
  · rw [decide_eq_true hj, if_pos hj, Bool.not_true, if_neg Bool.false_ne_true]
    exact countLimit_none h.1
  · rw [decide_eq_false hj, if_neg hj, Bool.not_false, if_pos rfl]

theorem gate_cons_open (x : α) (xs : List α) (h : Open l o) : ∃ l', Open l' (o + 1) ∧
    gate (x :: xs) l = (gate xs l').map fun p =>
      (if 0 < (o + 1).toInt then x :: p.1 else p.1, p.2) := by
  obtain ⟨l', hl', hc⟩ := h.count
  refine ⟨l', hl', ?_⟩
  rw [gate, hc]
  by_cases hj : 0 < (o + 1).toInt
  · simp only [if_pos hj]
    rfl
  · simp only [if_neg hj]
    exact (Option.map_id' (x := gate xs l')).symm

theorem gate_open_some (xs : List α) (h : Open l o) :
    ∃ p l' o', gate xs l = some (p, l') ∧ Open l' o' ∧ p.Sublist xs := by
  induction xs generalizing l o with
  | nil => exact ⟨[], l, o, rfl, h, .slnil⟩
  | cons x xs ih =>
    obtain ⟨l₁, h₁, hc⟩ := gate_cons_open x xs h
    obtain ⟨p, l', o', hg, h', hs⟩ := ih h₁
    rw [hg, Option.map_some] at hc
    by_cases hj : 0 < (o + 1).toInt
    · rw [if_pos hj] at hc
      exact ⟨x :: p, l', o', hc, h', hs.cons_cons x⟩
    · rw [if_neg hj] at hc
      exact ⟨p, l', o', hc, h', hs.cons x⟩

theorem gate_append_open (h : Open l o) {p : List α} {l' : Limits}
    (hp : gate xs l = some (p, l')) :
    gate (xs ++ ys) l = (gate ys l').map fun q => (p ++ q.1, q.2) := by
  induction xs generalizing l o p with
  | nil =>
    cases hp
    exact (Option.map_id' (x := gate ys _)).symm
  | cons x xs ih =>
    obtain ⟨l₁, h₁, hc⟩ := gate_cons_open x xs h
    obtain ⟨l₂, h₂, hc'⟩ := gate_cons_open x (xs ++ ys) h
    have hl : l₁ = l₂ := by
      cases l₁
      cases l₂
      cases h₁.1
      cases h₁.2
      cases h₂.1
      cases h₂.2
      rfl
    subst hl
    obtain ⟨p₁, l₃, o₃, hg, h₃, -⟩ := gate_open_some xs h₁
    rw [hg, Option.map_some] at hc
    rw [hc] at hp
    cases hp
    rw [List.cons_append, hc', ih h₁ hg, Option.map_map]
    congr 1
    funext q
    by_cases hj : 0 < (o + 1).toInt
    · simp only [Function.comp, if_pos hj, List.cons_append]
    · simp only [Function.comp, if_neg hj]

/-- The loops one after the other are one loop. -/
theorem gates_open (xss : List (List α)) (h : Open l o) :
    ∃ ps l', gates xss l = some (ps, l') ∧ gate xss.flatten l = some (ps.flatten, l') ∧
      List.Forall₂ List.Sublist ps xss := by
  induction xss generalizing l o with
  | nil => exact ⟨[], l, rfl, rfl, .nil⟩
  | cons xs xss ih =>
    obtain ⟨p, l₁, o₁, hg, h₁, hs⟩ := gate_open_some xs h
    obtain ⟨ps, l', hgs, hflat, hsub⟩ := ih h₁
    refine ⟨p :: ps, l', ?_, ?_, .cons hs hsub⟩
    · rw [gates, hg]
      simp only [Option.bind_eq_bind, Option.bind_some, hgs]
      rfl
    · rw [List.flatten_cons, gate_append_open h hg, hflat]
      rfl

/-- As long as the counter does not overflow, the rows behind the offset go through. -/
theorem gate_open (xs : List α) (h : Open l o) (hlen : o.toInt + xs.length < 2147483648) :
    ∃ l', gate xs l = some (xs.drop (-o.toInt).toNat, l') := by
  induction xs generalizing l o with
  | nil => exact ⟨l, by simp [gate]⟩
  | cons x xs ih =>
    rw [List.length_cons] at hlen
    have hsucc := toInt_succ (i := o) (by omega)
    obtain ⟨l₁, h₁, hc⟩ := gate_cons_open x xs h
    obtain ⟨l', hg⟩ := ih h₁ (by rw [hsucc]; omega)
    refine ⟨l', ?_⟩
    rw [hc, hg, hsucc]
    by_cases hj : 0 < o.toInt + 1
    · rw [Option.map_some, if_pos hj, show (-(o.toInt + 1)).toNat = 0 by omega,
        show (-o.toInt).toNat = 0 by omega]
      rfl
    · rw [Option.map_some, if_neg hj, show (-o.toInt).toNat = (-(o.toInt + 1)).toNat + 1 by omega]
      rfl

/-- When it does, a row is lost. -/
theorem gate_overflow (h : Open l o) (hlen : 2147483648 ≤ o.toInt + xs.length) {p : List α}
    {l' : Limits} (hp : gate xs l = some (p, l')) :
    p.length + (-o.toInt).toNat < xs.length := by
  have hmax : o.toInt < 2147483648 := o.toInt_lt
  induction xs generalizing l o p with
  | nil =>
    rw [List.length_nil] at hlen
    omega
  | cons x xs ih =>
    rw [List.length_cons] at hlen ⊢
    obtain ⟨l₁, h₁, hc⟩ := gate_cons_open x xs h
    obtain ⟨p₁, l₂, o₂, hg, h₂, hs⟩ := gate_open_some xs h₁
    rw [hg, Option.map_some] at hc
    rw [hc] at hp
    cases hp
    by_cases hm : o.toInt = 2147483647
    · have hneg := toInt_succ_max hm
      have hle := hs.length_le
      rw [if_neg (by omega)]
      dsimp only
      omega
    · have hsucc := toInt_succ (i := o) (by omega)
      have hlt : (o + 1).toInt < 2147483648 := (o + 1).toInt_lt
      have := ih h₁ (by omega) hg hlt
      rw [hsucc] at this ⊢
      by_cases hj : 0 < o.toInt + 1
      · rw [if_pos hj]
        simp only [List.length_cons]
        omega
      · rw [if_neg hj]
        simp only
        omega

end

/-! ### The registers -/

theorem computeLimitRegisters_none {nLimit nOffset : CInt} (hn : nLimit.toInt < 0)
    (hm : nOffset.toInt ≤ 0) (stored : Bool) (l : Limits) :
    computeLimitRegisters nLimit nOffset stored l = l := by
  rw [computeLimitRegisters, if_neg (by omega), if_neg (by omega)]

theorem at_computeLimitRegisters {nLimit nOffset : CInt} (hn : 0 ≤ nLimit.toInt)
    (hc : c < 2147483648) :
    At (computeLimitRegisters nLimit nOffset true .none) nOffset.toInt.toNat nLimit.toInt.toNat c := by
  have h₁ : nLimit.toInt < 2147483648 := nLimit.toInt_lt
  have h₂ : nOffset.toInt < 2147483648 := nOffset.toInt_lt
  refine ⟨⟨by omega, hc⟩, ⟨-nLimit, ?_, fun h => ?_, fun h => ?_⟩, ?_⟩
  · rw [computeLimitRegisters, if_pos hn]
    rfl
  · rw [toInt_neg hn]
    omega
  · rw [toInt_neg hn]
    omega
  · by_cases hm : 0 < nOffset.toInt
    · refine .inr ⟨-nOffset, ?_, fun h => ?_, fun h => ?_⟩
      · rw [computeLimitRegisters, if_pos hm]
        rfl
      · rw [toInt_neg (by omega)]
        omega
      · omega
    · refine .inl ⟨?_, by omega⟩
      rw [computeLimitRegisters, if_neg hm]
      rfl

theorem open_computeLimitRegisters {nLimit nOffset : CInt} (hn : nLimit.toInt < 0)
    (hm : 0 < nOffset.toInt) :
    Open (computeLimitRegisters nLimit nOffset true .none) (-nOffset) := by
  refine ⟨?_, ?_⟩
  · rw [computeLimitRegisters, if_neg (by omega)]
    rfl
  · rw [computeLimitRegisters, if_pos hm]
    rfl

end

/-- How many rows LIMIT lets through. -/
def limitOf (nLimit : CInt) : Option Nat :=
  if 0 ≤ nLimit.toInt then some nLimit.toInt.toNat else none

/-- **The loops one after the other let a window through.** -/
theorem gates_window {α : Type} {nLimit nOffset : CInt} {xss : List (List α)}
    (hfew : xss.length < 2147483648)
    (h : nLimit.toInt < 0 → 0 < nOffset.toInt →
      xss.flatten.length < nOffset.toInt + 2147483648) :
    ∃ p, gates xss (computeLimitRegisters nLimit nOffset true .none) = some p ∧
      p.1.flatten = window nOffset.toInt.toNat (limitOf nLimit) xss.flatten := by
  unfold limitOf
  by_cases hn : 0 ≤ nLimit.toInt
  · have hat : At (computeLimitRegisters nLimit nOffset true .none) nOffset.toInt.toNat
        nLimit.toInt.toNat xss.length := at_computeLimitRegisters hn hfew
    obtain ⟨ps, l', hg, hps, -⟩ := gates_at hat
    rw [if_pos hn]
    exact ⟨(ps, l'), hg, hps⟩
  · rw [if_neg hn]
    by_cases hm : 0 < nOffset.toInt
    · have hopen := open_computeLimitRegisters (Int.not_le.1 hn) hm
      have hneg := toInt_neg (Int.le_of_lt hm)
      have hlen := h (Int.not_le.1 hn) hm
      obtain ⟨ps, l', hg, hflat, -⟩ := gates_open xss hopen
      obtain ⟨l'', hrest⟩ := gate_open xss.flatten hopen (by omega)
      rw [hflat] at hrest
      refine ⟨(ps, l'), hg, ?_⟩
      rw [(Prod.mk.inj (Option.some.inj hrest)).1, hneg, Int.neg_neg]
      rfl
    · rw [computeLimitRegisters_none (Int.not_le.1 hn) (Int.not_lt.1 hm), gates_none]
      refine ⟨(xss, .none), rfl, ?_⟩
      rw [show nOffset.toInt.toNat = 0 by omega]
      rfl

end Dbsql.L5.Query
