import Dbsql.L1Encoding.Codes
import Mathlib.Algebra.BigOperators.Group.List.Basic
import Mathlib.Tactic.Common
/-!
# Waiting for a locked table (api.c:769-824, vdbe.c:2542-2560)

`OP_OpenRead` and `OP_OpenWrite` try again while the table is locked and the busy callback returns 1.
They count their tries from 1. The default callback is to give up when a timeout is used up. With
`DBSQL_MIN_SLEEP_MS` 1 it takes the delay and the time waited before from two tables, and goes on
from their last entries; otherwise it waits for a second each time. What is granted is the argument
of `__os_sleep`, whose call is commented out.

The time that is left is computed without a sign. If it is not exactly 0 at some count it is a very
long time at the next one, and the callback never returns 0. The tables do not agree either: behind
the last entry the time waited starts again at that entry, 91 ms less than what has been granted.

Results:
* `bounded_second`: with the delay of a second no more than the timeout is granted.
* `busyTimeout_iff`: with the tables this is so for twelve timeouts and no other.
-/
namespace Dbsql.L3.Busy
open Dbsql.L1

/-- `DBSQL_MIN_SLEEP_MS`, and whether `timeout` is a `u_int64_t`. -/
structure Build where
  minSleepMs : Nat
  lp64 : Bool
  deriving DecidableEq, Repr

def delays : List Nat := [1, 2, 5, 10, 15, 20, 25, 25, 25, 50, 50, 50, 100]

def totals : List Nat := [0, 1, 3, 8, 18, 33, 53, 78, 103, 128, 178, 228, 287]

/-- `NDELAY`. -/
def nDelay : Nat := delays.length

/-- `delay` at a count. -/
def delayAt (count : Nat) : Nat :=
  if count ≤ nDelay then delays.getD (count - 1) 0 else delays.getD (nDelay - 1) 0

/-- `prior`, a `u_int32_t`. -/
def priorAt (count : Nat) : Nat :=
  if count ≤ nDelay then totals.getD (count - 1) 0
  else (totals.getD (nDelay - 1) 0 + delays.getD (nDelay - 1) 0 * (count - nDelay - 1)) % 2 ^ 32

/-- `(count + 1) * 1000`, an int, as it is compared with `timeout`. -/
def secondsAt (lp64 : Bool) (count : Nat) : Nat :=
  let x := (count + 1) * 1000 % 2 ^ 32
  if lp64 ∧ 2 ^ 31 ≤ x then x + (2 ^ 64 - 2 ^ 32) else x

/-- `__default_busy_callback` (api.c:783-824): no value for a 0, and with a 1 the time that is
granted. -/
def defaultBusyCallback (b : Build) (timeout count : Nat) : Option Nat :=
  if b.minSleepMs = 1 then
    let delay := delayAt count
    let prior := priorAt count
    if timeout < (prior + delay) % 2 ^ 32 then
      let delay := (timeout + (2 ^ 32 - prior)) % 2 ^ 32
      if delay = 0 then none else some delay
    else some delay
  else if timeout < secondsAt b.lp64 count then none
  else some 1000

/-- The loop of `OP_OpenRead` and `OP_OpenWrite` (vdbe.c:2540-2569): what `__sm_cursor` returned last
and the time granted. `smCursor` has what it returns at each try. -/
def openLoop (xBusyCallback : Nat → Option Nat) (smCursor : Nat → Rc) : Nat → Nat → Nat → Option (Rc × Nat)
  | 0, _, _ => none
  | fuel + 1, busy, waited =>
    match smCursor busy with
    | .busy =>
      match xBusyCallback (busy + 1) with
      | none => some (.busy, waited)
      | some delay => openLoop xBusyCallback smCursor fuel (busy + 1) (waited + delay)
    | rc => some (rc, waited)

/-- What the first `n` calls grant, if none of them returns 0. -/
def granted (b : Build) (timeout : Nat) : Nat → Option Nat
  | 0 => some 0
  | n + 1 => (granted b timeout n).bind fun w => (defaultBusyCallback b timeout (n + 1)).map (w + ·)

/-- The loop ends however long the table is locked, waits no longer than the timeout, and is refused
another try when the timeout is used up. -/
structure Bounded (b : Build) (timeout : Nat) : Prop where
  ends : ∃ fuel, ∀ smCursor, (openLoop (defaultBusyCallback b timeout) smCursor fuel 0 0).isSome
  within : ∀ smCursor fuel rc waited,
    openLoop (defaultBusyCallback b timeout) smCursor fuel 0 0 = some (rc, waited) → waited ≤ timeout
  refuses : ∀ n w, granted b timeout n = some w → timeout ≤ w → defaultBusyCallback b timeout (n + 1) = none

/-! ## The loop and the calls -/

section
variable {b : Build} {timeout : Nat}

theorem granted_succ {n w : Nat} (h : granted b timeout n = some w) :
    granted b timeout (n + 1) = (defaultBusyCallback b timeout (n + 1)).map (w + ·) := by
  rw [granted, h, Option.bind_some]

/-- The calls before one that is granted are granted. -/
theorem granted_le {n m : Nat} (hmn : m ≤ n) (h : (granted b timeout n).isSome) : (granted b timeout m).isSome := by
  induction n with
  | zero => simpa [Nat.le_zero.1 hmn] using h
  | succ n ih =>
    rcases Nat.lt_or_ge n m with hm | hm
    · rwa [show m = n + 1 by omega]
    · apply ih hm
      rw [granted] at h
      cases hn : granted b timeout n with
      | none => simp [hn] at h
      | some w => rfl

/-- What the loop has waited is what some number of calls grants. -/
theorem openLoop_granted {smCursor : Nat → Rc} {fuel : Nat} : ∀ {busy waited : Nat} {rc : Rc} {w : Nat},
    granted b timeout busy = some waited →
      openLoop (defaultBusyCallback b timeout) smCursor fuel busy waited = some (rc, w) →
      ∃ n, granted b timeout n = some w := by
  induction fuel with
  | zero =>
    intro busy waited rc w _ h
    cases h
  | succ fuel ih =>
    intro busy waited rc w hw h
    unfold openLoop at h
    split at h
    · split at h
      · cases h
        exact ⟨busy, hw⟩
      · next hd => exact ih (by simp [granted_succ hw, hd]) h
    · cases h
      exact ⟨busy, hw⟩

/-- The loop goes on as long as calls are granted. -/
theorem openLoop_ends {smCursor : Nat → Rc} {fuel : Nat} : ∀ {busy waited : Nat},
    granted b timeout busy = some waited → granted b timeout (busy + fuel) = none →
      (openLoop (defaultBusyCallback b timeout) smCursor fuel busy waited).isSome := by
  induction fuel with
  | zero =>
    intro busy waited hw h
    simp [hw] at h
  | succ fuel ih =>
    intro busy waited hw h
    unfold openLoop
    split
    · split
      · rfl
      · next hd =>
        apply ih
        · simp [granted_succ hw, hd]
        · rwa [Nat.add_right_comm, Nat.add_assoc]
    · rfl

/-- A table that is locked for the first `n` tries. -/
theorem openLoop_locked {n w : Nat} (h : granted b timeout n = some w) : ∀ {busy waited : Nat}, busy ≤ n →
    granted b timeout busy = some waited →
      openLoop (defaultBusyCallback b timeout) (fun i => if i < n then .busy else .success) (n - busy + 1) busy waited =
        some (.success, w) := by
  intro busy
  induction hk : n - busy generalizing busy with
  | zero =>
    intro waited hle hw
    obtain rfl : busy = n := by omega
    rw [h] at hw
    cases hw
    simp [openLoop]
  | succ k ih =>
    intro waited hle hw
    have hnext : (granted b timeout (busy + 1)).isSome := granted_le (n := n) (by omega) (by simp [h])
    rw [granted_succ hw, Option.isSome_map] at hnext
    obtain ⟨d, hd⟩ := Option.isSome_iff_exists.1 hnext
    rw [openLoop, if_pos (by omega), hd]
    exact ih (by omega) (by omega) (by simp [granted_succ hw, hd])

theorem Bounded.granted_le (h : Bounded b timeout) {n w : Nat} (hw : granted b timeout n = some w) : w ≤ timeout :=
  h.within _ _ .success w (openLoop_locked hw (Nat.zero_le n) rfl)

/-- It is enough to look at the calls. -/
theorem bounded_of_granted {n : Nat} (hend : granted b timeout n = none)
    (hle : ∀ m w, granted b timeout m = some w → w ≤ timeout)
    (hused : ∀ m w, granted b timeout m = some w → timeout ≤ w → defaultBusyCallback b timeout (m + 1) = none) :
    Bounded b timeout where
  ends := ⟨n, fun _ => openLoop_ends rfl (by rwa [Nat.zero_add])⟩
  within := by
    intro smCursor fuel rc w h
    have hstart : granted b timeout 0 = some 0 := rfl
    obtain ⟨m, hm⟩ := openLoop_granted hstart h
    exact hle m w hm
  refuses := hused

/-! ## A second at a time -/

theorem secondsAt_ge (lp64 : Bool) {count : Nat} (h : (count + 1) * 1000 < 2 ^ 32) :
    (count + 1) * 1000 ≤ secondsAt lp64 count := by
  unfold secondsAt
  rw [Nat.mod_eq_of_lt h]
  dsimp only
  split <;> omega

theorem second_granted (hb : b.minSleepMs ≠ 1) (ht : timeout < 2 ^ 31) : ∀ {n w : Nat},
    granted b timeout n = some w → w = n * 1000 ∧ (n = 0 ∨ (n + 1) * 1000 ≤ timeout) := by
  intro n
  induction n with
  | zero =>
    intro w h
    cases h
    simp
  | succ n ih =>
    intro w h
    obtain ⟨w', hw', h⟩ := Option.bind_eq_some_iff.1 h
    obtain ⟨rfl, hn⟩ := ih hw'
    -- the product does not wrap around before the timeout is reached
    have hge : (n + 1 + 1) * 1000 ≤ secondsAt b.lp64 (n + 1) := secondsAt_ge b.lp64 (by omega)
    rw [defaultBusyCallback, if_neg hb] at h
    split at h
    · simp at h
    · simp only [Option.map_some, Option.some.injEq] at h
      omega

/-- **With a second each time** no more than the timeout is granted. -/
theorem bounded_second (hb : b.minSleepMs ≠ 1) (h0 : 0 < timeout) (ht : timeout < 2 ^ 31) : Bounded b timeout := by
  apply bounded_of_granted (n := timeout / 1000 + 1)
  · cases h : granted b timeout (timeout / 1000 + 1) with
    | none => rfl
    | some w =>
      have := second_granted hb ht h
      omega
  · intro m w h
    have := second_granted hb ht h
    omega
  · intro m w h hw
    have := second_granted hb ht h
    omega

/-! ## The tables -/

theorem delayAt_pos {count : Nat} (h : 0 < count) : 0 < delayAt count := by
  unfold delayAt
  split
  · next hle =>
    have : ∀ i < 13, 0 < delays.getD i 0 := by decide
    exact this _ (by simp [nDelay, delays] at hle; omega)
  · decide

theorem delayAt_of_gt {count : Nat} (h : 13 ≤ count) : delayAt count = 100 := by
  unfold delayAt
  split
  · next hle =>
    obtain rfl : count = 13 := by simp [nDelay, delays] at hle; omega
    rfl
  · rfl

theorem priorAt_of_gt {count : Nat} (h : 14 ≤ count) : priorAt count = (287 + 100 * (count - 14)) % 2 ^ 32 := by
  rw [priorAt, if_neg (by simp [nDelay, delays]; omega)]
  have : count - nDelay - 1 = count - 14 := by simp [nDelay, delays]; omega
  rw [this]
  rfl

/-- The time granted if every call grants its whole delay. -/
def elapsed : Nat → Nat
  | 0 => 0
  | n + 1 => elapsed n + delayAt (n + 1)

/-- The call grants its whole delay, what is left of the timeout, or the time since before it. -/
theorem callback_cases (hb : b.minSleepMs = 1) {count : Nat} (h0 : 0 < count) (ht : timeout < 2 ^ 31)
    (hroom : priorAt count + delayAt count < 2 ^ 32) :
    (priorAt count + delayAt count ≤ timeout ∧ defaultBusyCallback b timeout count = some (delayAt count)) ∨
    (priorAt count < timeout ∧ timeout < priorAt count + delayAt count ∧
      defaultBusyCallback b timeout count = some (timeout - priorAt count)) ∨
    (priorAt count = timeout ∧ defaultBusyCallback b timeout count = none) ∨
    (timeout < priorAt count ∧
      defaultBusyCallback b timeout count = some (2 ^ 32 - (priorAt count - timeout))) := by
  have hpos := delayAt_pos h0
  rw [defaultBusyCallback, if_pos hb]
  dsimp only
  rw [Nat.mod_eq_of_lt hroom]
  by_cases hle : priorAt count + delayAt count ≤ timeout
  · rw [if_neg (by omega)]
    exact .inl ⟨hle, rfl⟩
  rw [if_pos (by omega)]
  rcases Nat.lt_trichotomy (priorAt count) timeout with h | h | h
  · have hd : (timeout + (2 ^ 32 - priorAt count)) % 2 ^ 32 = timeout - priorAt count := by omega
    rw [hd, if_neg (by omega)]
    exact .inr (.inl ⟨h, by omega, rfl⟩)
  · have hd : (timeout + (2 ^ 32 - priorAt count)) % 2 ^ 32 = 0 := by omega
    rw [hd, if_pos rfl]
    exact .inr (.inr (.inl ⟨h, rfl⟩))
  · have hd : (timeout + (2 ^ 32 - priorAt count)) % 2 ^ 32 = 2 ^ 32 - (priorAt count - timeout) := by omega
    rw [hd, if_neg (by omega)]
    exact .inr (.inr (.inr ⟨h, rfl⟩))

/-- As long as the whole delays fit they are granted. -/
theorem granted_elapsed (hb : b.minSleepMs = 1) (ht : timeout < 2 ^ 31) {n : Nat}
    (hfit : ∀ j, 0 < j → j ≤ n → priorAt j + delayAt j ≤ timeout) : granted b timeout n = some (elapsed n) := by
  induction n with
  | zero => rfl
  | succ n ih =>
    have h0 : 0 < n + 1 := Nat.succ_pos n
    have hj := hfit (n + 1) h0 (Nat.le_refl _)
    have hpos := delayAt_pos h0
    rw [granted_succ (ih fun j h0 hle => hfit j h0 (by omega))]
    rcases callback_cases (b := b) hb h0 ht (by omega) with ⟨-, h⟩ | ⟨-, h, -⟩ | ⟨h, -⟩ | ⟨h, -⟩
    · rw [h]
      rfl
    all_goals omega

theorem elapsed_behind (k : Nat) : elapsed (12 + k) = 278 + 100 * k := by
  induction k with
  | zero => rfl
  | succ k ih =>
    rw [← Nat.add_assoc, elapsed, ih, delayAt_of_gt (by omega)]
    omega

theorem priorAt_le (count : Nat) : priorAt count ≤ 287 + 100 * count := by
  rcases Nat.lt_or_ge count 14 with h | h
  · have : ∀ i < 14, priorAt i ≤ 287 := by decide
    exact Nat.le_add_right_of_le (this count h)
  · rw [priorAt_of_gt h]
    exact Nat.le_trans (Nat.mod_le _ _) (by omega)

theorem delayAt_le (count : Nat) : delayAt count ≤ 100 := by
  rcases Nat.lt_or_ge count 14 with h | h
  · have : ∀ i < 14, delayAt i ≤ 100 := by decide
    exact this count h
  · exact Nat.le_of_eq (delayAt_of_gt (by omega))

/-- A timeout that is not exactly the time before some call goes by unnoticed. -/
theorem granted_past (hb : b.minSleepMs = 1) (ht : timeout < 2 ^ 31) {n : Nat} (hn : n ≤ 2 ^ 25)
    (hne : ∀ count, 0 < count → count ≤ n → priorAt count ≠ timeout) : (granted b timeout n).isSome := by
  induction n with
  | zero => rfl
  | succ n ih =>
    obtain ⟨w, hw⟩ := Option.isSome_iff_exists.1 (ih (by omega) fun count h0 hle => hne count h0 (by omega))
    have h0 : 0 < n + 1 := Nat.succ_pos n
    have hprior := priorAt_le (n + 1)
    have hdelay := delayAt_le (n + 1)
    rw [granted_succ hw, Option.isSome_map]
    rcases callback_cases (b := b) hb h0 ht (by omega) with ⟨-, h⟩ | ⟨-, -, h⟩ | ⟨h, -⟩ | ⟨-, h⟩
    · rw [h]; rfl
    · rw [h]; rfl
    · exact absurd h (hne _ h0 (Nat.le_refl _))
    · rw [h]; rfl

/-- Then the time granted passes it. -/
theorem not_bounded_of_ne (hb : b.minSleepMs = 1) (ht : timeout < 2 ^ 31)
    (hne : ∀ count, 0 < count → count ≤ timeout / 100 + 14 → priorAt count ≠ timeout) : ¬Bounded b timeout := by
  intro h
  -- a call before which more than the timeout has gone by
  obtain ⟨n, hn⟩ : ∃ n, n = timeout / 100 + 14 := ⟨_, rfl⟩
  obtain ⟨w, hw⟩ := Option.isSome_iff_exists.1 (granted_past hb ht (n := n) (by omega) (hn ▸ hne))
  have h0 : 0 < n + 1 := Nat.succ_pos n
  have hprior : priorAt (n + 1) = 287 + 100 * (n + 1 - 14) := by
    rw [priorAt_of_gt (by omega), Nat.mod_eq_of_lt (by omega)]
  have hdelay := delayAt_le (n + 1)
  have hover : granted b timeout (n + 1) = some (w + (2 ^ 32 - (priorAt (n + 1) - timeout))) := by
    rw [granted_succ hw]
    rcases callback_cases (b := b) hb h0 ht (by omega) with ⟨hc, -⟩ | ⟨hc, -⟩ | ⟨hc, -⟩ | ⟨-, hc⟩
    · omega
    · omega
    · omega
    · rw [hc]
      rfl
  have := h.granted_le hover
  omega

/-- Behind the table the time before a call is 91 ms less than what has been granted. -/
theorem not_bounded_behind (hb : b.minSleepMs = 1) {k : Nat} (ht : 387 + 100 * k < 2 ^ 31) :
    ¬Bounded b (387 + 100 * k) := by
  intro h
  have hall : granted b (387 + 100 * k) (12 + (k + 2)) = some (elapsed (12 + (k + 2))) := by
    apply granted_elapsed hb ht
    intro j h0 hj
    have hdelay := delayAt_le j
    rcases Nat.lt_or_ge j 14 with hlt | hge
    · have : ∀ i < 14, priorAt i ≤ 287 := by decide
      have := this j hlt
      omega
    · rw [priorAt_of_gt hge, Nat.mod_eq_of_lt (by omega)]
      omega
  have := h.granted_le hall
  rw [elapsed_behind] at this
  omega

/-- The entries of the table of totals but the first. -/
theorem bounded_total (hb : b.minSleepMs = 1) (hmem : timeout ∈ totals.tail) : Bounded b timeout := by
  obtain ⟨c, hc, rfl⟩ : ∃ c < 12, priorAt (c + 2) = timeout := by
    have : ∀ t ∈ totals.tail, ∃ c < 12, priorAt (c + 2) = t := by decide
    exact this timeout hmem
  have hsmall : ∀ c < 12, priorAt (c + 2) < 2 ^ 31 := by decide
  have hfits : ∀ c < 12, ∀ j < c + 2, 0 < j → priorAt j + delayAt j ≤ priorAt (c + 2) := by decide
  have hsum : ∀ c < 12, ∀ n < c + 2, elapsed n ≤ priorAt (c + 2) ∧ (priorAt (c + 2) ≤ elapsed n → n = c + 1) := by
    decide
  have ht := hsmall c hc
  have hall : ∀ n < c + 2, granted b (priorAt (c + 2)) n = some (elapsed n) := fun n hn =>
    granted_elapsed hb ht fun j h0 hj => hfits c hc j (by omega) h0
  have hrefused : defaultBusyCallback b (priorAt (c + 2)) (c + 2) = none := by
    have hroom := delayAt_le (c + 2)
    have hpos : 0 < c + 2 := Nat.succ_pos _
    rcases callback_cases (b := b) hb hpos ht (by omega) with
      ⟨h, -⟩ | ⟨h, -⟩ | ⟨-, h⟩ | ⟨h, -⟩
    · have := delayAt_pos hpos
      omega
    · omega
    · exact h
    · omega
  have hend : granted b (priorAt (c + 2)) (c + 2) = none := by
    rw [granted_succ (hall (c + 1) (by omega)), hrefused]
    rfl
  have hlt : ∀ n w, granted b (priorAt (c + 2)) n = some w → n < c + 2 ∧ w = elapsed n := by
    intro n w hw
    have hn : n < c + 2 := by
      by_contra hn
      have := granted_le (n := n) (m := c + 2) (Nat.not_lt.1 hn) (by rw [hw]; rfl)
      simp [hend] at this
    rw [hall n hn] at hw
    exact ⟨hn, (Option.some.inj hw).symm⟩
  apply bounded_of_granted hend
  · intro n w hw
    obtain ⟨hn, rfl⟩ := hlt n w hw
    exact (hsum c hc n hn).1
  · intro n w hw hle
    obtain ⟨hn, rfl⟩ := hlt n w hw
    obtain rfl := (hsum c hc n hn).2 hle
    exact hrefused

/-- **When the default callback keeps the timeout**: with delays of a second always, with the tables if
the timeout is one of the totals. -/
theorem busyTimeout_iff (h0 : 0 < timeout) (ht : timeout < 2 ^ 31) :
    Bounded b timeout ↔ b.minSleepMs ≠ 1 ∨ timeout ∈ totals.tail := by
  by_cases hb : b.minSleepMs = 1
  · refine ⟨fun h => .inr ?_, fun h => bounded_total hb (h.resolve_left (not_not.2 hb))⟩
    by_contra hmem
    by_cases hne : ∀ count, 0 < count → count ≤ timeout / 100 + 14 → priorAt count ≠ timeout
    · exact not_bounded_of_ne hb ht hne h
    · push Not at hne
      obtain ⟨count, -, hcount, htotal⟩ := hne
      rcases Nat.lt_or_ge count 15 with hlt | hge
      · have : ∀ c < 15, 0 < priorAt c → priorAt c ∈ totals.tail := by decide
        exact hmem (htotal ▸ this count hlt (htotal ▸ h0))
      · rw [priorAt_of_gt (by omega), Nat.mod_eq_of_lt (by omega)] at htotal
        obtain rfl : timeout = 387 + 100 * (count - 15) := by omega
        exact not_bounded_behind hb ht h
  · exact iff_of_true (bounded_second hb h0 ht) (.inl hb)

end

theorem busyTimeout_iff_228 : Bounded ⟨1, true⟩ 228 ↔ ((1 : Nat) ≠ 1 ∨ 228 ∈ totals.tail) :=
  busyTimeout_iff (b := ⟨1, true⟩) (by decide) (by decide)

/-- At a timeout of 100 ms the first eight calls grant it, and the ninth grants all but 3 ms of `2 ^ 32`. -/
theorem busyTimeout_past : ¬∀ (b : Build) (timeout : Nat), 0 < timeout → timeout < 2 ^ 31 → Bounded b timeout := by
  intro h
  have hover : granted ⟨1, true⟩ 100 9 = some (100 + (2 ^ 32 - 3)) := by decide
  have := (h ⟨1, true⟩ 100 (by decide) (by decide)).granted_le hover
  omega

end Dbsql.L3.Busy
