import Dbsql.L5Codegen.Limit
/-!
# Loops that leave at their first row

A loop that stores the first row that it comes to in a memory cell leaves after it
(cg_select.c:653-661): the counters see its rows up to the first one that they let through
(`firstPass`). Loops that follow one another share the counters and the cell, and some of them
store NULL before.

Results:
* `runLoops_counts`: what such loops write, if there are fewer than 2^31.
* `lastWrite_eq`: what they write last: NULL where no loop has a row, and otherwise what the loops
  behind the one with the first row write.
* `runScans_first`: the first row of the loops is the first one that a UNION ALL of them delivers.
-/
namespace Dbsql.L5.Query
open Dbsql.Core Dbsql.L1 Dbsql.L2

/-- A memory cell: not stored, or NULL or a text. -/
abbrev Cell := Option (Option Bytes)

/-- A loop that may store a row, and whether NULL is stored before it. -/
structure MemLoop where
  clears : Bool
  rows : List Row

/-- The row that a loop stores where `k` rows are still to skip and `q` may be kept. -/
def MemLoop.stored (k : Nat) (q : Option Nat) (c : MemLoop) : Option Row :=
  if q = some 0 then none else (c.rows.drop k).head?

section
variable (value : Bytes → Option Bytes)

/-- What a loop writes into the cell last. -/
def MemLoop.write (k : Nat) (q : Option Nat) (c : MemLoop) : Option (Option Bytes) :=
  match c.stored k q with
  | some r => some (value r.image)
  | none => if c.clears then some none else none

/-- What loops write last, one after the other. -/
def lastWrite : (k : Nat) → (q : Option Nat) → List MemLoop → Option (Option Bytes)
  | _, _, [] => none
  | k, q, c :: cs =>
    let q' := if (c.stored k q).isSome then q.map (· - 1) else q
    (lastWrite (k - c.rows.length) q' cs).or (c.write value k q)

end

/-- The loops behind the one with the first row, if `k` rows are skipped. -/
def behind : Nat → List MemLoop → List MemLoop
  | _, [] => []
  | k, c :: cs => if k < c.rows.length then cs else behind (k - c.rows.length) cs

/-- The first row behind the skipped ones. -/
def firstRow (k : Nat) (q : Option Nat) (cs : List MemLoop) : Option Row :=
  if q = some 0 then none else ((cs.flatMap (·.rows)).drop k).head?

/-! ## The first row that passes -/

section
variable {α : Type} {l l' : Limits} {k c : Nat} {q : Option Nat}

/-- The first row that the counters let through. -/
def firstPass : List α → Limits → Option (Option α × Limits)
  | [], l => some (none, l)
  | x :: xs, l => do
    let (c, l) ← countRow l
    match c with
    | .cont => firstPass xs l
    | .brk => some (none, l)
    | .pass => some (some x, l)

theorem firstPass_of_gate {xs p : List α} (h : gate xs l = some (p, l')) :
    ∃ l'', firstPass xs l = some (p.head?, l'') ∧ (p = [] → l'' = l') := by
  induction xs generalizing l with
  | nil =>
    cases h
    exact ⟨_, rfl, fun _ => rfl⟩
  | cons x xs ih =>
    rw [gate] at h
    rw [firstPass]
    cases hc : countRow l with
    | none =>
      rw [hc] at h
      cases h
    | some cl =>
      obtain ⟨c, l₁⟩ := cl
      rw [hc] at h
      cases c with
      | cont => exact ih h
      | brk =>
        cases h
        exact ⟨_, rfl, fun _ => rfl⟩
      | pass =>
        simp only [Option.bind_eq_bind, Option.bind_some, Option.map_eq_some_iff] at h
        obtain ⟨pl, -, hpl⟩ := h
        cases hpl
        exact ⟨_, rfl, fun hp => by cases hp⟩

end

variable {le : Bytes → Bytes → Bool} {value : Bytes → Option Bytes} {l l' : Limits} {cell : Cell}
  {nLimit nOffset : CInt}

/-! ## The counters, for the first row -/

section
variable {α : Type} {k c : Nat} {q : Option Nat}

/-- The counters with `k` rows still to skip and `q` to keep, for fewer than `c` loops to come. -/
inductive Counts : Limits → Nat → Option Nat → Nat → Prop
  | limited {l : Limits} {k q c : Nat} (h : At l k q c) : Counts l k (some q) c
  | offset {l : Limits} {k c : Nat} {o : CInt} (h : Open l o) (hneg : 0 < k → o.toInt = -k)
      (hpast : k = 0 → 0 ≤ o.toInt ∧ o.toInt + c < 2147483648) : Counts l k none c
  | free {c : Nat} : Counts .none 0 none c

/-- A limit: the first row behind the skipped ones is let through, if there is one. -/
theorem firstPass_at {q : Nat} (xs : List α) (h : At l k q (c + 1)) :
    ∃ l', firstPass xs l = some (if q = 0 then none else (xs.drop k).head?, l') ∧
      At l' (k - xs.length) (if xs.length ≤ k then q else q - 1) c := by
  induction xs generalizing l k with
  | nil => exact ⟨l, by simp [firstPass], by simpa using h.mono⟩
  | cons x xs ih =>
    rw [firstPass]
    cases k with
    | succ k =>
      obtain ⟨l₁, hc, h₁⟩ := h.drop
      obtain ⟨l', hg, h'⟩ := ih h₁
      refine ⟨l', ?_, ?_⟩
      · rw [hc]
        exact hg
      · simpa using h'
    | zero =>
      cases q with
      | succ q =>
        obtain ⟨l₁, hc, h₁⟩ := h.keep
        refine ⟨l₁, ?_, ?_⟩
        · rw [hc]
          rfl
        · simpa using h₁.mono
      | zero =>
        rcases h.stop with ⟨l₁, hc, h₁⟩ | ⟨l₁, hc, h₁⟩
        · obtain ⟨l', hg, h'⟩ := ih h₁
          refine ⟨l', ?_, by simpa using h'⟩
          rw [hc]
          exact hg
        · refine ⟨l₁, ?_, by simpa using h₁⟩
          rw [hc]
          rfl

/-- An offset alone: at most one row more is counted. -/
theorem firstPass_open (xs : List α) {o : CInt} (h : Open l o) (hneg : 0 < k → o.toInt = -k)
    (hpast : k = 0 → 0 ≤ o.toInt ∧ o.toInt + (c + 1 : Nat) < 2147483648) (hc : c < 2147483647) :
    ∃ l' o', firstPass xs l = some ((xs.drop k).head?, l') ∧ Open l' o' ∧
      (0 < k - xs.length → o'.toInt = -(k - xs.length : Nat)) ∧
      (k - xs.length = 0 → 0 ≤ o'.toInt ∧ o'.toInt + c < 2147483648) := by
  induction xs generalizing l k o with
  | nil =>
    refine ⟨l, o, by simp [firstPass], h, by simpa using hneg, fun hk => ?_⟩
    have hpast := hpast (by simpa using hk)
    omega
  | cons x xs ih =>
    obtain ⟨l₁, h₁, hcount⟩ := h.count
    rw [firstPass, hcount]
    cases k with
    | succ k =>
      have hneg := hneg (Nat.succ_pos k)
      have hsucc := toInt_succ (i := o) (by omega)
      rw [if_neg (by omega)]
      obtain ⟨l', o', hg, h', hneg', hpast'⟩ := ih (k := k) h₁
        (fun _ => by omega) (fun hk => by omega)
      refine ⟨l', o', hg, h', ?_, ?_⟩
      · rwa [List.length_cons, Nat.add_sub_add_right]
      · rwa [List.length_cons, Nat.add_sub_add_right]
    | zero =>
      have hpast := hpast rfl
      have hsucc := toInt_succ (i := o) (by omega)
      rw [if_pos (by omega)]
      refine ⟨l₁, o + 1, rfl, h₁, fun hk => ?_, fun _ => ?_⟩
      · simp at hk
      · omega

/-- **What one loop stores**, and the counters behind it. -/
theorem firstPass_counts (s : MemLoop) (h : Counts l k q (c + 1)) (hc : c < 2147483647) :
    ∃ l', firstPass s.rows l = some (s.stored k q, l') ∧
      Counts l' (k - s.rows.length)
        (if (s.stored k q).isSome then q.map (· - 1) else q) c := by
  cases h with
  | @limited _ _ q _ h =>
    obtain ⟨l', hg, h'⟩ := firstPass_at s.rows h
    refine ⟨l', ?_, ?_⟩
    · rw [hg]
      simp [MemLoop.stored]
    · have hq : (if (s.stored k (some q)).isSome then (some q).map (· - 1) else some q) =
          some (if s.rows.length ≤ k then q else q - 1) := by
        unfold MemLoop.stored
        by_cases hk : s.rows.length ≤ k
        · simp [hk, List.drop_eq_nil_of_le hk]
        · by_cases h0 : q = 0
          · simp [h0]
          · simp [h0, hk]
      rw [hq]
      exact .limited h'
  | offset h hneg hpast =>
    obtain ⟨l', o', hg, h', hneg', hpast'⟩ := firstPass_open s.rows h hneg hpast hc
    refine ⟨l', hg, ?_⟩
    simp only [Option.map_none, ite_self]
    exact .offset h' hneg' hpast'
  | free =>
    refine ⟨.none, ?_, ?_⟩
    · unfold MemLoop.stored
      cases s.rows with
      | nil => rfl
      | cons r rs => rfl
    · simp only [Option.map_none, ite_self, Nat.zero_sub]
      exact .free

end

/-- The counters as they are stored. -/
theorem counts_computeLimitRegisters {c : Nat} (nLimit nOffset : CInt) (hc : c < 2147483648) :
    Counts (computeLimitRegisters nLimit nOffset true .none) nOffset.toInt.toNat (limitOf nLimit)
      c := by
  unfold limitOf
  by_cases hn : 0 ≤ nLimit.toInt
  · rw [if_pos hn]
    exact .limited (at_computeLimitRegisters hn hc)
  · rw [if_neg hn]
    by_cases hm : 0 < nOffset.toInt
    · have hneg := toInt_neg (Int.le_of_lt hm)
      exact .offset (open_computeLimitRegisters (Int.not_le.1 hn) hm) (fun _ => by omega)
        (fun hk => by omega)
    · rw [computeLimitRegisters_none (Int.not_le.1 hn) (Int.not_lt.1 hm),
        Int.toNat_of_nonpos (Int.not_lt.1 hm)]
      exact .free

/-! ## One loop after the other -/

/-- The loops of a sub-select, one after the other. -/
def runLoops (value : Bytes → Option Bytes) : List MemLoop → Limits → Cell → Option (Limits × Cell)
  | [], l, cell => some (l, cell)
  | c :: cs, l, cell => do
    let (p, l) ← firstPass c.rows l
    runLoops value cs l
      ((p.map fun r => some (value r.image)).getD (if c.clears then some none else cell))

theorem runLoops_concat (cs : List MemLoop) (c : MemLoop) :
    runLoops value (cs ++ [c]) l cell =
      (runLoops value cs l cell).bind fun p => runLoops value [c] p.1 p.2 := by
  induction cs generalizing l cell with
  | nil => rfl
  | cons c' cs ih =>
    rw [List.cons_append, runLoops, runLoops]
    cases firstPass c'.rows l with
    | none => rfl
    | some p => exact ih

theorem runLoops_single (c : MemLoop) : runLoops value [c] l cell =
    (firstPass c.rows l).map fun p => (p.2,
      (p.1.map fun r => some (value r.image)).getD (if c.clears then some none else cell)) := by
  rw [runLoops]
  cases firstPass c.rows l <;> rfl

/-- What a loop writes, or what was in the cell. -/
theorem write_or (k : Nat) (q : Option Nat) (c : MemLoop) :
    ((c.stored k q).map fun r => some (value r.image)).getD (if c.clears then some none else cell) =
      (c.write value k q).or cell := by
  unfold MemLoop.write
  cases c.stored k q with
  | some r => rfl
  | none => cases c.clears <;> rfl

theorem runLoops_counts {k c : Nat} {q : Option Nat} (cs : List MemLoop)
    (h : Counts l k q (cs.length + c)) (hc : cs.length + c < 2147483648) :
    ∃ l', runLoops value cs l cell = some (l', (lastWrite value k q cs).or cell) := by
  induction cs generalizing l k q cell with
  | nil => exact ⟨l, rfl⟩
  | cons s cs ih =>
    rw [List.length_cons] at h hc
    have h' : Counts l k q (cs.length + c + 1) := by
      rwa [show cs.length + c + 1 = cs.length + 1 + c by omega]
    obtain ⟨l₁, hp, h₁⟩ := firstPass_counts s h' (by omega)
    obtain ⟨l', hrun⟩ := @ih _ ((s.write value k q).or cell) _ _ h₁ (by omega)
    refine ⟨l', ?_⟩
    rw [runLoops, hp]
    simp only [Option.bind_eq_bind, Option.bind_some]
    rw [write_or, hrun, lastWrite, Option.or_assoc]

/-- Loops without rows only clear. -/
theorem runLoops_empty {k : Nat} {q : Option Nat} (cs : List MemLoop) (h : ∀ c ∈ cs, c.rows = []) :
    runLoops value cs l cell = some (l, (lastWrite value k q cs).or cell) := by
  induction cs generalizing k q cell with
  | nil => rfl
  | cons s cs ih =>
    rw [List.forall_mem_cons] at h
    have hstored : s.stored k q = none := by
      simp [MemLoop.stored, h.1]
    have hp : firstPass s.rows l = some (s.stored k q, l) := by
      rw [h.1, hstored]
      rfl
    rw [runLoops, hp]
    simp only [Option.bind_eq_bind, Option.bind_some]
    rw [write_or, ih h.2, lastWrite, Option.or_assoc]

/-! ## What is written last -/

theorem firstRow_cons (k : Nat) (q : Option Nat) (s : MemLoop) (cs : List MemLoop) :
    firstRow k q (s :: cs) = (s.stored k q).or (firstRow (k - s.rows.length) q cs) := by
  unfold firstRow MemLoop.stored
  by_cases hq : q = some 0
  · simp only [if_pos hq, Option.none_or]
  · simp only [if_neg hq, List.flatMap_cons, List.drop_append, List.head?_append]

/-- **What the loops write last**: NULL where no loop has a row, and otherwise what those behind
the first row write. -/
theorem lastWrite_eq (k : Nat) (q : Option Nat) (cs : List MemLoop) :
    lastWrite value k q cs = match firstRow k q cs with
      | none => if cs.any (·.clears) then some none else none
      | some r => (lastWrite value 0 (q.map (· - 1)) (behind k cs)).or (some (value r.image)) := by
  induction cs generalizing k with
  | nil =>
    unfold firstRow
    simp [lastWrite]
  | cons s cs ih =>
    rw [firstRow_cons, lastWrite, behind]
    cases hs : s.stored k q with
    | some r =>
      have hlen : k < s.rows.length := by
        by_contra hlen
        rw [MemLoop.stored, List.drop_eq_nil_of_le (Nat.not_lt.1 hlen)] at hs
        simp at hs
      rw [if_pos hlen, Nat.sub_eq_zero_of_le (Nat.le_of_lt hlen), MemLoop.write, hs]
      rfl
    | none =>
      have hwrite : s.write value k q = if s.clears then some none else none := by
        rw [MemLoop.write, hs]
      rw [hwrite, Option.none_or, Option.isSome_none, if_neg Bool.false_ne_true, ih]
      cases hfirst : firstRow (k - s.rows.length) q cs with
      | none =>
        dsimp only
        rw [List.any_cons]
        cases s.clears with
        | false => exact Option.or_none
        | true => cases cs.any (·.clears) <;> rfl
      | some r =>
        have hlen : ¬ k < s.rows.length := by
          intro hlen
          rw [firstRow] at hfirst
          rw [MemLoop.stored] at hs
          split at hs
          · rename_i hq
            rw [if_pos hq] at hfirst
            cases hfirst
          · rw [List.head?_eq_none_iff, List.drop_eq_nil_iff] at hs
            omega
        rw [if_neg hlen, Option.or_assoc]
        rfl

/-! ## The first row of a UNION ALL -/

theorem head?_dedup (distinct : Bool) (rs : List Row) :
    (dedup distinct .empty rs).head? = rs.head? := by
  cases rs with
  | nil => rfl
  | cons r rs =>
    rw [dedup]
    cases distinct with
    | false => rfl
    | true =>
      rw [if_pos rfl, alreadyExists_empty]
      rfl

/-- Rows are only added. -/
theorem runScans_adds {cs : List Scan} {o o' : Out}
    (h : runScans le .callback cs l o = some (l', o')) : ∃ images, o'.rows = o.rows ++ images := by
  rw [runScans_eq_gates le 0 cs (List.forall_mem_nil _), Option.map_eq_some_iff] at h
  obtain ⟨p, -, hp⟩ := h
  cases hp
  rw [send_rows (.inl rfl)]
  exact ⟨_, rfl⟩

theorem runScans_empty {cs : List Scan} {o : Out} {dest : Dest} (h : ∀ s ∈ cs, s.tested = []) :
    runScans le dest cs l o = some (l, o) := by
  induction cs with
  | nil => rfl
  | cons s cs ih =>
    rw [List.forall_mem_cons] at h
    rw [runScans, scan_eq_gate, h.1]
    exact ih h.2

/-- **The first row of a UNION ALL** is the first one behind the skipped ones. -/
theorem runScans_first {k c : Nat} {q : Option Nat} {cs : List MemLoop} {ss : List Scan}
    {o o' : Out} (hrows : cs.map (·.rows) = ss.map Scan.tested) (h : Counts l k q (cs.length + c))
    (hc : cs.length + c < 2147483648) (hrun : runScans le .callback ss l o = some (l', o')) :
    ∃ images, o'.rows = o.rows ++ images ∧ images.head? = (firstRow k q cs).map (·.image) := by
  induction cs generalizing ss l k q o with
  | nil =>
    rw [List.map_nil, eq_comm, List.map_eq_nil_iff] at hrows
    subst hrows
    cases hrun
    refine ⟨[], (List.append_nil _).symm, ?_⟩
    simp [firstRow]
  | cons s cs ih =>
    cases ss with
    | nil => cases hrows
    | cons sc ss =>
      rw [List.map_cons, List.map_cons, List.cons.injEq] at hrows
      rw [List.length_cons] at h hc
      have h' : Counts l k q (cs.length + c + 1) := by
        rwa [show cs.length + c + 1 = cs.length + 1 + c by omega]
      obtain ⟨l₂, hfirst, hcounts⟩ := firstPass_counts s h' (by omega)
      rw [runScans, scan_eq_gate, ← hrows.1] at hrun
      cases hgate : gate s.rows l with
      | none =>
        rw [hgate] at hrun
        cases hrun
      | some pl =>
        obtain ⟨p, l₁⟩ := pl
        obtain ⟨l₃, hp, hnil⟩ := firstPass_of_gate hgate
        rw [hfirst, Option.some.injEq, Prod.mk.injEq] at hp
        obtain ⟨hstored, rfl⟩ := hp
        rw [hgate] at hrun
        simp only [Option.map_some, Option.bind_eq_bind, Option.bind_some,
          send_rows (.inl rfl : Dest.callback = .callback ∨ _)] at hrun
        rw [firstRow_cons, hstored]
        cases p with
        | nil =>
          rw [hstored] at hcounts
          rw [← hnil rfl] at hrun
          obtain ⟨images, hadd, hhead⟩ := ih hrows.2 hcounts (by omega) hrun
          refine ⟨images, ?_, hhead⟩
          rw [hadd]
          exact congrArg (· ++ images) (List.append_nil _)
        | cons r p =>
          obtain ⟨images, hadd⟩ := runScans_adds hrun
          refine ⟨(dedup sc.distinct .empty (r :: p)).map (·.image) ++ images, ?_, ?_⟩
          · rw [hadd, List.append_assoc]
          · rw [List.head?_append, List.head?_map, head?_dedup]
            rfl

end Dbsql.L5.Query
