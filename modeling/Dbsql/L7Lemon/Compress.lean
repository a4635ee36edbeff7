import Dbsql.L7Lemon.Actions
/-!
# Default reductions (lemon.c, CompressTables)

In a state that reduces by one rule on several lookaheads the most frequent reduction becomes the
default: its first action gets the lookahead `{default}`, the others go out of use.

Results:
* `compress_mem`: the actions in use afterwards are those before less the reductions by one rule,
  and the default for that rule.
* `compress_nodup`: no two actions in use have one lookahead if none had before.
-/
namespace Dbsql.L7

/-- The count of the inner loop (lemon.c:3637-3642). -/
def countReduce (rp : Nat) (rbest : Option Nat) (aps : List Action) : Nat :=
  aps.countP (fun ap2 => ap2.type = .REDUCE && rbest ≠ some ap2.x && ap2.x = rp)

/-- The loop that looks for the best rule (lemon.c:3632-3647): `nbest` and `rbest`. -/
def bestLoop : List Action → Nat × Option Nat → Nat × Option Nat
  | [], best => best
  | ap :: rest, best =>
    if ap.type ≠ .REDUCE ∨ best.2 = some ap.x then bestLoop rest best
    else
      let n := 1 + countReduce ap.x best.2 rest
      bestLoop rest (if best.1 < n then (n, some ap.x) else best)

/-- The loops that combine (lemon.c:3655-3662). `found` is false until the first action of the rule. -/
def combine (dflt rbest : Nat) : Bool → List Action → List Action
  | _, [] => []
  | found, ap :: rest =>
    if ap.type = .REDUCE ∧ ap.x = rbest then
      (if found then { ap with type := .NOT_USED } else { ap with sp := dflt }) :: combine dflt rbest true rest
    else ap :: combine dflt rbest found rest

/-- `CompressTables` for one state (lemon.c:3624-3664). -/
def compressState (dflt : Nat) (aps : List Action) : List Action :=
  let best := bestLoop aps (0, none)
  match best.2 with
  | none => aps
  | some rbest => if best.1 < 2 then aps else actionSort (combine dflt rbest false aps)

variable {dflt rbest : Nat} {aps : List Action} {ap : Action}

@[simp] theorem length_combine (found : Bool) : (combine dflt rbest found aps).length = aps.length := by
  induction aps generalizing found with
  | nil => rfl
  | cons ap aps ih =>
    unfold combine
    split <;> simp [ih]

/-- A reduction by the rule. -/
def Reduces (rbest : Nat) (ap : Action) : Prop := ap.type = .REDUCE ∧ ap.x = rbest

theorem combine_mem (found : Bool) (hu : ap.inUse = true) :
    ap ∈ combine dflt rbest found aps ↔ (ap ∈ aps ∧ ¬ Reduces rbest ap) ∨
      (found = false ∧ (∃ ap0 ∈ aps, Reduces rbest ap0) ∧ ap = ⟨dflt, .REDUCE, rbest⟩) := by
  induction aps generalizing found with
  | nil => simp [combine]
  | cons a aps ih =>
    unfold combine
    by_cases ha : a.type = .REDUCE ∧ a.x = rbest
    · -- the action itself is not among those that stay
      have hstay : (ap ∈ a :: aps ∧ ¬ Reduces rbest ap) ↔ (ap ∈ aps ∧ ¬ Reduces rbest ap) := by
        constructor
        · intro h
          rcases List.mem_cons.1 h.1 with rfl | hmem
          · exact absurd ha h.2
          · exact ⟨hmem, h.2⟩
        · exact fun h => ⟨List.mem_cons_of_mem a h.1, h.2⟩
      have hex : ∃ ap0 ∈ a :: aps, Reduces rbest ap0 := ⟨a, List.mem_cons_self, ha⟩
      rw [if_pos ha, List.mem_cons, ih, hstay]
      cases found with
      | true =>
        have hne : ap ≠ { a with type := .NOT_USED } := by
          intro heq
          rw [heq] at hu
          cases hu
        simp [hne]
      | false =>
        have heq : ({ a with sp := dflt } : Action) = ⟨dflt, .REDUCE, rbest⟩ := by
          rw [← ha.1, ← ha.2]
        simp only [Bool.false_eq_true, if_false, false_and, or_false, true_and, hex, heq, reduceCtorEq]
        exact or_comm
    · have hstay : (ap ∈ a :: aps ∧ ¬ Reduces rbest ap) ↔ ap = a ∨ (ap ∈ aps ∧ ¬ Reduces rbest ap) := by
        rw [List.mem_cons]
        constructor
        · intro h
          exact h.1.imp id fun hmem => ⟨hmem, h.2⟩
        · intro h
          rcases h with rfl | h
          · exact ⟨.inl rfl, ha⟩
          · exact ⟨.inr h.1, h.2⟩
      have hex : (∃ ap0 ∈ a :: aps, Reduces rbest ap0) ↔ ∃ ap0 ∈ aps, Reduces rbest ap0 := by
        simp only [List.mem_cons, exists_eq_or_imp]
        exact or_iff_right ha
      rw [if_neg ha, List.mem_cons, ih, hstay, hex, or_assoc]

/-- Compression leaves at most one action in use for a lookahead. -/
theorem combine_nodup (found : Bool) (hn : (usedSps aps).Nodup) (hd : ∀ ap ∈ aps, ap.sp ≠ dflt) :
    (usedSps (combine dflt rbest found aps)).Nodup ∧
      ∀ x ∈ usedSps (combine dflt rbest found aps), x ∈ usedSps aps ∨ (found = false ∧ x = dflt) := by
  induction aps generalizing found with
  | nil => exact ⟨.nil, by simp [usedSps, combine]⟩
  | cons ap aps ih =>
    obtain ⟨hap, hds⟩ := List.forall_mem_cons.1 hd
    have hdn : dflt ∉ usedSps aps := by
      intro h
      obtain ⟨ap', hmem, hsp, _⟩ := mem_usedSps.1 h
      exact hds ap' hmem hsp
    rw [usedSps_cons] at hn ⊢
    have hns : (usedSps aps).Nodup := by
      split at hn
      · exact (List.nodup_cons.1 hn).2
      · exact hn
    unfold combine
    by_cases ha : ap.type = .REDUCE ∧ ap.x = rbest
    · obtain ⟨ihn, ihmem⟩ := ih true hns hds
      have hmem : ∀ x ∈ usedSps (combine dflt rbest true aps), x ∈ usedSps aps :=
        fun x hx => (ihmem x hx).resolve_right (by simp)
      have hu : ap.inUse = true := by
        unfold Action.inUse
        rw [ha.1]
        rfl
      rw [if_pos ha, if_pos hu, usedSps_cons]
      cases found with
      | true =>
        have hout : ({ ap with type := .NOT_USED } : Action).inUse = false := rfl
        simp only [if_true, hout, Bool.false_eq_true, if_false, false_and, or_false, reduceCtorEq]
        exact ⟨ihn, fun x hx => List.mem_cons_of_mem _ (hmem x hx)⟩
      | false =>
        have hin : ({ ap with sp := dflt } : Action).inUse = true := hu
        simp only [Bool.false_eq_true, if_false, hin, if_true, true_and]
        refine ⟨List.nodup_cons.2 ⟨fun h => hdn (hmem _ h), ihn⟩, fun x hx => ?_⟩
        rcases List.mem_cons.1 hx with rfl | hx
        · exact .inr rfl
        · exact .inl (List.mem_cons_of_mem _ (hmem x hx))
    · obtain ⟨ihn, ihmem⟩ := ih found hns hds
      rw [if_neg ha, usedSps_cons]
      by_cases hu : ap.inUse = true
      · rw [if_pos hu] at hn ⊢
        rw [if_pos hu]
        refine ⟨List.nodup_cons.2 ⟨fun h => ?_, ihn⟩, fun x hx => ?_⟩
        · rcases ihmem _ h with h | h
          · exact (List.nodup_cons.1 hn).1 h
          · exact hap h.2
        · rcases List.mem_cons.1 hx with rfl | hx
          · exact .inl List.mem_cons_self
          · exact (ihmem x hx).imp (List.mem_cons_of_mem _) id
      · rw [if_neg hu]
        rw [if_neg hu]
        exact ⟨ihn, ihmem⟩

/-- The rule that is found is one that some action reduces by. -/
theorem bestLoop_reduces {best : Nat × Option Nat} {l : List Action}
    (hsub : ∀ ap ∈ aps, ap ∈ l) (hbest : ∀ r, best.2 = some r → ∃ ap ∈ l, Reduces r ap) {r : Nat}
    (hr : (bestLoop aps best).2 = some r) : ∃ ap ∈ l, Reduces r ap := by
  induction aps generalizing best with
  | nil => exact hbest r hr
  | cons ap aps ih =>
    obtain ⟨hap, hsub⟩ := List.forall_mem_cons.1 hsub
    unfold bestLoop at hr
    split at hr
    next => exact ih hsub hbest hr
    next h =>
      refine ih hsub (fun r' hr' => ?_) hr
      split at hr'
      next =>
        cases hr'
        exact ⟨ap, hap, Classical.not_not.1 (not_or.1 h).1, rfl⟩
      next => exact hbest r' hr'

/-- What compression does to the actions in use: nothing, or one rule becomes the default. -/
theorem compress_mem (hlen : aps.length < 2 ^ 30) :
    compressState dflt aps = aps ∨ ∃ rbest, (∃ ap0 ∈ aps, Reduces rbest ap0) ∧
      ∀ ap, ap.inUse = true → (ap ∈ compressState dflt aps ↔
        (ap ∈ aps ∧ ¬ Reduces rbest ap) ∨ ap = ⟨dflt, .REDUCE, rbest⟩) := by
  unfold compressState
  simp only
  split
  next => exact .inl rfl
  next rbest hbest =>
    by_cases hfew : (bestLoop aps (0, none)).1 < 2
    · rw [if_pos hfew]
      exact .inl rfl
    · rw [if_neg hfew]
      have hex : ∃ ap0 ∈ aps, Reduces rbest ap0 :=
        bestLoop_reduces (fun _ h => h) (fun r hr => by cases hr) hbest
      have hlen' : (combine dflt rbest false aps).length < 2 ^ 30 := by rwa [length_combine]
      refine .inr ⟨rbest, hex, fun ap hu => ?_⟩
      rw [(actionSort_perm hlen').mem_iff, combine_mem false hu]
      simp [hex]

theorem compress_nodup (hlen : aps.length < 2 ^ 30) (hn : (usedSps aps).Nodup)
    (hd : ∀ ap ∈ aps, ap.sp ≠ dflt) : (usedSps (compressState dflt aps)).Nodup := by
  unfold compressState
  simp only
  split
  next => exact hn
  next rbest hbest =>
    split
    next => exact hn
    next =>
      have hlen' : (combine dflt rbest false aps).length < 2 ^ 30 := by rwa [length_combine]
      have hperm : (usedSps (actionSort (combine dflt rbest false aps))).Perm
          (usedSps (combine dflt rbest false aps)) :=
        ((actionSort_perm hlen').filter _).map _
      exact hperm.nodup_iff.2 (combine_nodup false hn hd).1

end Dbsql.L7
