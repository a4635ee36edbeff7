import Mathlib.Tactic.Common
/-!
# Blocks of code at absolute addresses

A machine is given by the effect of one opcode on an address and a state (`exec`); a
program maps addresses to opcodes, and a state with no opcode, or whose opcode has no
effect, is halted. `CodeAt prog a code` says that `code` stands at address `a`. `Ends Q s`
says that the run from `s` comes to a state in `Q`; since runs are deterministic, a run
comes to at most one halted state (`Ends.halted_unique`).

`Deep` bounds the size of the state from below: the run comes to address `b` with at
least `n`, or halts outside the exits. It survives whatever the code does with the values.
-/
namespace Dbsql.Core

variable {Op S : Type}

/-! ## Code -/

/-- `code` stands at address `a`. -/
def CodeAt (prog : Nat → Option Op) (a : Nat) (code : List Op) : Prop :=
  ∀ i o, code[i]? = some o → prog (a + i) = some o

/-- The program that is `code` at address `a` and nothing else. -/
def block (a : Nat) (code : List Op) : Nat → Option Op :=
  fun pc => if a ≤ pc then code[pc - a]? else none

theorem codeAt_block (a : Nat) (code : List Op) : CodeAt (block a code) a code := by
  intro i o h
  rw [block, if_pos (by omega), Nat.add_sub_cancel_left, h]

theorem block_none {a pc : Nat} {code : List Op} (h : pc < a ∨ a + code.length ≤ pc) :
    block a code pc = none := by
  unfold block
  split
  · rw [List.getElem?_eq_none (by omega)]
  · rfl

namespace CodeAt
variable {prog : Nat → Option Op} {a : Nat} {c c' : List Op} {o : Op}

theorem left (h : CodeAt prog a (c ++ c')) : CodeAt prog a c := by
  intro i o hi
  obtain ⟨hlt, -⟩ := List.getElem?_eq_some_iff.1 hi
  apply h
  rw [List.getElem?_append_left hlt, hi]

theorem right (h : CodeAt prog a (c ++ c')) : CodeAt prog (a + c.length) c' := by
  intro i o hi
  rw [Nat.add_assoc]
  apply h
  rw [List.getElem?_append_right (by omega), Nat.add_sub_cancel_left, hi]

/-- The code after `c`, at its address. -/
theorem after (h : CodeAt prog a (c ++ c')) {b : Nat} (hb : a + c.length = b) :
    CodeAt prog b c' :=
  hb ▸ h.right

theorem head (h : CodeAt prog a (o :: c)) : prog a = some o := h 0 o rfl

theorem tail (h : CodeAt prog a (o :: c)) : CodeAt prog (a + 1) c := by
  intro i o' hi
  rw [Nat.add_assoc, Nat.add_comm 1]
  exact h (i + 1) o' hi

end CodeAt

/-! ## Runs -/

section
variable (exec : Op → Nat × S → Option (Nat × S)) (prog : Nat → Option Op)

def step (s : Nat × S) : Option (Nat × S) := (prog s.1).bind fun o => exec o s

def Halted (s : Nat × S) : Prop := step exec prog s = none

/-- The run from a state comes to a state in `Q`. -/
inductive Ends (Q : Nat × S → Prop) : Nat × S → Prop
  | here {s : Nat × S} : Q s → Ends Q s
  | step {s s' : Nat × S} : step exec prog s = some s' → Ends Q s' → Ends Q s

end

section
variable {exec : Op → Nat × S → Option (Nat × S)} {prog : Nat → Option Op}
variable {P Q : Nat × S → Prop} {s t : Nat × S}

theorem halted_of_none (h : prog s.1 = none) : Halted exec prog s := by
  rw [Halted, step, h]
  rfl

theorem Ends.bind (h : Ends exec prog P s) (hq : ∀ t, P t → Ends exec prog Q t) :
    Ends exec prog Q s := by
  induction h with
  | here hp => exact hq _ hp
  | step hs _ ih => exact .step hs ih

theorem Ends.mono (h : Ends exec prog P s) (hq : ∀ t, P t → Q t) : Ends exec prog Q s :=
  h.bind fun t ht => .here (hq t ht)

/-- One opcode. -/
theorem Ends.op {o : Op} (ho : prog s.1 = some o) (he : exec o s = some t)
    (h : Ends exec prog Q t) : Ends exec prog Q s := by
  refine .step ?_ h
  rw [Core.step, ho]
  exact he

/-- The run to a state, and on from there. -/
theorem Ends.trans (h : Ends exec prog (· = t) s) (h' : Ends exec prog Q t) :
    Ends exec prog Q s :=
  h.bind fun _ ht => ht ▸ h'

theorem Ends.halted (h : Ends exec prog (· = t) s) (ht : Halted exec prog t) :
    Ends exec prog (fun u => Halted exec prog u ∧ u = t) s :=
  h.mono fun _ hu => ⟨hu ▸ ht, hu⟩

/-- A run comes to one halted state. -/
theorem Ends.halted_unique (h : Ends exec prog (fun t => Halted exec prog t ∧ P t) s)
    (h' : Ends exec prog (fun t => Halted exec prog t ∧ Q t) s) : ∃ t, P t ∧ Q t := by
  induction h with
  | here hp =>
    cases h' with
    | here hq => exact ⟨_, hp.2, hq.2⟩
    | step hs _ =>
      have := hp.1
      rw [Halted, hs] at this
      cases this
  | step hs _ ih =>
    cases h' with
    | here hq =>
      have := hq.1
      rw [Halted, hs] at this
      cases this
    | step hs' h' =>
      rw [hs] at hs'
      cases hs'
      exact ih h'

end

/-! ## Depth -/

section
variable (exec : Op → Nat × S → Option (Nat × S)) (prog : Nat → Option Op)
variable (size : S → Nat) (exit : Nat → Prop)

/-- The state has come to address `b` with size at least `n`, or halted outside the exits. -/
def DeepState (b n : Nat) (s : Nat × S) : Prop :=
  (s.1 = b ∧ n ≤ size s.2) ∨ (Halted exec prog s ∧ ¬ exit s.1)

def Deep (b n : Nat) (s : Nat × S) : Prop := Ends exec prog (DeepState exec prog size exit b n) s

end

section
variable {exec : Op → Nat × S → Option (Nat × S)} {prog : Nat → Option Op}
variable {size : S → Nat} {exit : Nat → Prop} {b b' n m : Nat} {s : Nat × S}

theorem Deep.here {x : S} (h : n ≤ size x) : Deep exec prog size exit b n (b, x) :=
  Ends.here (.inl ⟨rfl, h⟩)

theorem Deep.bind (h : Deep exec prog size exit b n s)
    (h' : ∀ x, n ≤ size x → Deep exec prog size exit b' m (b, x)) :
    Deep exec prog size exit b' m s := by
  refine Ends.bind h fun t ht => ?_
  obtain ⟨b₀, x⟩ := t
  rcases ht with ⟨hb, hn⟩ | ht
  · cases hb
    exact h' x hn
  · exact Ends.here (.inr ht)

theorem Deep.mono (h : Deep exec prog size exit b n s) (hm : m ≤ n) :
    Deep exec prog size exit b m s :=
  h.bind fun _ hx => .here (Nat.le_trans hm hx)

/-- After a run to one state. -/
theorem Deep.after {t : Nat × S} (h : Ends exec prog (· = t) s)
    (h' : Deep exec prog size exit b n t) : Deep exec prog size exit b n s :=
  Ends.trans h h'

/-- One opcode of the program: it has an effect, or the run halts there, inside the program
and so outside the exits. -/
theorem Deep.op {o : Op} {a : Nat} {x : S} (hexit : ∀ a, exit a → prog a = none)
    (ho : prog a = some o) (h : ∀ t, exec o (a, x) = some t → Deep exec prog size exit b n t) :
    Deep exec prog size exit b n (a, x) := by
  cases he : exec o (a, x) with
  | none =>
    refine Ends.here (.inr ⟨?_, fun hx => ?_⟩)
    · rw [Halted, step, ho]
      exact he
    · rw [hexit a hx] at ho
      cases ho
  | some t => exact Ends.op ho he (h t he)

/-- A jump out of the program to an address that is no exit. -/
theorem Deep.out {a : Nat} {x : S} (hp : prog a = none) (ha : ¬ exit a) :
    Deep exec prog size exit b n (a, x) :=
  Ends.here (.inr ⟨halted_of_none hp, ha⟩)

/-- A run that comes deep to an exit does not come to that exit, or to another, at a smaller
size. -/
theorem Deep.excludes (hexit : ∀ a, exit a → prog a = none) (hb : exit b)
    (h : Deep exec prog size exit b n s) {Q : Nat × S → Prop}
    (hq : ∀ t, Q t → exit t.1 ∧ size t.2 < n) : ¬ Ends exec prog Q s := by
  intro h'
  have hd : Ends exec prog (fun t => Halted exec prog t ∧ DeepState exec prog size exit b n t) s := by
    refine Ends.mono h fun t ht => ⟨?_, ht⟩
    rcases ht with ⟨rfl, -⟩ | ⟨hh, -⟩
    · exact halted_of_none (hexit _ hb)
    · exact hh
  have hq' : Ends exec prog (fun t => Halted exec prog t ∧ Q t) s :=
    h'.mono fun t ht => ⟨halted_of_none (hexit _ (hq t ht).1), ht⟩
  obtain ⟨t, ht, htq⟩ := hd.halted_unique hq'
  obtain ⟨hx, hlt⟩ := hq t htq
  rcases ht with ⟨-, hn⟩ | ⟨-, hne⟩
  · omega
  · exact hne hx

/-- A run that comes deep to `b` and halts from there, at the exits only above `m`. -/
theorem Deep.halts (h : Deep exec prog size exit b n s)
    (h' : ∀ x, n ≤ size x →
      Ends exec prog (fun t => Halted exec prog t ∧ (exit t.1 → m < size t.2)) (b, x)) :
    Ends exec prog (fun t => Halted exec prog t ∧ (exit t.1 → m < size t.2)) s := by
  refine Ends.bind h fun t ht => ?_
  obtain ⟨b₀, x⟩ := t
  rcases ht with ⟨hb, hn⟩ | ⟨hh, hne⟩
  · cases hb
    exact h' x hn
  · exact Ends.here ⟨hh, fun hx => absurd hx hne⟩

end
end Dbsql.Core
