import Mathlib.Order.Defs.Unbundled
/-!
# Code that ends or jumps

A piece of code comes to its end or jumps to one of several places, with the state it leaves.
Pieces follow one another, and a jump may lead to the start of the next one: so a loop goes on with
its next round.

`Keeps` relates the state before to the state behind, wherever the code has gone. `Triple` has an
assertion for the end and one for each jump.
-/
namespace Dbsql.Core.Jumps

/-- The jump, unless the code comes to its end, and the state. -/
abbrev Code (ε σ : Type) := σ → Option ε × σ

variable {ε σ α : Type}

def skip : Code ε σ := fun s => (none, s)

def jump (e : ε) : Code ε σ := fun s => (some e, s)

/-- `d` behind `c`; the jumps `here` lead to the start of `d`. -/
def land (here : ε → Bool) (c d : Code ε σ) : Code ε σ := fun s =>
  match c s with
  | (none, s) => d s
  | (some e, s) => if here e then d s else (some e, s)

/-- One piece after the other. -/
def block : List (Code ε σ) → Code ε σ
  | [] => skip
  | c :: cs => land (fun _ => false) c (block cs)

/-- Code that is there only if `b`. -/
def onlyIf (b : Bool) (c : Code ε σ) : Code ε σ := if b then c else skip

/-- A round for each entry; the jumps `here` lead to the next round. -/
def each (here : ε → Bool) (body : α → Code ε σ) : List α → Code ε σ
  | [] => skip
  | a :: as => land here (body a) (each here body as)

@[simp] theorem block_singleton (c : Code ε σ) : block [c] = c := by
  funext s
  rw [block, land]
  rcases c s with ⟨_ | e, t⟩
  · rfl
  · rfl

/-! ## What stays wherever the code goes -/

/-- The state before and the state behind are related. -/
def Keeps (R : σ → σ → Prop) (c : Code ε σ) : Prop := ∀ s, R s (c s).2

section
variable {R : σ → σ → Prop} {c d : Code ε σ} {here : ε → Bool}

theorem Keeps.mono {S : σ → σ → Prop} (h : Keeps R c) (hrs : ∀ s t, R s t → S s t) : Keeps S c :=
  fun s => hrs s _ (h s)

theorem keeps_skip [Std.Refl R] : Keeps R (skip : Code ε σ) := fun s => refl_of R s

theorem keeps_nil [Std.Refl R] : Keeps R (block ([] : List (Code ε σ))) := keeps_skip

theorem keeps_onlyIf [Std.Refl R] {b : Bool} (h : b = true → Keeps R c) : Keeps R (onlyIf b c) := by
  cases b with
  | false => exact keeps_skip
  | true => exact h rfl

variable [IsTrans σ R]

theorem Keeps.land (hc : Keeps R c) (hd : Keeps R d) : Keeps R (land here c d) := by
  intro s
  have hs := hc s
  rw [Jumps.land]
  split
  · rename_i s' hcs
    rw [hcs] at hs
    exact trans_of R hs (hd s')
  · rename_i e s' hcs
    rw [hcs] at hs
    split
    · exact trans_of R hs (hd s')
    · exact hs

theorem Keeps.cons {cs : List (Code ε σ)} (hc : Keeps R c) (hcs : Keeps R (block cs)) :
    Keeps R (block (c :: cs)) := hc.land hcs

theorem keeps_each [Std.Refl R] {body : α → Code ε σ} (h : ∀ a, Keeps R (body a)) (as : List α) :
    Keeps R (each here body as) := by
  induction as with
  | nil => exact keeps_skip
  | cons a as ih => exact (h a).land ih

end

/-! ## Assertions -/

/-- From a state in `P` the code comes to its end in `Q`, or jumps to `e` in `J e`. -/
def Triple (P : σ → Prop) (c : Code ε σ) (Q : σ → Prop) (J : ε → σ → Prop) : Prop :=
  ∀ s, P s → (c s).1.elim (Q (c s).2) fun e => J e (c s).2

section
variable {P P' Q Q' R : σ → Prop} {J J' : ε → σ → Prop} {c d : Code ε σ} {here : ε → Bool}

theorem Triple.imp (h : Triple P c Q J) (hp : ∀ s, P' s → P s) (hq : ∀ s, Q s → Q' s)
    (hj : ∀ e s, J e s → J' e s) : Triple P' c Q' J' := by
  intro s hs
  have hc := h s (hp s hs)
  cases he : (c s).1 with
  | none =>
    rw [he] at hc
    exact hq _ hc
  | some e =>
    rw [he] at hc
    exact hj e _ hc

/-- The conjunction rule. -/
theorem Triple.and (h : Triple P c Q J) (h' : Triple P' c Q' J') :
    Triple (fun s => P s ∧ P' s) c (fun s => Q s ∧ Q' s) fun e s => J e s ∧ J' e s := by
  intro s hs
  have hc := h s hs.1
  have hc' := h' s hs.2
  cases he : (c s).1 with
  | none =>
    rw [he] at hc hc'
    exact ⟨hc, hc'⟩
  | some e =>
    rw [he] at hc hc'
    exact ⟨hc, hc'⟩

/-- What the code keeps holds wherever it goes. -/
theorem Keeps.triple {S : σ → σ → Prop} (h : Keeps S c) (hpq : ∀ s t, S s t → P s → Q t) :
    Triple P c Q fun _ => Q := by
  intro s hs
  have hq : Q (c s).2 := hpq s _ (h s) hs
  cases (c s).1 with
  | none => exact hq
  | some e => exact hq

theorem triple_skip (h : ∀ s, P s → Q s) : Triple P skip Q J := fun s hs => h s hs

/-- Where `c` ends, and where one of its jumps leads, `d` begins. -/
theorem Triple.land (hc : Triple P c Q fun e s => if here e then Q s else J e s)
    (hd : Triple Q d R J) : Triple P (land here c d) R J := by
  intro s hs
  have hq := hc s hs
  rw [Jumps.land]
  split
  · rename_i s' hcs
    rw [hcs] at hq
    exact hd s' hq
  · rename_i e s' hcs
    rw [hcs, Option.elim_some] at hq
    split
    · rename_i he
      rw [if_pos he] at hq
      exact hd s' hq
    · rename_i he
      rw [if_neg he] at hq
      exact hq

theorem triple_nil (h : ∀ s, P s → Q s) : Triple P (block []) Q J := triple_skip h

theorem Triple.cons {cs : List (Code ε σ)} (hc : Triple P c Q J) (hcs : Triple Q (block cs) R J) :
    Triple P (block (c :: cs)) R J :=
  Triple.land (hc.imp (fun _ hs => hs) (fun _ hs => hs) fun _ _ hj => by simpa using hj) hcs

theorem triple_onlyIf {b : Bool} (ht : b = true → Triple P c Q J) (hf : b = false → ∀ s, P s → Q s) :
    Triple P (onlyIf b c) Q J := by
  cases b with
  | false => exact triple_skip (hf rfl)
  | true => exact ht rfl

/-- Each round keeps the invariant, also where it goes on behind a jump. -/
theorem triple_each {body : α → Code ε σ} {I : σ → Prop}
    (h : ∀ a, Triple I (body a) I fun e s => if here e then I s else J e s) (as : List α) :
    Triple I (each here body as) I J := by
  induction as with
  | nil => exact triple_skip fun _ hs => hs
  | cons a as ih => exact (h a).land ih

end
end Dbsql.Core.Jumps
