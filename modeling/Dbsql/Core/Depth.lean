import Mathlib.Data.List.Basic
import Mathlib.Logic.Relation
import Mathlib.Tactic.Common
/-!
# The depth of the stack along the paths of a program

A program is a list of opcodes with labels in between. An opcode may fall through to the next item, or
jump to a label, and changes the depth of the stack by a fixed amount for each way. Every way counts,
whatever the values are: `Reaches` is about all paths.

`Flow` checks a program against a depth for each label, from front to end; then all paths come to a
label at its depth (`Flow.reaches`). `Thru` is a path through a block from front to end, and `Exits` one
that leaves it by a jump.
-/
namespace Dbsql.Core.Depth

/-- A place in a program. -/
inductive Item (Op L : Type)
  | label (l : L)
  | op (o : Op)

/-- The changes of the depth. -/
structure Effects (Op L : Type) where
  falls : Op → List Int
  jumps : Op → List (L × Int)

variable {Op L : Type} {E : Effects Op L} {prog code code' : List (Item Op L)}

/-! ## Paths -/

/-- One step, from a place and a depth. -/
inductive Step (E : Effects Op L) (prog : List (Item Op L)) : Nat × Int → Nat × Int → Prop
  | label {p l d} : prog[p]? = some (.label l) → Step E prog (p, d) (p + 1, d)
  | fall {p o d δ} : prog[p]? = some (.op o) → δ ∈ E.falls o → Step E prog (p, d) (p + 1, d + δ)
  | jump {p o d l δ m} : prog[p]? = some (.op o) → (l, δ) ∈ E.jumps o → prog[m]? = some (.label l) →
    Step E prog (p, d) (m, d + δ)

def Reaches (E : Effects Op L) (prog : List (Item Op L)) : Nat × Int → Nat × Int → Prop :=
  Relation.ReflTransGen (Step E prog)

/-- What is deeper on the stack stays as it is. -/
theorem Step.shift {s t : Nat × Int} (h : Step E prog s t) (c : Int) : Step E prog (s.1, s.2 + c) (t.1, t.2 + c) := by
  cases h with
  | label hp => exact .label hp
  | @fall p o d δ hp hδ =>
    show Step E prog (p, d + c) (p + 1, d + δ + c)
    rw [Int.add_right_comm]
    exact .fall hp hδ
  | @jump p o d l δ m hp hδ hm =>
    show Step E prog (p, d + c) (m, d + δ + c)
    rw [Int.add_right_comm]
    exact .jump hp hδ hm

theorem Reaches.shift {s t : Nat × Int} (h : Reaches E prog s t) (c : Int) :
    Reaches E prog (s.1, s.2 + c) (t.1, t.2 + c) := by
  induction h with
  | refl => exact .refl
  | tail _ hst ih => exact ih.tail (hst.shift c)

/-! ## Depths that fit -/

/-- From the depth `x` at its front the code comes to `y` at its end, and to each label at its depth. No
depth stands for a place that is not come to from above. -/
def Flow (E : Effects Op L) (env : L → Int) : Option Int → List (Item Op L) → Option Int → Prop
  | x, [], y => x = y
  | x, .label l :: code, y => (∀ d, x = some d → d = env l) ∧ Flow E env (some (env l)) code y
  | none, .op _ :: code, y => Flow E env none code y
  | some d, .op o :: code, y =>
    (∀ j ∈ E.jumps o, env j.1 = d + j.2) ∧
      ∃ x', (∀ δ ∈ E.falls o, x' = some (d + δ)) ∧ Flow E env x' code y

section
variable {env : L → Int} {x y z : Option Int} {d : Int}

theorem Flow.append (h : Flow E env x code y) (h' : Flow E env y code' z) : Flow E env x (code ++ code') z := by
  induction code generalizing x with
  | nil =>
    obtain rfl : x = y := h
    exact h'
  | cons item code ih =>
    cases item with
    | label l =>
      obtain ⟨hx, h⟩ := h
      exact ⟨hx, ih h⟩
    | op o =>
      cases x with
      | none => exact ih (x := none) h
      | some d =>
        obtain ⟨hj, x', hf, h⟩ := h
        exact ⟨hj, x', hf, ih h⟩

/-- An opcode that falls through in one way. -/
theorem Flow.op {o : Op} {δ : Int} (hf : E.falls o = [δ]) (hj : ∀ j ∈ E.jumps o, env j.1 = d + j.2)
    (h : Flow E env (some (d + δ)) code y) : Flow E env (some d) (.op o :: code) y :=
  ⟨hj, some (d + δ), fun δ' hδ' => by rw [hf, List.mem_singleton] at hδ'; rw [hδ'], h⟩

/-- An opcode that always jumps. -/
theorem Flow.goto {o : Op} (hf : E.falls o = []) (hj : ∀ j ∈ E.jumps o, env j.1 = d + j.2)
    (h : Flow E env none code y) : Flow E env (some d) (.op o :: code) y :=
  ⟨hj, none, fun _ hδ => absurd (hf ▸ hδ) List.not_mem_nil, h⟩

theorem Flow.label {l : L} (hd : d = env l) (h : Flow E env (some d) code y) :
    Flow E env (some d) (.label l :: code) y :=
  ⟨fun _ hd' => (Option.some.inj hd').symm.trans hd, hd ▸ h⟩

/-- A label that is not come to from above. -/
theorem Flow.land {l : L} (h : Flow E env (some (env l)) code y) : Flow E env none (.label l :: code) y :=
  ⟨fun _ h => (nomatch h), h⟩

/-- The rest of the code from a label on. -/
theorem Flow.at_label (h : Flow E env x code y) {m : Nat} {l : L} (hm : code[m]? = some (.label l)) :
    Flow E env (some (env l)) (code.drop m) y := by
  induction code generalizing x m with
  | nil => cases hm
  | cons item code ih =>
    cases m with
    | zero =>
      cases hm
      exact ⟨fun d hd => (Option.some.inj hd).symm, h.2⟩
    | succ m =>
      rw [List.drop_succ_cons]
      cases item with
      | label l' => exact ih h.2 hm
      | op o =>
        cases x with
        | none => exact ih (x := none) h hm
        | some d =>
          obtain ⟨-, x', -, h⟩ := h
          exact ih h hm

/-- A step keeps to the depths. -/
theorem Flow.step (h : Flow E env x prog y) {s t : Nat × Int} (hs : Flow E env (some s.2) (prog.drop s.1) y)
    (hst : Step E prog s t) : Flow E env (some t.2) (prog.drop t.1) y := by
  have hcons : ∀ {p : Nat} {item : Item Op L}, prog[p]? = some item → prog.drop p = item :: prog.drop (p + 1) := by
    intro p item hp
    obtain ⟨hlt, rfl⟩ := List.getElem?_eq_some_iff.1 hp
    exact List.drop_eq_getElem_cons hlt
  cases hst with
  | label hp =>
    rw [hcons hp] at hs
    obtain ⟨hd, hs⟩ := hs
    rw [hd _ rfl]
    exact hs
  | fall hp hδ =>
    rw [hcons hp] at hs
    obtain ⟨-, x', hf, hs⟩ := hs
    rw [← hf _ hδ]
    exact hs
  | jump hp hδ hm =>
    rw [hcons hp] at hs
    have hl := hs.1 _ hδ
    show Flow E env (some (_ + _)) _ y
    rw [← hl]
    exact h.at_label hm

/-- All paths from one label to another change the depth by the difference of theirs. -/
theorem Flow.reaches (h : Flow E env x prog y) {p m : Nat} {l l' : L} {d d' : Int} (hp : prog[p]? = some (.label l))
    (hm : prog[m]? = some (.label l')) (hr : Reaches E prog (p, d) (m, d')) : d' - d = env l' - env l := by
  have hr' := hr.shift (env l - d)
  have hinv : ∀ {t : Nat × Int}, Reaches E prog (p, d + (env l - d)) t → Flow E env (some t.2) (prog.drop t.1) y := by
    intro t ht
    induction ht with
    | refl =>
      rw [show d + (env l - d) = env l by omega]
      exact h.at_label hp
    | tail _ hst ih => exact h.step ih hst
  have hflow := hinv hr'
  obtain ⟨hlt, hitem⟩ := List.getElem?_eq_some_iff.1 hm
  rw [List.drop_eq_getElem_cons hlt, hitem] at hflow
  have hd := hflow.1 _ rfl
  omega

end

/-! ## Single paths -/

/-- A path through the code from front to end. -/
inductive Thru (E : Effects Op L) : List (Item Op L) → Int → Prop
  | nil : Thru E [] 0
  | label {l code δ} : Thru E code δ → Thru E (.label l :: code) δ
  | fall {o δ code δ'} : δ ∈ E.falls o → Thru E code δ' → Thru E (.op o :: code) (δ + δ')
  /-- over `mid`, to a label behind it -/
  | skip {o l δ mid code δ'} : (l, δ) ∈ E.jumps o → Thru E code δ' →
    Thru E (.op o :: (mid ++ .label l :: code)) (δ + δ')

/-- An opcode that falls through in one way. -/
theorem Thru.op {o : Op} {d δ δ' : Int} (hf : E.falls o = [δ]) (h : Thru E code δ') (hd : d = δ + δ') :
    Thru E (.op o :: code) d :=
  hd ▸ .fall (hf ▸ List.mem_singleton_self δ) h

theorem Thru.append {δ δ' : Int} (h : Thru E code δ) (h' : Thru E code' δ') : Thru E (code ++ code') (δ + δ') := by
  induction h with
  | nil =>
    rw [Int.zero_add]
    exact h'
  | label _ ih => exact .label ih
  | fall hδ _ ih =>
    rw [Int.add_assoc]
    exact .fall hδ ih
  | @skip o l δ mid code _ hδ _ ih =>
    rw [Int.add_assoc, List.cons_append, List.append_assoc, List.cons_append]
    exact .skip hδ ih

theorem item_at (pre : List (Item Op L)) (item : Item Op L) (rest : List (Item Op L)) :
    (pre ++ item :: rest)[pre.length]? = some item := by
  rw [List.getElem?_append_right (Nat.le_refl _), Nat.sub_self]
  rfl

theorem Thru.reaches {δ : Int} (h : Thru E code δ) {pre post : List (Item Op L)} (hprog : prog = pre ++ code ++ post)
    (d : Int) : Reaches E prog (pre.length, d) ((pre ++ code).length, d + δ) := by
  induction h generalizing pre d with
  | nil =>
    rw [List.append_nil, Int.add_zero]
    exact .refl
  | @label l code δ _ ih =>
    have hsplit : prog = pre ++ .label l :: (code ++ post) := by rw [hprog, List.append_assoc, List.cons_append]
    have hp : prog[pre.length]? = some (.label l) := hsplit ▸ item_at pre (.label l) (code ++ post)
    have hrest := @ih (pre ++ [.label l]) (by rw [hsplit, List.append_assoc, List.append_assoc]; rfl) d
    rw [List.append_assoc pre, List.length_append, List.length_singleton] at hrest
    exact .head (.label hp) hrest
  | @fall o δ code δ' hδ _ ih =>
    have hsplit : prog = pre ++ .op o :: (code ++ post) := by rw [hprog, List.append_assoc, List.cons_append]
    have hp : prog[pre.length]? = some (.op o) := hsplit ▸ item_at pre (.op o) (code ++ post)
    have hrest := @ih (pre ++ [.op o]) (by rw [hsplit, List.append_assoc, List.append_assoc]; rfl) (d + δ)
    rw [List.append_assoc pre, List.length_append, List.length_singleton, Int.add_assoc] at hrest
    exact .head (.fall hp hδ) hrest
  | @skip o l δ mid code δ' hδ _ ih =>
    have hsplit : prog = pre ++ .op o :: (mid ++ .label l :: (code ++ post)) := by
      rw [hprog]
      simp only [List.append_assoc, List.cons_append]
    have hsplit' : prog = (pre ++ .op o :: mid) ++ .label l :: (code ++ post) := by
      rw [hsplit, List.append_assoc, List.cons_append]
    have hp : prog[pre.length]? = some (.op o) := hsplit ▸ item_at pre (.op o) _
    have hm : prog[(pre ++ .op o :: mid).length]? = some (.label l) := hsplit' ▸ item_at (pre ++ .op o :: mid) _ _
    have hrest := @ih (pre ++ .op o :: mid ++ [.label l])
      (by rw [hsplit', List.append_assoc _ [_], List.append_assoc _ _ post]; rfl) (d + δ)
    have hlen : pre ++ Item.op o :: mid ++ [Item.label l] ++ code = pre ++ .op o :: (mid ++ .label l :: code) := by
      simp only [List.append_assoc, List.cons_append, List.nil_append]
    have hlast : (pre ++ Item.op o :: mid ++ [Item.label l]).length = (pre ++ Item.op o :: mid).length + 1 :=
      List.length_append
    rw [hlen, Int.add_assoc, hlast] at hrest
    exact .head (.jump hp hδ hm) (.head (.label hm) hrest)

/-- A path from the front of the code that leaves it by a jump. -/
def Exits (E : Effects Op L) (code : List (Item Op L)) (l : L) (δ : Int) : Prop :=
  ∃ front o rest δ₁ δ₂, code = front ++ .op o :: rest ∧ Thru E front δ₁ ∧ (l, δ₂) ∈ E.jumps o ∧ δ = δ₁ + δ₂

theorem Exits.after {l : L} {δ δ' : Int} (ht : Thru E code δ) (h : Exits E code' l δ') :
    Exits E (code ++ code') l (δ + δ') := by
  obtain ⟨front, o, rest, δ₁, δ₂, rfl, hthru, hj, rfl⟩ := h
  exact ⟨code ++ front, o, rest, δ + δ₁, δ₂, (List.append_assoc ..).symm, ht.append hthru, hj, (Int.add_assoc ..).symm⟩

theorem Exits.before {l : L} {δ : Int} (h : Exits E code l δ) (code' : List (Item Op L)) : Exits E (code ++ code') l δ := by
  obtain ⟨front, o, rest, δ₁, δ₂, rfl, hthru, hj, rfl⟩ := h
  exact ⟨front, o, rest ++ code', δ₁, δ₂, List.append_assoc .., hthru, hj, rfl⟩

theorem Exits.op {o : Op} {l : L} {δ : Int} (h : (l, δ) ∈ E.jumps o) : Exits E (.op o :: code) l δ :=
  ⟨[], o, code, 0, δ, rfl, .nil, h, (Int.zero_add δ).symm⟩

theorem Exits.reaches {l : L} {δ : Int} (h : Exits E code l δ) {pre post : List (Item Op L)}
    (hprog : prog = pre ++ code ++ post) {m : Nat} (hm : prog[m]? = some (.label l)) (d : Int) :
    Reaches E prog (pre.length, d) (m, d + δ) := by
  obtain ⟨front, o, rest, δ₁, δ₂, rfl, hthru, hj, rfl⟩ := h
  have hsplit : prog = pre ++ front ++ .op o :: (rest ++ post) := by
    rw [hprog]
    simp only [List.append_assoc, List.cons_append]
  have hp : prog[(pre ++ front).length]? = some (.op o) := hsplit ▸ item_at (pre ++ front) (.op o) _
  rw [← Int.add_assoc]
  exact (hthru.reaches hsplit d).tail (.jump hp hj hm)

end Dbsql.Core.Depth
