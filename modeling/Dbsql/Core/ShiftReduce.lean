import Mathlib.Computability.ContextFreeGrammar
/-!
# Shift-reduce parsing

A grammar is a list of rules, so that a rule has a number; `cfg` is the grammar of Mathlib it
stands for. `Forest G β w ρ` says that a forest with the roots `β` and the leaves `w` exists whose
nodes, each after its children, are made by the rules `ρ`. An `Automaton` is a set of states with
transitions and the items of each state, what the construction of LR(0) states guarantees of them
kept as fields.

Results:
* `derives_iff_forest`: a sentential form derives a word iff a forest has it as leaves.
* `Run.forest`: what a run of shifts and reductions has put on the stack is a forest over the
  tokens it has shifted, and the reductions of the run are its nodes in post order.
* `Automaton.reduce_stack`: a state with a complete item has the right-hand side on the stack, and
  below it a state that can go on with the left-hand side.
* `Run.accept`: a complete rule of the initial symbol over the empty stack is a tree of a sentence.
-/
namespace Dbsql.Core.ShiftReduce

/-- A grammar whose rules are numbered. -/
structure Grammar (T N : Type) where
  initial : N
  rules : List (ContextFreeRule T N)

variable {T N : Type} {G : Grammar T N}

/-- The grammar of Mathlib with these rules. -/
def Grammar.cfg [DecidableEq T] [DecidableEq N] (G : Grammar T N) : ContextFreeGrammar T where
  NT := N
  initial := G.initial
  rules := G.rules.toFinset

/-- Roots, leaves and the rules of the nodes in post order. -/
inductive Forest (G : Grammar T N) : List (Symbol T N) → List T → List Nat → Prop
  | nil : Forest G [] [] []
  | leaf {β : List (Symbol T N)} {w : List T} {ρ : List Nat} (a : T) :
      Forest G β w ρ → Forest G (.terminal a :: β) (a :: w) ρ
  | node {β : List (Symbol T N)} {u w : List T} {π ρ : List Nat} {i : Nat} {r : ContextFreeRule T N} :
      G.rules[i]? = some r → Forest G r.output u π → Forest G β w ρ →
      Forest G (.nonterminal r.input :: β) (u ++ w) (π ++ i :: ρ)

/-! ## Forests side by side -/

theorem Forest.append {α β : List (Symbol T N)} {u w : List T} {π ρ : List Nat}
    (h : Forest G α u π) (h' : Forest G β w ρ) : Forest G (α ++ β) (u ++ w) (π ++ ρ) := by
  induction h with
  | nil => exact h'
  | leaf a _ ih => exact .leaf a ih
  | node hr hout _ _ ih =>
    rw [List.append_assoc, List.append_assoc]
    exact .node hr hout ih

theorem Forest.split {α β : List (Symbol T N)} {w : List T} {ρ : List Nat} (h : Forest G (α ++ β) w ρ) :
    ∃ u v π κ, w = u ++ v ∧ ρ = π ++ κ ∧ Forest G α u π ∧ Forest G β v κ := by
  induction α generalizing w ρ with
  | nil => exact ⟨[], w, [], ρ, rfl, rfl, .nil, h⟩
  | cons X α ih =>
    cases h with
    | leaf a h =>
      obtain ⟨u, v, π, κ, rfl, rfl, hα, hβ⟩ := ih h
      exact ⟨a :: u, v, π, κ, rfl, rfl, .leaf a hα, hβ⟩
    | node hr hout h =>
      obtain ⟨u, v, π, κ, rfl, rfl, hα, hβ⟩ := ih h
      exact ⟨_ ++ u, v, _ ++ _ :: π, κ, by simp, by simp, .node hr hout hα, hβ⟩

theorem Forest.leaves (w : List T) : Forest G (w.map .terminal) w [] := by
  induction w with
  | nil => exact .nil
  | cons a w ih => exact .leaf a ih

theorem Forest.tree {i : Nat} {r : ContextFreeRule T N} {w : List T} {ρ : List Nat}
    (hr : G.rules[i]? = some r) (h : Forest G r.output w ρ) :
    Forest G [.nonterminal r.input] w (ρ ++ [i]) := by
  have htree : Forest G [.nonterminal r.input] (w ++ []) (ρ ++ [i]) := .node hr h .nil
  rwa [List.append_nil] at htree

/-- The right-hand side at the end of the roots becomes one tree. -/
theorem Forest.reduce {α : List (Symbol T N)} {w : List T} {ρ : List Nat} {i : Nat}
    {r : ContextFreeRule T N} (hr : G.rules[i]? = some r) (h : Forest G (α ++ r.output) w ρ) :
    Forest G (α ++ [.nonterminal r.input]) w (ρ ++ [i]) := by
  obtain ⟨u, v, π, κ, rfl, rfl, hα, hout⟩ := h.split
  rw [List.append_assoc]
  exact hα.append (Forest.tree hr hout)

/-- A tree whose root is a nonterminal has a rule there. -/
theorem Forest.root {A : N} {w : List T} {ρ : List Nat} (h : Forest G [.nonterminal A] w ρ) :
    ∃ i r π, G.rules[i]? = some r ∧ r.input = A ∧ ρ = π ++ [i] ∧ Forest G r.output w π := by
  cases h with
  | node hr hout hnil =>
    cases hnil
    exact ⟨_, _, _, hr, rfl, rfl, by simpa using hout⟩

/-! ## Derivations -/

section
variable [DecidableEq T] [DecidableEq N]

theorem mem_cfg_rules {r : ContextFreeRule T N} :
    r ∈ G.cfg.rules ↔ ∃ i : Nat, G.rules[i]? = some r :=
  List.mem_toFinset.trans List.mem_iff_getElem?

theorem Forest.derives {β : List (Symbol T N)} {w : List T} {ρ : List Nat} (h : Forest G β w ρ) :
    G.cfg.Derives β (w.map .terminal) := by
  induction h with
  | nil => exact .refl _
  | leaf a _ ih => exact ih.append_left [.terminal a]
  | @node β u w π ρ i r hr _ _ ihout ih =>
    have hroot : G.cfg.Produces (.nonterminal r.input :: β) (r.output ++ β) :=
      ⟨r, mem_cfg_rules.2 ⟨i, hr⟩, .head β⟩
    rw [List.map_append]
    exact (hroot.trans_derives (ihout.append_right β)).trans (ih.append_left _)

theorem Forest.of_produces {β γ : List (Symbol T N)} {w : List T} {ρ : List Nat}
    (hp : G.cfg.Produces β γ) (h : Forest G γ w ρ) : ∃ κ, Forest G β w κ := by
  obtain ⟨r, hmem, hrew⟩ := hp
  obtain ⟨i, hr⟩ := mem_cfg_rules.1 hmem
  obtain ⟨p, q, rfl, rfl⟩ := hrew.exists_parts
  obtain ⟨u, v, π, κ, rfl, rfl, hpr, hq⟩ := h.split
  exact ⟨_, (Forest.reduce hr hpr).append hq⟩

/-- **A form derives a word iff a forest has it as leaves.** -/
theorem derives_iff_forest {β : List (Symbol T N)} {w : List T} :
    G.cfg.Derives β (w.map .terminal) ↔ ∃ ρ, Forest G β w ρ := by
  constructor
  · intro h
    induction h using Relation.ReflTransGen.head_induction_on with
    | refl => exact ⟨[], .leaves w⟩
    | head hstep _ ih =>
      obtain ⟨ρ, hρ⟩ := ih
      exact hρ.of_produces hstep
  · intro h
    obtain ⟨ρ, hρ⟩ := h
    exact hρ.derives

theorem mem_language_iff_forest {w : List T} :
    w ∈ G.cfg.language ↔ ∃ ρ, Forest G [.nonterminal G.initial] w ρ := derives_iff_forest

end

/-! ## Stacks and moves -/

/-- States with transitions, and the items of each state: rule number and dot. -/
structure Automaton (G : Grammar T N) (Q : Type) where
  start : Q
  goto : Q → Symbol T N → Q → Prop
  item : Q → Nat → Nat → Prop
  item_rule : ∀ {q i k}, item q i k → ∃ r, G.rules[i]? = some r ∧ k ≤ r.output.length
  start_dot : ∀ {i k}, item start i k → k = 0
  goto_start : ∀ {q X}, ¬ goto q X start
  back : ∀ {q X q' i k}, goto q X q' → item q' i (k + 1) →
    item q i k ∧ ∀ r, G.rules[i]? = some r → r.output[k]? = some X
  ready : ∀ {q i k r X}, item q i k → G.rules[i]? = some r → r.output[k]? = some X → ∃ q', goto q X q'
  origin : ∀ {q i r}, item q i 0 → G.rules[i]? = some r →
    (q = start ∧ r.input = G.initial) ∨ ∃ q', goto q (.nonterminal r.input) q'

variable {Q : Type}

namespace Automaton
variable (A : Automaton G Q)

/-- The state on top of a stack of symbols and states. -/
def top : List (Symbol T N × Q) → Q
  | [] => A.start
  | e :: _ => e.2

/-- The entries of the stack are joined by transitions. -/
def Path : List (Symbol T N × Q) → Prop
  | [] => True
  | e :: s => A.goto (A.top s) e.1 e.2 ∧ Path s

@[simp] theorem top_nil : A.top [] = A.start := rfl
@[simp] theorem top_cons (e : Symbol T N × Q) (s : List (Symbol T N × Q)) : A.top (e :: s) = e.2 := rfl

variable {A} {s s' : List (Symbol T N × Q)}

theorem Path.drop (h : A.Path s) (n : Nat) : A.Path (s.drop n) := by
  induction n generalizing s with
  | zero => exact h
  | succ n ih =>
    cases s with
    | nil => exact h
    | cons e s => exact ih h.2

/-- Only the bottom of the stack is the start state. -/
theorem Path.eq_nil (h : A.Path s) (htop : A.top s = A.start) : s = [] := by
  cases s with
  | nil => rfl
  | cons e s =>
    have hgoto : A.goto (A.top s) e.1 A.start := htop ▸ h.1
    exact absurd hgoto A.goto_start

end Automaton

/-- The symbols of a stack from the bottom. -/
def spell (s : List (Symbol T N × Q)) : List (Symbol T N) := (s.map Prod.fst).reverse

@[simp] theorem spell_nil : spell ([] : List (Symbol T N × Q)) = [] := rfl

@[simp] theorem spell_cons (e : Symbol T N × Q) (s : List (Symbol T N × Q)) :
    spell (e :: s) = spell s ++ [e.1] := by simp [spell]

@[simp] theorem length_spell (s : List (Symbol T N × Q)) : (spell s).length = s.length := by simp [spell]

theorem spell_append (s s' : List (Symbol T N × Q)) : spell (s ++ s') = spell s' ++ spell s := by
  simp [spell]

theorem spell_drop_take (s : List (Symbol T N × Q)) (n : Nat) :
    spell (s.drop n) ++ spell (s.take n) = spell s := by
  rw [← spell_append, List.take_append_drop]

namespace Automaton
variable {A : Automaton G Q} {s : List (Symbol T N × Q)} {i k : Nat} {r : ContextFreeRule T N}

/-- Before the dot of an item stands what is on top of the stack. -/
theorem Path.before_dot (h : A.Path s) (hi : A.item (A.top s) i k) (hr : G.rules[i]? = some r) :
    k ≤ s.length ∧ spell (s.take k) = r.output.take k ∧ A.item (A.top (s.drop k)) i 0 := by
  induction k generalizing s with
  | zero => exact ⟨Nat.zero_le _, rfl, hi⟩
  | succ k ih =>
    cases s with
    | nil => exact absurd (A.start_dot hi) (Nat.succ_ne_zero k)
    | cons e s =>
      obtain ⟨hbelow, hsym⟩ := A.back h.1 hi
      obtain ⟨hlen, hspell, hzero⟩ := ih h.2 hbelow
      refine ⟨Nat.succ_le_succ hlen, ?_, hzero⟩
      rw [List.take_succ_cons, spell_cons, hspell, List.take_add_one, hsym r hr]
      rfl

/-- **A complete item has its right-hand side on the stack**, and under it a state that goes on
with the left-hand side, or the empty stack for a rule of the initial symbol. -/
theorem reduce_stack (h : A.Path s) (hi : A.item (A.top s) i r.output.length)
    (hr : G.rules[i]? = some r) :
    r.output.length ≤ s.length ∧ spell s = spell (s.drop r.output.length) ++ r.output ∧
      ((s.drop r.output.length = [] ∧ r.input = G.initial) ∨
        ∃ q, A.goto (A.top (s.drop r.output.length)) (.nonterminal r.input) q) := by
  obtain ⟨hlen, hspell, hzero⟩ := h.before_dot hi hr
  rw [List.take_length] at hspell
  refine ⟨hlen, ?_, ?_⟩
  · rw [← spell_drop_take s r.output.length, hspell]
  · rcases A.origin hzero hr with ⟨hstart, hinit⟩ | hgoto
    · exact .inl ⟨(h.drop _).eq_nil hstart, hinit⟩
    · exact .inr hgoto

end Automaton

/-- One move: the stack and the tokens left, before and after, and the reductions made. -/
inductive Move (A : Automaton G Q) :
    List (Symbol T N × Q) → List T → List Nat → List (Symbol T N × Q) → List T → Prop
  | shift {s : List (Symbol T N × Q)} {a : T} {w : List T} {q : Q} :
      A.goto (A.top s) (.terminal a) q → Move A s (a :: w) [] ((.terminal a, q) :: s) w
  | reduce {s : List (Symbol T N × Q)} {w : List T} {i : Nat} {r : ContextFreeRule T N} {q : Q} :
      G.rules[i]? = some r → A.item (A.top s) i r.output.length →
      A.goto (A.top (s.drop r.output.length)) (.nonterminal r.input) q →
      Move A s w [i] ((.nonterminal r.input, q) :: s.drop r.output.length) w

/-- Moves one after the other. -/
inductive Run (A : Automaton G Q) :
    List (Symbol T N × Q) → List T → List Nat → List (Symbol T N × Q) → List T → Prop
  | refl (s : List (Symbol T N × Q)) (w : List T) : Run A s w [] s w
  | tail {s s' s'' : List (Symbol T N × Q)} {w w' w'' : List T} {ρ κ : List Nat} :
      Run A s w ρ s' w' → Move A s' w' κ s'' w'' → Run A s w (ρ ++ κ) s'' w''

section
variable {A : Automaton G Q} {s s' s'' : List (Symbol T N × Q)} {w w' w'' u : List T} {ρ κ : List Nat}

theorem Run.trans (h : Run A s w ρ s' w') (h' : Run A s' w' κ s'' w'') : Run A s w (ρ ++ κ) s'' w'' := by
  induction h' with
  | refl => simpa using h
  | tail _ hm ih =>
    rw [← List.append_assoc]
    exact (ih h).tail hm

theorem Move.path (h : Move A s w κ s' w') (hs : A.Path s) : A.Path s' := by
  cases h with
  | shift hgoto => exact ⟨hgoto, hs⟩
  | reduce _ _ hgoto => exact ⟨hgoto, hs.drop _⟩

/-- A move keeps a forest over what is shifted: a shift adds a leaf, a reduction a node. -/
theorem Move.forest (h : Move A s w κ s' w') (hs : A.Path s) (hf : Forest G (spell s) u ρ) :
    ∃ v, w = v ++ w' ∧ Forest G (spell s') (u ++ v) (ρ ++ κ) := by
  cases h with
  | shift hgoto =>
    refine ⟨[_], rfl, ?_⟩
    rw [spell_cons]
    exact hf.append (.leaf _ .nil)
  | reduce hr hi hgoto =>
    obtain ⟨_, hspell, _⟩ := A.reduce_stack hs hi hr
    refine ⟨[], rfl, ?_⟩
    rw [spell_cons, List.append_nil]
    rw [hspell] at hf
    exact hf.reduce hr

theorem Run.path (h : Run A s w ρ s' w') (hs : A.Path s) : A.Path s' := by
  induction h with
  | refl => exact hs
  | tail _ hm ih => exact hm.path ih

/-- **A run builds a forest over the tokens it shifts**, its nodes in the order of the reductions. -/
theorem Run.forest (h : Run A [] w ρ s' w') : ∃ v, w = v ++ w' ∧ Forest G (spell s') v ρ := by
  generalize hs : ([] : List (Symbol T N × Q)) = s at h
  induction h with
  | refl =>
    subst hs
    exact ⟨[], rfl, .nil⟩
  | tail hrun hm ih =>
    obtain ⟨v, rfl, hf⟩ := ih
    obtain ⟨v', rfl, hf'⟩ := hm.forest (hrun.path (hs ▸ trivial)) hf
    exact ⟨v ++ v', by simp, hf'⟩

/-- A complete rule of the initial symbol over the empty stack: the tokens shifted are a sentence. -/
theorem Run.accept {i : Nat} {r : ContextFreeRule T N} (h : Run A [] w ρ s' w')
    (hr : G.rules[i]? = some r) (hi : A.item (A.top s') i r.output.length)
    (hbottom : A.top (s'.drop r.output.length) = A.start) (hinit : r.input = G.initial) :
    ∃ v, w = v ++ w' ∧ Forest G [.nonterminal G.initial] v (ρ ++ [i]) := by
  have hp : A.Path s' := h.path trivial
  obtain ⟨v, hw, hf⟩ := h.forest
  obtain ⟨_, hspell, _⟩ := A.reduce_stack hp hi hr
  rw [(hp.drop _).eq_nil hbottom] at hspell
  rw [hspell] at hf
  refine ⟨v, hw, ?_⟩
  rw [← hinit]
  exact Forest.tree hr hf

end

/-! ## LALR(1) -/

section
variable [DecidableEq T] [DecidableEq N]

/-- What can follow an item of a state in LALR(1): the end after the initial symbol, what a form
behind a nonterminal begins with, and what closure and transitions hand on. -/
inductive Automaton.Lalr (A : Automaton G Q) (eof : T) : Q → Nat → Nat → T → Prop
  | initial {i : Nat} {r : ContextFreeRule T N} : G.rules[i]? = some r → r.input = G.initial →
      Lalr A eof A.start i 0 eof
  | first {q : Q} {i k j : Nat} {r r' : ContextFreeRule T N} {a : T} {γ : List (Symbol T N)} :
      A.item q i k → G.rules[i]? = some r → r.output[k]? = some (.nonterminal r'.input) →
      G.rules[j]? = some r' → G.cfg.Derives (r.output.drop (k + 1)) (.terminal a :: γ : List (Symbol T N)) →
      Lalr A eof q j 0 a
  | inherit {q : Q} {i k j : Nat} {r r' : ContextFreeRule T N} {a : T} :
      Lalr A eof q i k a → G.rules[i]? = some r → r.output[k]? = some (.nonterminal r'.input) →
      G.rules[j]? = some r' → G.cfg.Derives (r.output.drop (k + 1)) ([] : List (Symbol T N)) → Lalr A eof q j 0 a
  | advance {q q' : Q} {i k : Nat} {r : ContextFreeRule T N} {X : Symbol T N} {a : T} :
      Lalr A eof q i k a → G.rules[i]? = some r → r.output[k]? = some X → A.goto q X q' →
      Lalr A eof q' i (k + 1) a

end

end Dbsql.Core.ShiftReduce
