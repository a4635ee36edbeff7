import Dbsql.Core.Lts
import Dbsql.L3Vdbe.Value
import Mathlib.Algebra.Order.Group.Multiset
/-!
# Lists of rowids (vdbe.c:3860-3963, vdbe_method.c:1006-1015)

A list is a chain of blocks of up to 1000 keys. `OP_ListWrite` writes into the first block, and
into a new block in front of a full one; `OP_ListRead` reads the first block from its oldest unread
key on and frees it with the last. `OP_ListPush` saves the list and `OP_ListPop` restores it.

A `Ledger` is the account of a list: what has been written to it and read from it since the last
reset. It is no part of the code; `Ledgers.record` keeps it beside a run.

Results:
* `Run.balanced`: what is left unread is what has been written and not been read.
* `keyList_exact`: `OP_ListRead` jumps when exactly what was written has been read, and a nested
  list leaves no trace.
-/
namespace Dbsql.L3
open Dbsql.Core Dbsql.L1

namespace KeyList

/-! ## The code -/

/-- `keylist_t`: the `nUsed` keys of `aKey`, of the `nKey` = 1000 it has room for. -/
structure Block where
  aKey : List CInt
  nRead : Nat
  deriving DecidableEq, Repr

/-- `p->pList` and `p->keylistStack`, the list saved last first. -/
structure KeyLists where
  pList : List Block
  keylistStack : List (List Block)
  deriving DecidableEq, Repr

/-- The opcodes; `OP_ListWrite` with the top of the stack. -/
inductive ListOp
  | write (tos : Val)
  | rewind
  | read
  | reset
  | push
  | pop
  deriving DecidableEq, Repr

/-- The next opcode runs; also it finds a key on the stack; or the program jumps to P2. -/
inductive ListOut
  | next
  | key (i : CInt)
  | jump
  deriving DecidableEq, Repr

/-- `OP_ListWrite` (vdbe.c:3860-3881) of an integer. -/
def listWrite (i : CInt) : List Block → List Block
  | [] => [⟨[i], 0⟩]
  | b :: bs => if 1000 ≤ b.aKey.length then ⟨[i], 0⟩ :: b :: bs else ⟨b.aKey ++ [i], b.nRead⟩ :: bs

/-- `OP_ListRead` (vdbe.c:3898-3917); it asserts that the block has an unread key, in its room. -/
def listRead : List Block → Option (List Block × ListOut)
  | [] => some ([], .jump)
  | b :: bs =>
    if b.nRead < 1000 then
      match b.aKey[b.nRead]? with
      | none => none
      | some i =>
        if b.aKey.length ≤ b.nRead + 1 then some (bs, .key i)
        else some (⟨b.aKey, b.nRead + 1⟩ :: bs, .key i)
    else none

section
variable {L : Type} (ar : Arith L)

/-- One opcode. `OP_ListWrite` asserts that the entry is `MEM_Int` alone, and `OP_ListPop` that a list
has been saved. The blocks that `__vdbe_keylist_free` walks are gone. -/
def listStep (s : KeyLists) : ListOp → Option (KeyLists × ListOut)
  | .write tos =>
    if tos.spelled then none else some (⟨listWrite (tos.toInt ar) s.pList, s.keylistStack⟩, .next)
  | .rewind => some (s, .next)
  | .read => (listRead s.pList).map fun (pList, out) => (⟨pList, s.keylistStack⟩, out)
  | .reset => some (⟨[], s.keylistStack⟩, .next)
  | .push => some (⟨[], s.pList :: s.keylistStack⟩, .next)
  | .pop =>
    match s.keylistStack with
    | [] => none
    | pList :: keylistStack => some (⟨pList, keylistStack⟩, .next)

/-- Programs that begin without a list. -/
def machine : LTS KeyLists (ListOp × ListOut) where
  init s := s = ⟨[], []⟩
  step s l s' := listStep ar s l.1 = some (s', l.2)

end

/-! ## The account -/

/-- What has been written to a list and read from it since the last reset. -/
structure Ledger where
  written : Multiset CInt
  read : Multiset CInt

/-- The accounts of the list and of the lists saved. -/
structure Ledgers where
  cur : Ledger
  saved : List Ledger

def Ledgers.empty : Ledgers := ⟨⟨0, 0⟩, []⟩

section
variable {L : Type} (ar : Arith L)

/-- One opcode and what came of it. -/
def Ledgers.record (l : Ledgers) : ListOp × ListOut → Ledgers
  | (.write tos, _) => { l with cur := ⟨l.cur.written + {tos.toInt ar}, l.cur.read⟩ }
  | (.read, .key i) => { l with cur := ⟨l.cur.written, l.cur.read + {i}⟩ }
  | (.read, _) => l
  | (.rewind, _) => l
  | (.reset, _) => { l with cur := ⟨0, 0⟩ }
  | (.push, _) => ⟨⟨0, 0⟩, l.cur :: l.saved⟩
  | (.pop, _) => ⟨l.saved.headD ⟨0, 0⟩, l.saved.tail⟩

/-- The accounts at the end of a run. -/
def account (ls : List (ListOp × ListOut)) : Ledgers := ls.foldl (Ledgers.record ar) .empty

end

/-- The keys of a block that have not been read. -/
def Block.unread (b : Block) : List CInt := b.aKey.drop b.nRead

/-- A block has room for its keys, and one of them is unread. -/
structure Block.Ok (b : Block) : Prop where
  room : b.aKey.length ≤ 1000
  left : b.nRead < b.aKey.length

/-- What is in the blocks of a list is what its account has not seen read. -/
structure Balanced (bs : List Block) (l : Ledger) : Prop where
  ok : ∀ b ∈ bs, b.Ok
  unread : l.read + ((bs.flatMap Block.unread : List CInt) : Multiset CInt) = l.written

theorem Balanced.empty : Balanced [] ⟨0, 0⟩ := ⟨by simp, by simp⟩

theorem Balanced.write {bs : List Block} {l : Ledger} (h : Balanced bs l) (i : CInt) :
    Balanced (listWrite i bs) ⟨l.written + {i}, l.read⟩ := by
  have hnew : Block.Ok ⟨[i], 0⟩ := ⟨by simp, by simp⟩
  cases bs with
  | nil =>
    refine ⟨List.forall_mem_singleton.2 hnew, ?_⟩
    have := h.unread
    simp only [List.flatMap_nil, Multiset.coe_nil, add_zero] at this
    simp [listWrite, Block.unread, this]
  | cons b bs =>
    obtain ⟨hb, hbs⟩ := List.forall_mem_cons.1 h.ok
    have hun := h.unread
    simp only [List.flatMap_cons, ← Multiset.coe_add] at hun
    rw [listWrite]
    split
    · refine ⟨List.forall_mem_cons.2 ⟨hnew, h.ok⟩, ?_⟩
      simp only [List.flatMap_cons, ← Multiset.coe_add, ← hun]
      have : ((Block.unread ⟨[i], 0⟩ : List CInt) : Multiset CInt) = {i} := rfl
      rw [this]
      abel
    · have hle := hb.left
      refine ⟨List.forall_mem_cons.2 ⟨⟨?_, ?_⟩, hbs⟩, ?_⟩
      · rw [List.length_append, List.length_singleton]
        omega
      · rw [List.length_append, List.length_singleton]
        exact Nat.lt_succ_of_lt hle
      · have : Block.unread ⟨b.aKey ++ [i], b.nRead⟩ = b.unread ++ [i] :=
          List.drop_append_of_le_length hle.le
        simp only [List.flatMap_cons, this, ← Multiset.coe_add, ← hun, Multiset.coe_singleton]
        abel

/-- What `OP_ListRead` does to a list in balance. -/
inductive Reads (bs : List Block) (l : Ledger) : List Block → ListOut → Prop
  | jump (h : l.read = l.written) : Reads bs l bs .jump
  | key (i : CInt) (bs' : List Block) (h : Balanced bs' ⟨l.written, l.read + {i}⟩) :
    Reads bs l bs' (.key i)

theorem Balanced.read {bs : List Block} {l : Ledger} (h : Balanced bs l) :
    ∃ bs' out, listRead bs = some (bs', out) ∧ Reads bs l bs' out := by
  cases bs with
  | nil =>
    refine ⟨[], .jump, rfl, .jump ?_⟩
    simpa using h.unread
  | cons b bs =>
    obtain ⟨hb, hbs⟩ := List.forall_mem_cons.1 h.ok
    have hroom := hb.room
    have hleft := hb.left
    have hun := h.unread
    have hdrop : b.unread = b.aKey[b.nRead] :: b.aKey.drop (b.nRead + 1) :=
      List.drop_eq_getElem_cons hleft
    simp only [List.flatMap_cons, ← Multiset.coe_add, hdrop, ← Multiset.cons_coe] at hun
    rw [listRead, if_pos (by omega), List.getElem?_eq_getElem hleft]
    dsimp only
    split
    · refine ⟨bs, _, rfl, .key _ _ ⟨hbs, ?_⟩⟩
      have hnil : b.aKey.drop (b.nRead + 1) = [] := List.drop_eq_nil_of_le (by omega)
      rw [hnil] at hun
      rw [← hun, ← Multiset.singleton_add]
      simp [add_assoc]
    · refine ⟨_, _, rfl, .key _ _ ⟨List.forall_mem_cons.2 ⟨⟨hroom, by simpa using by omega⟩, hbs⟩, ?_⟩⟩
      rw [← hun, ← Multiset.singleton_add]
      simp only [List.flatMap_cons, ← Multiset.coe_add, Block.unread]
      abel

/-! ## Runs -/

/-- The list and the lists saved are in balance with their accounts. -/
structure AllBalanced (s : KeyLists) (l : Ledgers) : Prop where
  cur : Balanced s.pList l.cur
  saved : List.Forall₂ Balanced s.keylistStack l.saved

section
variable {L : Type} {ar : Arith L}

theorem AllBalanced.step {s s' : KeyLists} {l : Ledgers} {e : ListOp × ListOut} (h : AllBalanced s l)
    (hstep : (machine ar).step s e s') : AllBalanced s' (l.record ar e) := by
  obtain ⟨op, out⟩ := e
  have hstep : listStep ar s op = some (s', out) := hstep
  cases op with
  | write tos =>
    rw [listStep] at hstep
    split at hstep
    · cases hstep
    · cases hstep
      exact ⟨h.cur.write _, h.saved⟩
  | rewind =>
    cases hstep
    exact h
  | read =>
    obtain ⟨bs, out', hread, hreads⟩ := h.cur.read
    rw [listStep, hread] at hstep
    cases hstep
    cases hreads with
    | jump => exact h
    | key i _ hbs => exact ⟨hbs, h.saved⟩
  | reset =>
    cases hstep
    exact ⟨.empty, h.saved⟩
  | push =>
    cases hstep
    exact ⟨.empty, .cons h.cur h.saved⟩
  | pop =>
    rw [listStep] at hstep
    have hsaved := h.saved
    split at hstep
    · cases hstep
    · rename_i pList keylistStack hstack
      cases hstep
      rw [hstack] at hsaved
      unfold Ledgers.record
      cases hl : l.saved with
      | nil =>
        rw [hl] at hsaved
        cases hsaved
      | cons c saved =>
        rw [hl] at hsaved
        cases hsaved with
        | cons hc hs => exact ⟨hc, hs⟩

/-- **In every run what is unread is what has been written and not been read.** -/
theorem Run.balanced {s s' : KeyLists} {ls : List (ListOp × ListOut)} (hrun : (machine ar).Run s ls s') :
    ∀ l : Ledgers, AllBalanced s l → AllBalanced s' (ls.foldl (Ledgers.record ar) l) := by
  induction hrun with
  | nil => exact fun _ h => h
  | cons hstep _ ih => exact fun l h => ih _ (h.step hstep)

/-- How deep the lists saved are that the run has saved itself; it takes none that were there. -/
def depth : Nat → List (ListOp × ListOut) → Option Nat
  | d, [] => some d
  | d, (.push, _) :: ls => depth (d + 1) ls
  | 0, (.pop, _) :: _ => none
  | d + 1, (.pop, _) :: ls => depth d ls
  | d, _ :: ls => depth d ls

theorem depth_stack {s s' : KeyLists} {ls : List (ListOp × ListOut)} (hrun : (machine ar).Run s ls s') :
    ∀ {own saved : List (List Block)} {d : Nat}, s.keylistStack = own ++ saved →
      depth own.length ls = some d → ∃ own', own'.length = d ∧ s'.keylistStack = own' ++ saved := by
  induction hrun with
  | nil s =>
    intro own saved d hs hd
    cases hd
    exact ⟨own, rfl, hs⟩
  | @cons s s' s'' e ls hstep _ ih =>
    intro own saved d hs hd
    obtain ⟨op, out⟩ := e
    have hstep : listStep ar s op = some (s', out) := hstep
    cases op with
    | write tos =>
      rw [listStep] at hstep
      split at hstep
      · cases hstep
      · cases hstep
        exact ih hs hd
    | rewind =>
      cases hstep
      exact ih hs hd
    | read =>
      rw [listStep, Option.map_eq_some_iff] at hstep
      obtain ⟨p, -, hp⟩ := hstep
      cases hp
      exact ih hs hd
    | reset =>
      cases hstep
      exact ih hs hd
    | push =>
      cases hstep
      exact @ih (s.pList :: own) saved d (congrArg (s.pList :: ·) hs) hd
    | pop =>
      rw [listStep] at hstep
      cases own with
      | nil => cases hd
      | cons pList own =>
        rw [hs] at hstep
        cases hstep
        exact ih rfl hd

/-- A program that saves the list, runs and restores it has it again. -/
theorem nested_restores {s s' : KeyLists} {inner : List (ListOp × ListOut)}
    (hd : depth 0 inner = some 0) (out out' : ListOut)
    (hrun : (machine ar).Run s ((.push, out) :: (inner ++ [(.pop, out')])) s') : s' = s := by
  obtain _ | ⟨hpush, hrun⟩ := hrun
  cases hpush
  obtain ⟨s₂, hinner, hpop⟩ := hrun.split
  obtain ⟨own, hown, hstack⟩ := @depth_stack L ar _ _ _ hinner [] _ _ rfl hd
  rw [List.length_eq_zero_iff.1 hown, List.nil_append] at hstack
  obtain _ | ⟨hpop, hend⟩ := hpop
  cases hend
  have hpop : listStep ar s₂ .pop = some (s', out') := hpop
  rw [listStep, hstack] at hpop
  cases hpop
  rfl

/-- **The rowids read are those written.** In every run from no list, whatever the opcodes and
their order: what has been read is among what was written; `OP_ListRead` finds a key that is still
to be read, and jumps to P2 exactly when all that was written has been read; an opcode fails only by
an assertion on what it is given, never on the blocks; and a list saved and restored is the same. -/
theorem keyList_exact {s : KeyLists} {ls : List (ListOp × ListOut)}
    (hrun : (machine ar).Run ⟨[], []⟩ ls s) :
    let l := (account ar ls).cur
    l.read ≤ l.written ∧
      (∃ s' out, listStep ar s .read = some (s', out) ∧ (out = .jump ↔ l.read = l.written) ∧
        ∀ i, out = .key i → l.read + {i} ≤ l.written) ∧
      (∀ op, listStep ar s op = none ↔
        (∃ i z, op = .write (.int i (some z))) ∨ op = .pop ∧ s.keylistStack = []) ∧
      ∀ inner out out' s', depth 0 inner = some 0 →
        (machine ar).Run s ((.push, out) :: (inner ++ [(.pop, out')])) s' → s' = s := by
  have hbal : AllBalanced s (account ar ls) := Run.balanced hrun .empty ⟨.empty, .nil⟩
  obtain ⟨bs, out, hread, hreads⟩ := hbal.cur.read
  have hle : (account ar ls).cur.read ≤ (account ar ls).cur.written :=
    hbal.cur.unread ▸ Multiset.le_add_right _ _
  refine ⟨hle, ⟨⟨bs, s.keylistStack⟩, out, by rw [listStep, hread]; rfl, ?_, ?_⟩, ?_, ?_⟩
  · cases hreads with
    | jump h => exact iff_of_true rfl h
    | key i _ h =>
      refine iff_of_false (by simp) fun heq => ?_
      have hcard := congrArg Multiset.card h.unread
      simp only [Multiset.card_add, Multiset.card_singleton, heq] at hcard
      omega
  · rintro i rfl
    cases hreads with
    | key i _ h => exact h.unread ▸ Multiset.le_add_right _ _
  · intro op
    cases op with
    | write tos =>
      rw [listStep]
      cases tos with
      | null | real | str => simp [Val.spelled]
      | int i z => cases z <;> simp [Val.spelled]
    | rewind | reset | push => simp [listStep]
    | read => simp [listStep, hread]
    | pop =>
      rw [listStep]
      cases s.keylistStack <;> simp
  · exact fun inner out out' s' hd h => nested_restores hd out out' h

/-- Two rowids written, a list saved, used and restored, and one of the two read. -/
theorem keyList_exact_nested :
    let s : KeyLists := ⟨[⟨[7, 8], 1⟩], []⟩
    let ls : List (ListOp × ListOut) := [(.write (.int 7 none), .next), (.write (.int 8 none), .next),
      (.push, .next), (.write (.int 9 none), .next), (.pop, .next), (.read, .key 7)]
    let l := (account exactMachine ls).cur
    l.read ≤ l.written ∧
      (∃ s' out, listStep exactMachine s .read = some (s', out) ∧ (out = .jump ↔ l.read = l.written) ∧
        ∀ i, out = .key i → l.read + {i} ≤ l.written) ∧
      (∀ op, listStep exactMachine s op = none ↔
        (∃ i z, op = .write (.int i (some z))) ∨ op = .pop ∧ s.keylistStack = []) ∧
      ∀ inner out out' s', depth 0 inner = some 0 →
        (machine exactMachine).Run s ((.push, out) :: (inner ++ [(.pop, out')])) s' → s' = s :=
  keyList_exact (.cons rfl (.cons rfl (.cons rfl (.cons rfl (.cons rfl (.cons rfl (.nil _)))))))

end

end KeyList
end Dbsql.L3
