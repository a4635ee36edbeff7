import Dbsql.Core.Labels
import Dbsql.Core.Lts
import Mathlib.Algebra.Order.Ring.Int
import Mathlib.Data.List.Induction
/-!
# Programs under construction (vdbe_method.c:47-268)

`aOp` has `nOpAlloc` slots of which `nOp` are used, `aLabel` has `nLabelAlloc`. A label is a negative
number; an instruction that names one keeps it in P2 until the label is resolved. The jumps of a list of
instructions are relative, and P2 of one is the jump as the negative number that `ADDR` makes of it.

Memory can run out. `__vdbe_add_op` has then counted the instruction that it does not store, and
`__vdbe_make_label` has freed the labels and goes on to use them. `none` is a step outside of an array
or a failed assertion.

A `Source` is what the callers asked for: the instructions with their labels, and the addresses that
the labels were resolved to. It is no part of the code; `Source.record` keeps it beside a run.

Results:
* `Coded.step`: the slots in use are the instructions asked for, with their labels translated.
* `labels_resolved`: what a run does where memory does not run out.
-/
namespace Dbsql.L5.Program
open Dbsql.Core Dbsql.Core.Labels

/-! ## The code -/

inductive P3Type
  | notused
  | dynamic
  | static
  | pointer
  deriving DecidableEq, Repr

/-- `vdbe_op_t` (vdbe.h:50-61); `p3` is an address. -/
structure VdbeOp where
  opcode : Nat
  p1 : Int
  p2 : Int
  p3 : Option Nat
  p3type : P3Type
  deriving DecidableEq, Repr

/-- A slot after `memset`. -/
def VdbeOp.zero : VdbeOp := ⟨0, 0, 0, none, .notused⟩

/-- What `aLabel` points to; a slot that has not been written to has no value. -/
inductive LabelMem
  | null
  | freed
  | slots (a : List (Option Int))
  deriving DecidableEq, Repr

/-- `vdbe_t`, the part that its construction uses. -/
structure Vdbe where
  nOp : Nat
  nOpAlloc : Nat
  aOp : Option (List VdbeOp)
  nLabel : Nat
  nLabelAlloc : Nat
  aLabel : LabelMem
  deriving DecidableEq, Repr

/-- `__vdbe_create` (vdbe_method.c:52-69). -/
def vdbeCreate : Vdbe := ⟨0, 0, none, 0, 0, .null⟩

/-- `aOp` made `n` slots long, the new ones zero; `al` says whether there is memory. There is none for
a number of slots that is not an int. -/
def Vdbe.reallocOps (vm : Vdbe) (al : Bool) (n : Nat) : Option Vdbe :=
  if al ∧ n < 2 ^ 31 then
    let slots := vm.aOp.getD []
    some { vm with nOpAlloc := n, aOp := some (slots ++ List.replicate (n - slots.length) .zero) }
  else none

/-- `aLabel[i]`. -/
def Vdbe.labelAt (vm : Vdbe) (i : Nat) : Option Int :=
  match vm.aLabel with
  | .slots a => (a[i]?).join
  | _ => none

/-- `aLabel[i] = v`. -/
def Vdbe.setLabel (vm : Vdbe) (i : Nat) (v : Int) : Option Vdbe :=
  match vm.aLabel with
  | .slots a => if i < a.length then some { vm with aLabel := .slots (a.set i (some v)) } else none
  | _ => none

/-- P2 of a new instruction: the address of a label that has one. -/
def Vdbe.address (vm : Vdbe) (p2 : Int) : Option Int :=
  if p2 < 0 ∧ -1 - p2 < vm.nLabel then
    (vm.labelAt (-1 - p2).toNat).map fun a => if 0 ≤ a then a else p2
  else some p2

/-- The assignments to `aOp[i]`. -/
def Vdbe.store (vm : Vdbe) (i opcode : Nat) (p1 p2 : Int) : Option Vdbe :=
  match vm.aOp, vm.address p2 with
  | some slots, some p2 =>
    if i < slots.length then some { vm with aOp := some (slots.set i ⟨opcode, p1, p2, none, .notused⟩) }
    else none
  | _, _ => none

/-- `__vdbe_add_op` (vdbe_method.c:103-140). -/
def vdbeAddOp (vm : Vdbe) (al : Bool) (opcode : Nat) (p1 p2 : Int) : Option (Vdbe × Nat) :=
  let i := vm.nOp
  let vm := { vm with nOp := vm.nOp + 1 }
  if vm.nOpAlloc ≤ i then
    match vm.reallocOps al (vm.nOpAlloc * 2 + 100) with
    | none => some (vm, 0)
    | some vm => (vm.store i opcode p1 p2).map (·, i)
  else (vm.store i opcode p1 p2).map (·, i)

/-- `aLabel` made `nLabelAlloc` slots long, or freed where there is no memory. -/
def Vdbe.reallocLabels (vm : Vdbe) (al : Bool) : LabelMem :=
  match vm.aLabel with
  | .null => if al ∧ vm.nLabelAlloc < 2 ^ 31 then .slots (List.replicate vm.nLabelAlloc none) else .null
  | .freed => .freed
  | .slots a =>
    if al ∧ vm.nLabelAlloc < 2 ^ 31 then .slots (a ++ List.replicate (vm.nLabelAlloc - a.length) none)
    else .freed

/-- `__vdbe_make_label` (vdbe_method.c:157-180). -/
def vdbeMakeLabel (vm : Vdbe) (al : Bool) : Option (Vdbe × Int) :=
  let i := vm.nLabel
  let vm := { vm with nLabel := vm.nLabel + 1 }
  let vm : Vdbe :=
    if vm.nLabelAlloc ≤ i then
      let vm := { vm with nLabelAlloc := vm.nLabelAlloc * 2 + 10 }
      { vm with aLabel := vm.reallocLabels al }
    else vm
  if vm.aLabel = .null then some ({ vm with nLabel := 0, nLabelAlloc := 0 }, 0)
  else (vm.setLabel i (-1)).map (·, -1 - i)

/-- The body of the loop over the instructions: P2 of one that names `x` becomes `a`. -/
def VdbeOp.patch (x : Int) (a : Nat) (o : VdbeOp) : VdbeOp := { o with p2 := Labels.patch x a o.p2 }

/-- The loop of `__vdbe_resolve_label` (vdbe_method.c:201-204). -/
def Vdbe.patchOps (vm : Vdbe) (x : Int) : Option Vdbe :=
  match vm.aOp with
  | none => none
  | some slots =>
    if vm.nOp ≤ slots.length then
      some { vm with aOp := some ((slots.take vm.nOp).map (VdbeOp.patch x vm.nOp) ++ slots.drop vm.nOp) }
    else none

/-- `__vdbe_resolve_label` (vdbe_method.c:190-206). -/
def vdbeResolveLabel (vm : Vdbe) (x : Int) : Option Vdbe :=
  if x < 0 ∧ -x ≤ vm.nLabel ∧ vm.aOp ≠ none then
    match vm.labelAt (-1 - x).toNat with
    | none => none
    | some l =>
      if l = vm.nOp then some vm
      else if l < 0 then (vm.setLabel (-1 - x).toNat vm.nOp).bind fun vm => vm.patchOps x
      else none
  else some vm

/-- `ADDR` (vdbe.h:77). -/
def adr (x : Int) : Int := -1 - x

/-- An instruction of a list as it is stored by `__vdbe_add_op_list`, the list at `addr`. -/
def VdbeOp.relocate (addr : Nat) (o : VdbeOp) : VdbeOp :=
  { o with
    p2 := if o.p2 < 0 then addr + adr o.p2 else o.p2
    p3type := if o.p3 = none then .notused else .static }

/-- The loop of `__vdbe_add_op_list` (vdbe_method.c:253-265); a jump is to be an int. -/
def Vdbe.storeList (vm : Vdbe) (ops : List VdbeOp) : Option Vdbe :=
  match vm.aOp with
  | none => if ops = [] then some vm else none
  | some slots =>
    if vm.nOp + ops.length ≤ slots.length ∧ ∀ o ∈ ops, (o.relocate vm.nOp).p2 < 2 ^ 31 then
      some { vm with
        nOp := vm.nOp + ops.length
        aOp := some (slots.take vm.nOp ++ ops.map (VdbeOp.relocate vm.nOp) ++
          slots.drop (vm.nOp + ops.length)) }
    else none

/-- `__vdbe_add_op_list` (vdbe_method.c:229-268). -/
def vdbeAddOpList (vm : Vdbe) (al : Bool) (ops : List VdbeOp) : Option (Vdbe × Nat) :=
  if vm.nOpAlloc ≤ vm.nOp + ops.length then
    match vm.reallocOps al (vm.nOpAlloc * 2 + ops.length + 10) with
    | none => some (vm, 0)
    | some vm => (vm.storeList ops).map (·, vm.nOp)
  else (vm.storeList ops).map (·, vm.nOp)

/-! ## Runs -/

/-- The calls of a code generator, with whether there is memory if one asks for it. -/
inductive Call
  | addOp (al : Bool) (opcode : Nat) (p1 p2 : Int)
  | makeLabel (al : Bool)
  | resolveLabel (x : Int)
  | addOpList (al : Bool) (ops : List VdbeOp)

def call (vm : Vdbe) : Call → Option Vdbe
  | .addOp al opcode p1 p2 => (vdbeAddOp vm al opcode p1 p2).map (·.1)
  | .makeLabel al => (vdbeMakeLabel vm al).map (·.1)
  | .resolveLabel x => vdbeResolveLabel vm x
  | .addOpList al ops => (vdbeAddOpList vm al ops).map (·.1)

/-- The calls from `__vdbe_create` on. -/
def machine : LTS Vdbe Call where
  init vm := vm = vdbeCreate
  step vm c vm' := call vm c = some vm'

/-! ## What the callers asked for -/

/-- The instructions with their labels, and the addresses of the labels made. -/
structure Source where
  ops : List VdbeOp
  addr : Addrs
  deriving DecidableEq, Repr

def Source.empty : Source := ⟨[], []⟩

/-- A call. A label is resolved to the address of the next instruction. -/
def Source.record (s : Source) : Call → Source
  | .addOp _ opcode p1 p2 => { s with ops := s.ops ++ [⟨opcode, p1, p2, none, .notused⟩] }
  | .makeLabel _ => { s with addr := s.addr ++ [none] }
  | .resolveLabel x => { s with addr := s.addr.set (num x) (some s.ops.length) }
  | .addOpList _ ops => { s with ops := s.ops ++ ops.map (VdbeOp.relocate s.ops.length) }

/-- What the calls of a run asked for. -/
def account (cs : List Call) : Source := cs.foldl Source.record .empty

/-- An instruction with its label translated. -/
def VdbeOp.resolve (addr : Addrs) (o : VdbeOp) : VdbeOp := { o with p2 := look addr o.p2 }

/-- What stands in the slots in use if all labels resolved are translated. -/
def Source.program (s : Source) : List VdbeOp := s.ops.map (VdbeOp.resolve s.addr)

/-- A label is one that has been made and has no address, and there is an instruction. -/
def Source.Resolvable (s : Source) (x : Int) : Prop :=
  x < 0 ∧ s.addr[num x]? = some none ∧ s.ops ≠ []

/-- The call is one that the claims of the callers cover: each label is resolved at most once, behind an
instruction, and the jumps of a list stay in the range of an int. -/
def Source.Allowed (s : Source) : Call → Prop
  | .addOp .. => True
  | .makeLabel _ => True
  | .resolveLabel x => s.Resolvable x
  | .addOpList _ ops => ∀ o ∈ ops, (o.relocate s.ops.length).p2 < 2 ^ 31

/-- The arrays do not grow, or there is memory for them. -/
def Vdbe.HasMemory (vm : Vdbe) : Call → Prop
  | .addOp al .. => vm.nOpAlloc ≤ vm.nOp → al = true ∧ vm.nOpAlloc * 2 + 100 < 2 ^ 31
  | .makeLabel al => vm.nLabelAlloc ≤ vm.nLabel → al = true ∧ vm.nLabelAlloc * 2 + 10 < 2 ^ 31
  | .resolveLabel _ => True
  | .addOpList al ops => vm.nOpAlloc ≤ vm.nOp + ops.length →
      al = true ∧ vm.nOpAlloc * 2 + ops.length + 10 < 2 ^ 31

/-! ## The slots in use -/

/-- What `aLabel` has for a label. -/
def entry : Option Nat → Option Int
  | none => some (-1)
  | some a => some a

/-- The slots of `aLabel`. -/
def LabelMem.list : LabelMem → List (Option Int)
  | .slots a => a
  | _ => []

/-- What the slots of `aOp` and `aLabel` have, whatever the counts are. -/
structure Slots (vm : Vdbe) (s : Source) : Prop where
  ops : ∃ rest, vm.aOp.getD [] = s.program ++ rest ∧ (s.program ++ rest).length = vm.nOpAlloc
  live : vm.aLabel ≠ .freed
  labels : ∃ rest, vm.aLabel.list = s.addr.map entry ++ rest ∧
    (s.addr.map entry ++ rest).length = vm.nLabelAlloc

/-- The slots in use are what the callers asked for. -/
structure Coded (vm : Vdbe) (s : Source) : Prop extends Slots vm s where
  nOp : vm.nOp = s.ops.length
  nLabel : vm.nLabel = s.addr.length

@[simp] theorem length_program (s : Source) : s.program.length = s.ops.length := by
  simp [Source.program]

theorem coded_create : Coded vdbeCreate .empty :=
  ⟨⟨⟨[], rfl, rfl⟩, by simp [vdbeCreate], ⟨[], rfl, rfl⟩⟩, rfl, rfl⟩

theorem labelAt_list (vm : Vdbe) (i : Nat) : vm.labelAt i = (vm.aLabel.list[i]?).join := by
  unfold Vdbe.labelAt LabelMem.list
  split <;> simp_all

/-- The label of number `i` is in its slot. -/
theorem Slots.labelAt {vm : Vdbe} {s : Source} (h : Slots vm s) {i : Nat} {a : Option Nat}
    (hi : s.addr[i]? = some a) : vm.labelAt i = entry a := by
  obtain ⟨rest, hl, -⟩ := h.labels
  have hlt : i < (s.addr.map entry).length := by
    rw [List.length_map]
    exact (List.getElem?_eq_some_iff.1 hi).1
  rw [labelAt_list, hl, List.getElem?_append_left hlt, List.getElem?_map, hi]
  rfl

/-- P2 of a new instruction is translated by the labels resolved so far. -/
theorem Slots.address {vm : Vdbe} {s : Source} (h : Slots vm s) (hn : vm.nLabel = s.addr.length)
    (p2 : Int) : vm.address p2 = some (look s.addr p2) := by
  unfold Vdbe.address
  split
  · rename_i hp
    have hlt : num p2 < s.addr.length := by
      unfold num
      omega
    obtain ⟨a, ha⟩ : ∃ a, s.addr[num p2]? = some a := ⟨_, List.getElem?_eq_getElem hlt⟩
    change (vm.labelAt (num p2)).map _ = _
    rw [h.labelAt ha]
    cases a with
    | none =>
      rw [look_of_none (by simp [ha])]
      rfl
    | some a =>
      rw [look_of_some hp.1 ha]
      simp [entry]
  · rename_i hp
    by_cases hneg : p2 < 0
    · rw [look_of_none fun a ha => ?_]
      have := (List.getElem?_eq_some_iff.1 ha).1
      unfold num at this
      omega
    · rw [look_of_nonneg (by omega)]

theorem Slots.aOp_eq {vm : Vdbe} {s : Source} (h : Slots vm s) (hpos : 0 < vm.nOpAlloc) :
    ∃ rest, vm.aOp = some (s.program ++ rest) ∧ (s.program ++ rest).length = vm.nOpAlloc := by
  obtain ⟨rest, hops, hlen⟩ := h.ops
  refine ⟨rest, ?_, hlen⟩
  cases ha : vm.aOp with
  | none =>
    rw [ha, Option.getD_none] at hops
    rw [← hops] at hlen
    exact absurd hlen.symm (Nat.ne_of_gt hpos)
  | some slots =>
    rw [ha, Option.getD_some] at hops
    rw [hops]

/-! ## Steps -/

/-- The slots of `aOp` after it has grown. -/
theorem Slots.reallocOps {vm : Vdbe} {s : Source} (h : Slots vm s) {n : Nat} (hn : vm.nOpAlloc ≤ n)
    (hlt : n < 2 ^ 31) : ∃ vm', vm.reallocOps true n = some vm' ∧ Slots vm' s ∧ vm'.nOpAlloc = n ∧
      vm'.nOp = vm.nOp ∧ vm'.nLabel = vm.nLabel := by
  obtain ⟨rest, hops, hlen⟩ := h.ops
  refine ⟨_, if_pos ⟨rfl, hlt⟩, ⟨?_, h.live, h.labels⟩, rfl, rfl, rfl⟩
  refine ⟨rest ++ List.replicate (n - (s.program ++ rest).length) .zero, ?_, ?_⟩
  · simp [hops]
  · rw [← List.append_assoc, List.length_append, List.length_replicate, hlen]
    dsimp only
    omega

/-- An instruction is put behind those in use, P2 translated. -/
theorem Slots.store {vm : Vdbe} {s : Source} (h : Slots vm s) (hroom : s.ops.length < vm.nOpAlloc)
    (hop : vm.nOp = s.ops.length + 1) (hlab : vm.nLabel = s.addr.length) (opcode : Nat) (p1 p2 : Int)
    (al : Bool) :
    ∃ vm', vm.store s.ops.length opcode p1 p2 = some vm' ∧
      Coded vm' (s.record (.addOp al opcode p1 p2)) := by
  obtain ⟨rest, hops, hlen⟩ := h.aOp_eq (by omega)
  rw [List.length_append, length_program] at hlen
  have hset : (s.program ++ rest).set s.ops.length ⟨opcode, p1, look s.addr p2, none, .notused⟩ =
      (s.record (.addOp al opcode p1 p2)).program ++ rest.tail := by
    obtain _ | ⟨o, rest⟩ := rest
    · rw [List.length_nil] at hlen
      omega
    · rw [List.set_append_right _ _ (by simp), length_program, Nat.sub_self]
      simp [Source.record, Source.program, VdbeOp.resolve]
  refine ⟨{ vm with aOp := some ((s.record (.addOp al opcode p1 p2)).program ++ rest.tail) }, ?_,
    ⟨⟨rest.tail, rfl, ?_⟩, h.live, h.labels⟩, by simp [Source.record, hop], hlab⟩
  · rw [Vdbe.store, hops, h.address hlab]
    dsimp only
    rw [if_pos (by simp; omega), hset]
  · rw [List.length_append, length_program, List.length_tail]
    simp only [Source.record, List.length_append, List.length_singleton]
    omega

theorem Coded.addOp {vm : Vdbe} {s : Source} (h : Coded vm s) {al : Bool} {opcode : Nat} {p1 p2 : Int}
    (hm : vm.HasMemory (.addOp al opcode p1 p2)) :
    ∃ vm', vdbeAddOp vm al opcode p1 p2 = some (vm', vm.nOp) ∧
      Coded vm' (s.record (.addOp al opcode p1 p2)) := by
  have hslots : Slots { vm with nOp := vm.nOp + 1 } s := ⟨h.ops, h.live, h.labels⟩
  have hop := h.nOp
  unfold vdbeAddOp
  dsimp only
  split
  · rename_i hgrow
    obtain ⟨rfl, hlt⟩ := hm hgrow
    obtain ⟨vm₁, hre, h₁, hn, hop₁, hlab₁⟩ := hslots.reallocOps (n := vm.nOpAlloc * 2 + 100) (by dsimp only; omega) hlt
    obtain ⟨rest, -, hlen⟩ := h.ops
    rw [List.length_append, length_program] at hlen
    obtain ⟨vm', hst, h'⟩ := h₁.store (by omega) (by rw [hop₁, hop]) (hlab₁.trans h.nLabel) opcode p1 p2 true
    rw [hre]
    dsimp only
    rw [hop, hst]
    exact ⟨vm', rfl, h'⟩
  · rename_i hgrow
    obtain ⟨vm', hst, h'⟩ := hslots.store (by dsimp only; omega) (by dsimp only; omega) h.nLabel opcode
      p1 p2 al
    rw [hop] at hst ⊢
    rw [hst]
    exact ⟨vm', rfl, h'⟩

theorem reallocLabels_eq {vm : Vdbe} (hlive : vm.aLabel ≠ .freed) (hlt : vm.nLabelAlloc < 2 ^ 31) :
    vm.reallocLabels true =
      .slots (vm.aLabel.list ++ List.replicate (vm.nLabelAlloc - vm.aLabel.list.length) none) := by
  unfold Vdbe.reallocLabels LabelMem.list
  split <;> simp_all

/-- The slots of `aLabel` after it has grown. -/
theorem Slots.growLabels {vm : Vdbe} {s : Source} (h : Slots vm s) {n : Nat} (hn : vm.nLabelAlloc ≤ n)
    (hlt : n < 2 ^ 31) : Slots { vm with
      nLabelAlloc := n, aLabel := Vdbe.reallocLabels { vm with nLabelAlloc := n } true } s := by
  obtain ⟨rest, hl, hlen⟩ := h.labels
  have he := @reallocLabels_eq { vm with nLabelAlloc := n } h.live hlt
  refine ⟨h.ops, ?_, rest ++ List.replicate (n - vm.aLabel.list.length) none, ?_, ?_⟩
  · dsimp only
    rw [he]
    exact fun h => LabelMem.noConfusion h
  · dsimp only
    rw [he, LabelMem.list.eq_def]
    dsimp only
    rw [hl, List.append_assoc]
  · rw [hl, ← List.append_assoc, List.length_append, hlen, List.length_replicate]
    dsimp only
    omega

/-- The slots of `aLabel`, where there are any. -/
theorem Slots.aLabel_eq {vm : Vdbe} {s : Source} (h : Slots vm s) (hpos : 0 < vm.nLabelAlloc) :
    ∃ rest, vm.aLabel = .slots (s.addr.map entry ++ rest) ∧
      (s.addr.map entry ++ rest).length = vm.nLabelAlloc := by
  obtain ⟨rest, hl, hlen⟩ := h.labels
  refine ⟨rest, ?_, hlen⟩
  cases ha : vm.aLabel with
  | null =>
    rw [ha, LabelMem.list.eq_def] at hl
    rw [← hl] at hlen
    exact absurd hlen.symm (Nat.ne_of_gt hpos)
  | freed => exact absurd ha h.live
  | slots l =>
    rw [ha] at hl
    exact congrArg _ hl

theorem setLabel_eq {vm : Vdbe} {l : List (Option Int)} (ha : vm.aLabel = .slots l) {i : Nat}
    (hi : i < l.length) (v : Int) :
    vm.setLabel i v = some { vm with aLabel := .slots (l.set i (some v)) } := by
  unfold Vdbe.setLabel
  rw [ha]
  exact if_pos hi

/-- A new label is put behind those in use, without an address. -/
theorem Slots.putLabel {vm : Vdbe} {s : Source} (h : Slots vm s) (hroom : s.addr.length < vm.nLabelAlloc)
    (al : Bool) : vm.aLabel ≠ .null ∧ ∃ vm', vm.setLabel s.addr.length (-1) = some vm' ∧
      Slots vm' (s.record (.makeLabel al)) ∧ vm'.nOp = vm.nOp ∧ vm'.nLabel = vm.nLabel := by
  obtain ⟨rest, ha, hlen⟩ := h.aLabel_eq (by omega)
  obtain ⟨ops, hops, hlen'⟩ := h.ops
  have hprog : (s.record (.makeLabel al)).program = s.program := by
    simp [Source.record, Source.program, VdbeOp.resolve, look_fresh]
  rw [List.length_append, List.length_map] at hlen
  have hset : (s.addr.map entry ++ rest).set s.addr.length (some (-1)) =
      (s.record (.makeLabel al)).addr.map entry ++ rest.tail := by
    obtain _ | ⟨o, rest⟩ := rest
    · rw [List.length_nil] at hlen
      omega
    · rw [List.set_append_right _ _ (by simp), List.length_map, Nat.sub_self]
      simp [entry, Source.record]
  refine ⟨by rw [ha]; exact fun h => LabelMem.noConfusion h, _,
    setLabel_eq ha (by rw [List.length_append, List.length_map]; omega) _,
    ⟨⟨ops, by rw [hprog]; exact hops, by rw [hprog]; exact hlen'⟩, fun h => LabelMem.noConfusion h,
      rest.tail, hset, ?_⟩, rfl, rfl⟩
  rw [List.length_append, List.length_map, List.length_tail]
  simp only [Source.record, List.length_append, List.length_singleton]
  omega

theorem Coded.makeLabel {vm : Vdbe} {s : Source} (h : Coded vm s) {al : Bool}
    (hm : vm.HasMemory (.makeLabel al)) :
    ∃ vm', vdbeMakeLabel vm al = some (vm', label vm.nLabel) ∧ Coded vm' (s.record (.makeLabel al)) := by
  have hslots : Slots { vm with nLabel := vm.nLabel + 1 } s := ⟨h.ops, h.live, h.labels⟩
  have hn := h.nLabel
  have hlen : (s.record (.makeLabel al)).addr.length = s.addr.length + 1 := by simp [Source.record]
  unfold vdbeMakeLabel
  dsimp only
  split
  · rename_i hgrow
    obtain ⟨rfl, hlt⟩ := hm hgrow
    have h₁ := hslots.growLabels (n := vm.nLabelAlloc * 2 + 10) (by dsimp only; omega) hlt
    obtain ⟨rest, -, hlen'⟩ := h.labels
    rw [List.length_append, List.length_map] at hlen'
    obtain ⟨hne, vm', hset, h', hop, hlab⟩ := h₁.putLabel (by dsimp only; omega) true
    rw [if_neg hne, hn]
    rw [hn] at hset hop hlab
    rw [hset]
    exact ⟨vm', rfl, h', hop.trans h.nOp, by rw [hlab, hlen]⟩
  · rename_i hgrow
    obtain ⟨hne, vm', hset, h', hop, hlab⟩ := hslots.putLabel (by dsimp only; omega) al
    rw [if_neg hne, hn]
    rw [hn] at hset hop hlab
    rw [hset]
    exact ⟨vm', rfl, h', hop.trans h.nOp, by rw [hlab, hlen]⟩

/-- Resolving a label translates it in the instructions so far. -/
theorem Coded.resolveLabel {vm : Vdbe} {s : Source} (h : Coded vm s) {x : Int} (hx : s.Resolvable x) :
    ∃ vm', vdbeResolveLabel vm x = some vm' ∧ Coded vm' (s.record (.resolveLabel x)) := by
  obtain ⟨hneg, haddr, hne⟩ := hx
  have hlt : num x < s.addr.length := (List.getElem?_eq_some_iff.1 haddr).1
  have hop := h.nOp
  have hlab := h.nLabel
  have hpos : 0 < s.ops.length := List.length_pos_iff.2 hne
  obtain ⟨ops, hops, hlenops⟩ := h.aOp_eq (by
    obtain ⟨rest, -, hlen⟩ := h.ops
    rw [List.length_append, length_program] at hlen
    omega)
  obtain ⟨rest, hal, hlenl⟩ := h.aLabel_eq (by
    obtain ⟨rest, -, hlen⟩ := h.labels
    rw [List.length_append, List.length_map] at hlen
    omega)
  have hprog : s.program.map (VdbeOp.patch x vm.nOp) = (s.record (.resolveLabel x)).program := by
    simp only [Source.program, Source.record, List.map_map, hop]
    refine List.map_congr_left fun o _ => ?_
    simp only [Function.comp_apply, VdbeOp.patch, VdbeOp.resolve, look_resolve _ hneg haddr]
  have hset : (s.addr.map entry ++ rest).set (num x) (some (vm.nOp : Int)) =
      (s.record (.resolveLabel x)).addr.map entry ++ rest := by
    rw [List.set_append_left _ _ (by simpa using hlt)]
    simp [Source.record, List.map_set, entry, hop]
  unfold vdbeResolveLabel
  rw [if_pos ⟨hneg, by unfold num at hlt; omega, by rw [hops]; exact Option.some_ne_none _⟩]
  change ∃ vm', (match vm.labelAt (num x) with | none => none | some l => _) = some vm' ∧ _
  rw [h.labelAt haddr]
  simp only [entry]
  rw [if_neg (by omega), if_pos (by omega)]
  change ∃ vm', (vm.setLabel (num x) vm.nOp).bind _ = some vm' ∧ _
  rw [setLabel_eq hal (by rw [List.length_append, List.length_map]; omega), hset, Option.bind_some,
    Vdbe.patchOps]
  simp only [hops]
  rw [if_pos (by rw [List.length_append, length_program]; omega), List.take_append_of_le_length (by simp [hop]),
    List.drop_append_of_le_length (by simp [hop]), hop, ← length_program, List.take_length, List.drop_length,
    List.nil_append, length_program, ← hop, hprog]
  refine ⟨_, rfl, ⟨⟨ops, rfl, ?_⟩, fun h => LabelMem.noConfusion h, rest, rfl, ?_⟩, hop, ?_⟩
  · rw [← hlenops, List.length_append, List.length_append, length_program, length_program]
    rfl
  · rw [← hlenl, List.length_append, List.length_append, List.length_map, List.length_map]
    simp [Source.record]
  · simp [Source.record, hlab]

/-- A list is put behind the instructions in use, its jumps relocated. -/
theorem Slots.storeList {vm : Vdbe} {s : Source} (h : Slots vm s) {ops : List VdbeOp}
    (hroom : s.ops.length + ops.length < vm.nOpAlloc) (hop : vm.nOp = s.ops.length)
    (hlab : vm.nLabel = s.addr.length) (hjump : ∀ o ∈ ops, (o.relocate s.ops.length).p2 < 2 ^ 31) (al : Bool) :
    ∃ vm', vm.storeList ops = some vm' ∧ Coded vm' (s.record (.addOpList al ops)) := by
  obtain ⟨rest, hops, hlen⟩ := h.aOp_eq (by omega)
  rw [List.length_append, length_program] at hlen
  have hpos : ∀ o : VdbeOp, 0 ≤ (o.relocate s.ops.length).p2 := fun o => by
    simp only [VdbeOp.relocate, adr]
    split <;> omega
  have hprog : (s.record (.addOpList al ops)).program =
      s.program ++ ops.map (VdbeOp.relocate s.ops.length) := by
    have : ∀ o ∈ ops, (o.relocate s.ops.length).resolve s.addr = o.relocate s.ops.length := fun o _ => by
      unfold VdbeOp.resolve
      rw [look_of_nonneg (hpos o)]
    simp only [Source.record, Source.program, List.map_append, List.map_map]
    exact congrArg _ (List.map_congr_left this)
  refine ⟨{ vm with
      nOp := s.ops.length + ops.length
      aOp := some ((s.record (.addOpList al ops)).program ++ rest.drop ops.length) }, ?_,
    ⟨⟨rest.drop ops.length, rfl, ?_⟩, h.live, h.labels⟩, ?_, hlab⟩
  · unfold Vdbe.storeList
    rw [hops]
    dsimp only
    rw [hop, if_pos ⟨by rw [List.length_append, length_program]; omega, hjump⟩, hprog,
      List.take_append_of_le_length (by simp), List.drop_append, ← length_program, List.take_length,
      List.drop_of_length_le (by omega), Nat.add_sub_cancel_left, List.nil_append]
  · rw [hprog, List.length_append, List.length_append, List.length_drop, length_program, List.length_map]
    dsimp only
    omega
  · simp [Source.record]

theorem Coded.addOpList {vm : Vdbe} {s : Source} (h : Coded vm s) {al : Bool} {ops : List VdbeOp}
    (hjump : s.Allowed (.addOpList al ops)) (hm : vm.HasMemory (.addOpList al ops)) :
    ∃ vm', vdbeAddOpList vm al ops = some (vm', vm.nOp) ∧ Coded vm' (s.record (.addOpList al ops)) := by
  have hop := h.nOp
  unfold vdbeAddOpList
  split
  · rename_i hgrow
    obtain ⟨rfl, hlt⟩ := hm hgrow
    obtain ⟨vm₁, hre, h₁, hn, hop₁, hlab₁⟩ :=
      h.reallocOps (n := vm.nOpAlloc * 2 + ops.length + 10) (by omega) hlt
    obtain ⟨rest, -, hlen⟩ := h.ops
    rw [List.length_append, length_program] at hlen
    obtain ⟨vm', hst, h'⟩ := h₁.storeList (by omega) (hop₁.trans hop) (hlab₁.trans h.nLabel) hjump true
    rw [hre]
    dsimp only
    rw [hst, hop₁]
    exact ⟨vm', rfl, h'⟩
  · rename_i hgrow
    obtain ⟨vm', hst, h'⟩ := h.storeList (by omega) hop h.nLabel hjump al
    rw [hst]
    exact ⟨vm', rfl, h'⟩

/-- **A call that finds memory does what it is asked to.** -/
theorem Coded.step {vm : Vdbe} {s : Source} (h : Coded vm s) {c : Call} (ha : s.Allowed c)
    (hm : vm.HasMemory c) : ∃ vm', call vm c = some vm' ∧ Coded vm' (s.record c) := by
  cases c with
  | addOp al opcode p1 p2 =>
    obtain ⟨vm', hc, h'⟩ := h.addOp hm
    exact ⟨vm', by rw [call, hc]; rfl, h'⟩
  | makeLabel al =>
    obtain ⟨vm', hc, h'⟩ := h.makeLabel hm
    exact ⟨vm', by rw [call, hc]; rfl, h'⟩
  | resolveLabel x => exact h.resolveLabel ha
  | addOpList al ops =>
    obtain ⟨vm', hc, h'⟩ := h.addOpList ha hm
    exact ⟨vm', by rw [call, hc]; rfl, h'⟩

/-! ## Runs from the beginning -/

/-- Every call of a run is allowed. -/
def AllAllowed (cs : List Call) : Prop :=
  ∀ pre c suf, cs = pre ++ c :: suf → (account pre).Allowed c

/-- Every call of a run finds the memory that it asks for. -/
def AllHaveMemory (cs : List Call) : Prop :=
  ∀ pre c suf vm, cs = pre ++ c :: suf → machine.Run vdbeCreate pre vm → vm.HasMemory c

theorem account_concat (cs : List Call) (c : Call) : account (cs ++ [c]) = (account cs).record c := by
  simp [account]

theorem AllAllowed.init {cs : List Call} {c : Call} (h : AllAllowed (cs ++ [c])) : AllAllowed cs := by
  intro pre c' suf e
  exact h pre c' (suf ++ [c]) (by rw [e]; simp)

theorem run_unique {vm vm₁ vm₂ : Vdbe} {cs : List Call} (h₁ : machine.Run vm cs vm₁)
    (h₂ : machine.Run vm cs vm₂) : vm₁ = vm₂ := by
  induction h₁ with
  | nil =>
    cases h₂
    rfl
  | cons hs _ ih =>
    obtain _ | ⟨hs', hr⟩ := h₂
    have he : some _ = some _ := hs.symm.trans hs'
    cases he
    exact ih hr

/-- The state at the end of a run. -/
theorem coded_run (cs : List Call) (ha : AllAllowed cs) (hm : AllHaveMemory cs) :
    ∃ vm, machine.Run vdbeCreate cs vm ∧ Coded vm (account cs) := by
  induction cs using List.reverseRecOn with
  | nil => exact ⟨_, .nil _, coded_create⟩
  | append_singleton cs c ih =>
    obtain ⟨vm, hrun, h⟩ := ih ha.init fun pre c' suf vm e => hm pre c' (suf ++ [c]) vm (by rw [e]; simp)
    obtain ⟨vm', hc, h'⟩ := h.step (ha cs c [] rfl) (hm cs c [] vm rfl hrun)
    exact ⟨vm', hrun.append (.cons hc (.nil _)), by rw [account_concat]; exact h'⟩

/-- A label keeps its address. -/
theorem addr_kept {s : Source} {c : Call} (h : s.Allowed c) {i a : Nat}
    (hi : s.addr[i]? = some (some a)) : (s.record c).addr[i]? = some (some a) := by
  have hlt : i < s.addr.length := (List.getElem?_eq_some_iff.1 hi).1
  cases c with
  | addOp => exact hi
  | makeLabel => exact (List.getElem?_append_left hlt).trans hi
  | resolveLabel x =>
    obtain ⟨-, hx, -⟩ := h
    rw [← hi]
    refine List.getElem?_set_ne fun e => ?_
    rw [e, hi] at hx
    cases hx
  | addOpList => exact hi

/-- A label that a run has resolved has the address of its resolution. -/
theorem addr_resolved {pre suf : List Call} {x : Int} (ha : AllAllowed (pre ++ .resolveLabel x :: suf)) :
    x < 0 ∧ (account (pre ++ .resolveLabel x :: suf)).addr[num x]? = some (some (account pre).ops.length) := by
  obtain ⟨hneg, hx, -⟩ := ha pre (.resolveLabel x) suf rfl
  refine ⟨hneg, ?_⟩
  induction suf using List.reverseRecOn with
  | nil =>
    rw [account_concat]
    exact List.getElem?_set_self (List.getElem?_eq_some_iff.1 hx).1
  | append_singleton suf c ih =>
    have e : pre ++ .resolveLabel x :: (suf ++ [c]) = (pre ++ .resolveLabel x :: suf) ++ [c] := by simp
    rw [e] at ha ⊢
    rw [account_concat]
    exact addr_kept (ha _ c [] rfl) (ih ha.init)

/-- A label that has an address has been resolved. -/
theorem resolved_of_addr {cs : List Call} (ha : AllAllowed cs) {i a : Nat}
    (hi : (account cs).addr[i]? = some (some a)) :
    ∃ pre x suf, cs = pre ++ .resolveLabel x :: suf ∧ x < 0 ∧ num x = i := by
  induction cs using List.reverseRecOn with
  | nil => simp [account, Source.empty] at hi
  | append_singleton cs c ih =>
    have hc := ha cs c [] rfl
    rw [account_concat] at hi
    -- the label had its address before, or this call has resolved it
    by_cases hold : (account cs).addr[i]? = some (some a)
    · obtain ⟨pre, x, suf, rfl, hx⟩ := ih ha.init hold
      exact ⟨pre, x, suf ++ [c], by simp, hx⟩
    · cases c with
      | addOp => exact absurd hi hold
      | makeLabel =>
        simp only [Source.record] at hi
        rw [List.getElem?_append] at hi
        split at hi
        · exact absurd hi hold
        · rw [List.getElem?_singleton] at hi
          split at hi <;> cases hi
      | resolveLabel x =>
        refine ⟨cs, x, [], rfl, hc.1, ?_⟩
        by_contra hne
        exact hold ((List.getElem?_set_ne hne).symm.trans hi)
      | addOpList => exact absurd hi hold

/-! ## Results -/

/-- The instruction at `j`. -/
def Vdbe.op (vm : Vdbe) (j : Nat) : Option VdbeOp := if j < vm.nOp then (vm.aOp.getD [])[j]? else none

/-- What a run is to leave: each instruction as it was asked for, with the label in P2 replaced by the
address at which it was resolved, if it was. -/
structure LabelsHold (cs : List Call) (vm : Vdbe) : Prop where
  nOp : vm.nOp = (account cs).ops.length
  resolved : ∀ pre x suf vm₁, cs = pre ++ .resolveLabel x :: suf → machine.Run vdbeCreate pre vm₁ →
    ∀ j o, (account cs).ops[j]? = some o → o.p2 = x → vm.op j = some { o with p2 := vm₁.nOp }
  others : ∀ j o, (account cs).ops[j]? = some o →
    (∀ pre suf, cs ≠ pre ++ .resolveLabel o.p2 :: suf) → vm.op j = some o
  /-- A resolution changes the P2s that name the label and nothing else. -/
  frame : ∀ pre x suf vm₁ vm₂, cs = pre ++ .resolveLabel x :: suf → machine.Run vdbeCreate pre vm₁ →
    call vm₁ (.resolveLabel x) = some vm₂ → vm₂.nOp = vm₁.nOp ∧ ∀ j o, vm₁.op j = some o →
      vm₂.op j = some (if o.p2 = x then { o with p2 := vm₁.nOp } else o)

theorem Coded.op {vm : Vdbe} {s : Source} (h : Coded vm s) (j : Nat) :
    vm.op j = (s.ops[j]?).map (VdbeOp.resolve s.addr) := by
  obtain ⟨rest, hops, -⟩ := h.ops
  unfold Vdbe.op
  rw [hops, h.nOp]
  split
  · rename_i hlt
    rw [List.getElem?_append_left (by simpa using hlt), Source.program, List.getElem?_map]
  · rename_i hge
    rw [List.getElem?_eq_none (by omega)]
    rfl

/-- **Where memory does not run out, every run ends, and every label in it is the address at which it
was resolved.** -/
theorem labels_resolved (cs : List Call) (ha : AllAllowed cs) (hm : AllHaveMemory cs) :
    ∃ vm, machine.Run vdbeCreate cs vm ∧ LabelsHold cs vm := by
  have hpre : ∀ {pre c suf vm₁}, cs = pre ++ c :: suf → machine.Run vdbeCreate pre vm₁ →
      Coded vm₁ (account pre) := by
    intro pre c suf vm₁ e hrun
    obtain ⟨vm, hrun', h⟩ := coded_run pre
      (fun pre' c' suf' e' => ha pre' c' (suf' ++ c :: suf) (by rw [e, e']; simp))
      (fun pre' c' suf' vm' e' => hm pre' c' (suf' ++ c :: suf) vm' (by rw [e, e']; simp))
    rw [run_unique hrun hrun']
    exact h
  obtain ⟨vm, hrun, h⟩ := coded_run cs ha hm
  refine ⟨vm, hrun, h.nOp, ?_, ?_, ?_⟩
  · intro pre x suf vm₁ e hrun₁ j o ho hx
    have hop := (hpre e hrun₁).nOp
    subst e
    obtain ⟨hneg, haddr⟩ := addr_resolved ha
    rw [h.op, ho, Option.map_some, VdbeOp.resolve, hx, look_of_some hneg haddr, hop]
  · intro j o ho hnot
    rw [h.op, ho, Option.map_some, VdbeOp.resolve]
    by_cases hneg : o.p2 < 0
    · rw [look_of_none fun a haddr => ?_]
      obtain ⟨pre, x, suf, e, hx, hnum⟩ := resolved_of_addr ha haddr
      exact hnot pre suf (by rw [e, (num_inj hx hneg).1 hnum])
    · rw [look_of_nonneg (by omega)]
  · intro pre x suf vm₁ vm₂ e hrun₁ hcall
    have h₁ := hpre e hrun₁
    obtain ⟨hneg, haddr, hne⟩ := ha pre (.resolveLabel x) suf e
    obtain ⟨vm', hcall', h₂⟩ := h₁.resolveLabel ⟨hneg, haddr, hne⟩
    obtain rfl : vm₂ = vm' := Option.some.inj (hcall.symm.trans hcall')
    refine ⟨by rw [h₂.nOp, h₁.nOp]; rfl, fun j o ho => ?_⟩
    rw [h₁.op] at ho
    obtain ⟨o', ho', rfl⟩ := Option.map_eq_some_iff.1 ho
    rw [h₂.op, h₁.nOp]
    change ((account pre).ops[j]?).map _ = _
    rw [ho', Option.map_some, VdbeOp.resolve, Source.record, ← look_resolve _ hneg haddr]
    unfold patch VdbeOp.resolve
    dsimp only
    split <;> rfl

/-! ## Runs on fixed calls -/

theorem run_iff (cs : List Call) (vm vm' : Vdbe) :
    machine.Run vm cs vm' ↔ cs.foldlM call vm = some vm' := by
  induction cs generalizing vm with
  | nil =>
    refine ⟨fun h => by cases h; rfl, fun h => ?_⟩
    cases h
    exact .nil _
  | cons c cs ih =>
    rw [List.foldlM_cons]
    constructor
    · intro h
      obtain _ | ⟨hs, hr⟩ := h
      have hs : call vm c = some _ := hs
      rw [hs]
      exact (ih _).1 hr
    · intro h
      obtain ⟨vm₁, hs, hr⟩ := Option.bind_eq_some_iff.1 h
      exact .cons hs ((ih _).2 hr)

theorem allAllowed_nil : AllAllowed [] := by
  intro pre c suf e
  simp at e

theorem allHaveMemory_nil : AllHaveMemory [] := by
  intro pre c suf vm e
  simp at e

/-- A call at the end, or one before it. -/
theorem concat_cases {cs pre suf : List Call} {c c' : Call} (e : cs ++ [c'] = pre ++ c :: suf) :
    (pre = cs ∧ c = c') ∨ ∃ suf', cs = pre ++ c :: suf' := by
  obtain rfl | ⟨suf, d, rfl⟩ := List.eq_nil_or_concat suf
  · obtain ⟨h₁, h₂⟩ := List.append_inj' e rfl
    cases h₂
    exact .inl ⟨h₁.symm, rfl⟩
  · have e' : cs ++ [c'] = (pre ++ c :: suf) ++ [d] := by simpa using e
    exact .inr ⟨suf, (List.append_inj' e' rfl).1⟩

theorem AllAllowed.concat {cs : List Call} {c : Call} (h : AllAllowed cs) (hc : (account cs).Allowed c) :
    AllAllowed (cs ++ [c]) := by
  intro pre c' suf e
  obtain ⟨rfl, rfl⟩ | ⟨suf', e'⟩ := concat_cases e
  · exact hc
  · exact h pre c' suf' e'

theorem AllHaveMemory.concat {cs : List Call} {c : Call} (h : AllHaveMemory cs)
    (hc : ∀ vm, cs.foldlM call vdbeCreate = some vm → vm.HasMemory c) : AllHaveMemory (cs ++ [c]) := by
  intro pre c' suf vm e hrun
  obtain ⟨rfl, rfl⟩ | ⟨suf', e'⟩ := concat_cases e
  · exact hc vm ((run_iff _ _ _).1 hrun)
  · exact h pre c' suf' vm e' hrun

/-- Two jumps to a label, one before it is resolved and one behind. -/
def twoJumps (al : Bool) : List Call :=
  [.makeLabel true, .addOp al 7 0 (-1), .resolveLabel (-1), .addOp true 7 0 (-1)]

theorem twoJumps_allowed (al : Bool) : AllAllowed (twoJumps al) :=
  (((allAllowed_nil.concat (c := .makeLabel true) trivial).concat (c := .addOp al 7 0 (-1)) trivial).concat
    (c := .resolveLabel (-1)) ⟨by decide, rfl, List.cons_ne_nil _ _⟩).concat
      (c := .addOp true 7 0 (-1)) trivial

theorem twoJumps_haveMemory : AllHaveMemory (twoJumps true) := by
  have h₁ := allHaveMemory_nil.concat (c := .makeLabel true) fun vm h => by
    cases h
    exact fun _ => ⟨rfl, by decide⟩
  have h₂ := h₁.concat (c := .addOp true 7 0 (-1)) fun vm h => by
    cases h
    exact fun _ => ⟨rfl, by decide⟩
  have h₃ := h₂.concat (c := .resolveLabel (-1)) fun vm h => trivial
  exact h₃.concat (c := .addOp true 7 0 (-1)) fun vm h => by
    cases h
    exact fun _ => ⟨rfl, by decide⟩

theorem labels_resolved_twoJumps :
    ∃ vm, machine.Run vdbeCreate (twoJumps true) vm ∧ LabelsHold (twoJumps true) vm :=
  labels_resolved _ (twoJumps_allowed true) twoJumps_haveMemory

/-- Where there is no memory for the first jump, the label is not resolved: the second jump still has
the label in P2. -/
theorem labels_fail : ¬∀ cs, AllAllowed cs → ∃ vm, machine.Run vdbeCreate cs vm ∧ LabelsHold cs vm := by
  intro hall
  obtain ⟨vm, hrun, h⟩ := hall _ (twoJumps_allowed false)
  have hvm := (run_iff _ _ _).1 hrun
  cases hvm
  have hpre : machine.Run vdbeCreate [.makeLabel true, .addOp false 7 0 (-1)]
      ⟨1, 0, none, 1, 10, .slots (some (-1) :: List.replicate 9 none)⟩ := (run_iff _ _ _).2 rfl
  have hop := h.resolved _ (-1) [.addOp true 7 0 (-1)] _ rfl hpre 1 ⟨7, 0, -1, none, .notused⟩ rfl rfl
  cases hop

end Dbsql.L5.Program
