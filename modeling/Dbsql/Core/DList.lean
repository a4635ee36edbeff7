import Mathlib.Data.List.Nodup
import Mathlib.Logic.Function.Basic
import Mathlib.Tactic.Common
/-!
# Doubly linked lists

A heap of nodes with a link each way. `Seg h prev ps next` says that the nodes `ps` are linked one
to the next, the first back to `prev` and the last on to `next`. Splitting a list splits the
segment (`seg_append`), and what happens to other nodes does not matter to it (`Seg.congr`).

Results:
* `link_front`, `link_before`: a node linked in at the front, or before another one.
* `unlink_spec`: a node taken out.
-/
namespace Dbsql.Core.DList

structure Node (V : Type) where
  next : Option Nat
  prev : Option Nat
  val : V

abbrev Heap (V : Type) := Nat → Option (Node V)

section
variable {V : Type}

def Heap.setNext (h : Heap V) (p : Nat) (x : Option Nat) : Heap V :=
  Function.update h p ((h p).map fun n => { n with next := x })

def Heap.setPrev (h : Heap V) (p : Nat) (x : Option Nat) : Heap V :=
  Function.update h p ((h p).map fun n => { n with prev := x })

/-- What is stored at an address. -/
def Heap.val (h : Heap V) (p : Nat) : Option V := (h p).map (·.val)

@[simp] theorem setNext_same (h : Heap V) (p : Nat) (x : Option Nat) :
    h.setNext p x p = (h p).map fun n => { n with next := x } := Function.update_self ..

@[simp] theorem setPrev_same (h : Heap V) (p : Nat) (x : Option Nat) :
    h.setPrev p x p = (h p).map fun n => { n with prev := x } := Function.update_self ..

theorem setNext_of_ne {h : Heap V} {p q : Nat} (hne : q ≠ p) (x : Option Nat) :
    h.setNext p x q = h q := Function.update_of_ne hne ..

theorem setPrev_of_ne {h : Heap V} {p q : Nat} (hne : q ≠ p) (x : Option Nat) :
    h.setPrev p x q = h q := Function.update_of_ne hne ..

@[simp] theorem val_setNext (h : Heap V) (p : Nat) (x : Option Nat) (q : Nat) :
    (h.setNext p x).val q = h.val q := by
  unfold Heap.val
  by_cases hq : q = p
  · subst hq
    rw [setNext_same, Option.map_map]
    rfl
  · rw [setNext_of_ne hq]

@[simp] theorem val_setPrev (h : Heap V) (p : Nat) (x : Option Nat) (q : Nat) :
    (h.setPrev p x).val q = h.val q := by
  unfold Heap.val
  by_cases hq : q = p
  · subst hq
    rw [setPrev_same, Option.map_map]
    rfl
  · rw [setPrev_of_ne hq]

/-! ## Segments -/

/-- The nodes `ps` in a row, from `prev` to `next`. -/
def Seg (h : Heap V) : Option Nat → List Nat → Option Nat → Prop
  | _, [], _ => True
  | prev, p :: ps, next =>
    ∃ n, h p = some n ∧ n.prev = prev ∧ n.next = ps.head?.or next ∧ Seg h (some p) ps next

theorem Seg.congr {h h' : Heap V} {ps : List Nat} (heq : ∀ p ∈ ps, h' p = h p) :
    ∀ {prev next : Option Nat}, Seg h prev ps next → Seg h' prev ps next := by
  induction ps with
  | nil =>
    intro prev next hs
    exact hs
  | cons p ps ih =>
    intro prev next hs
    obtain ⟨n, hn, hprev, hnext, hs⟩ := hs
    exact ⟨n, by rw [heq p (List.mem_cons_self ..), hn], hprev, hnext,
      ih (fun q hq => heq q (List.mem_cons_of_mem _ hq)) hs⟩

/-- What the nodes store does not matter. -/
theorem Seg.update_val {h : Heap V} {ps : List Nat} (q : Nat) (f : V → V) :
    ∀ {prev next : Option Nat}, Seg h prev ps next →
      Seg (Function.update h q ((h q).map fun n => { n with val := f n.val })) prev ps next := by
  induction ps with
  | nil =>
    intro prev next _
    trivial
  | cons p ps ih =>
    intro prev next hs
    obtain ⟨n, hn, hprev, hnext, hs⟩ := hs
    by_cases hq : p = q
    · subst hq
      refine ⟨{ n with val := f n.val }, ?_, hprev, hnext, ih hs⟩
      rw [Function.update_self, hn]
      rfl
    · exact ⟨n, by rw [Function.update_of_ne hq, hn], hprev, hnext, ih hs⟩

theorem seg_append {h : Heap V} {as bs : List Nat} : ∀ {prev next : Option Nat},
    Seg h prev (as ++ bs) next ↔
      Seg h prev as (bs.head?.or next) ∧ Seg h (as.getLast?.or prev) bs next := by
  induction as with
  | nil =>
    intro prev next
    exact ⟨fun hs => ⟨trivial, hs⟩, fun hs => hs.2⟩
  | cons a as ih =>
    intro prev next
    have hlast : (a :: as).getLast?.or prev = as.getLast?.or (some a) := by
      cases as with
      | nil => rfl
      | cons b as =>
        rw [List.getLast?_cons_cons, List.getLast?_eq_some_getLast (List.cons_ne_nil b as)]
        rfl
    have hhead : (as ++ bs).head?.or next = as.head?.or (bs.head?.or next) := by
      cases as <;> rfl
    rw [hlast, List.cons_append, Seg, Seg, hhead]
    constructor
    · rintro ⟨n, hn, hprev, hnext, hs⟩
      exact ⟨⟨n, hn, hprev, hnext, (ih.1 hs).1⟩, (ih.1 hs).2⟩
    · rintro ⟨⟨n, hn, hprev, hnext, hs⟩, hs'⟩
      exact ⟨n, hn, hprev, hnext, ih.2 ⟨hs, hs'⟩⟩

theorem Seg.live {h : Heap V} {ps : List Nat} : ∀ {prev next : Option Nat}, Seg h prev ps next →
    ∀ p ∈ ps, ∃ n, h p = some n := by
  induction ps with
  | nil =>
    intro prev next _ p hp
    cases hp
  | cons q ps ih =>
    intro prev next hs p hp
    obtain ⟨n, hn, -, -, hs⟩ := hs
    rcases List.mem_cons.1 hp with rfl | hp
    · exact ⟨n, hn⟩
    · exact ih hs p hp

/-- The link of the last node. -/
theorem Seg.setNext_last {h : Heap V} {as : List Nat} {q : Nat} {prev next : Option Nat}
    (hs : Seg h prev (as ++ [q]) next) (hq : q ∉ as) (x : Option Nat) :
    Seg (h.setNext q x) prev (as ++ [q]) x := by
  obtain ⟨has, n, hn, hprev, -, -⟩ := seg_append.1 hs
  refine seg_append.2 ⟨has.congr fun p hp => setNext_of_ne (ne_of_mem_of_not_mem hp hq) x, ?_⟩
  refine ⟨{ n with next := x }, ?_, hprev, ?_, trivial⟩
  · rw [setNext_same, hn]
    rfl
  · rfl

/-- The link back of the first node. -/
theorem Seg.setPrev_head {h : Heap V} {bs : List Nat} {p : Nat} {prev next : Option Nat}
    (hs : Seg h prev (p :: bs) next) (hp : p ∉ bs) (x : Option Nat) :
    Seg (h.setPrev p x) x (p :: bs) next := by
  obtain ⟨n, hn, -, hnext, hs⟩ := hs
  refine ⟨{ n with prev := x }, ?_, rfl, hnext, hs.congr fun q hq => setPrev_of_ne (ne_of_mem_of_not_mem hq hp) x⟩
  rw [setPrev_same, hn]
  rfl

/-! ## Linking in -/

/-- Links `p` in before `chain`, or at the front without it: the heap and the first node. -/
def link (h : Heap V) (first chain : Option Nat) (p : Nat) : Heap V × Option Nat :=
  match chain with
  | some x =>
    let prev := (h x).bind (·.prev)
    let h := (h.setNext p (some x)).setPrev p prev
    match prev with
    | some q => ((h.setNext q (some p)).setPrev x (some p), first)
    | none => (h.setPrev x (some p), some p)
  | none =>
    let h := h.setNext p first
    let h := match first with
      | some f => h.setPrev f (some p)
      | none => h
    (h.setPrev p none, some p)

theorem val_link (h : Heap V) (first chain : Option Nat) (p q : Nat) :
    (link h first chain p).1.val q = h.val q := by
  unfold link
  cases chain with
  | some x =>
    dsimp only
    cases (h x).bind (·.prev) <;> simp
  | none => cases first <;> simp

theorem link_front {h : Heap V} {ps : List Nat} {p : Nat} {n : Node V} (hs : Seg h none ps none)
    (hn : h p = some n) (hp : p ∉ ps) (hnd : ps.Nodup) :
    (link h ps.head? none p).2 = (p :: ps).head? ∧ Seg (link h ps.head? none p).1 none (p :: ps) none ∧
      ∀ q, q ∉ p :: ps → (link h ps.head? none p).1 q = h q := by
  refine ⟨rfl, ?_⟩
  unfold link
  cases ps with
  | nil =>
    refine ⟨⟨{ n with next := none, prev := none }, by simp [hn], rfl, rfl, trivial⟩, fun q hq => ?_⟩
    have hqp : q ≠ p := fun h => hq (h ▸ List.mem_cons_self ..)
    exact (setPrev_of_ne hqp _).trans (setNext_of_ne hqp _)
  | cons f ps =>
    have hpf : p ≠ f := fun h => hp (h ▸ List.mem_cons_self ..)
    have hs' : Seg (((h.setNext p (some f)).setPrev f (some p)).setPrev p none) (some p) (f :: ps) none := by
      have h1 : Seg (h.setNext p (some f)) none (f :: ps) none :=
        hs.congr fun q hq => setNext_of_ne (ne_of_mem_of_not_mem hq hp) _
      have h2 := h1.setPrev_head (List.nodup_cons.1 hnd).1 (some p)
      exact h2.congr fun q hq => setPrev_of_ne (ne_of_mem_of_not_mem hq hp) _
    refine ⟨⟨{ n with next := some f, prev := none }, ?_, rfl, rfl, hs'⟩, fun q hq => ?_⟩
    · simp [setPrev_of_ne hpf, hn]
    · have hqp : q ≠ p := fun h => hq (h ▸ List.mem_cons_self ..)
      have hqf : q ≠ f := fun h => hq (h ▸ List.mem_cons_of_mem _ (List.mem_cons_self ..))
      exact ((setPrev_of_ne hqp _).trans (setPrev_of_ne hqf _)).trans (setNext_of_ne hqp _)

theorem link_before {h : Heap V} {as bs : List Nat} {p x : Nat} {n : Node V}
    (hs : Seg h none (as ++ x :: bs) none) (hn : h p = some n) (hp : p ∉ as ++ x :: bs)
    (hnd : (as ++ x :: bs).Nodup) :
    (link h (as ++ x :: bs).head? (some x) p).2 = (as ++ p :: x :: bs).head? ∧
      Seg (link h (as ++ x :: bs).head? (some x) p).1 none (as ++ p :: x :: bs) none ∧
      ∀ q, q ∉ as ++ p :: x :: bs → (link h (as ++ x :: bs).head? (some x) p).1 q = h q := by
  obtain ⟨has, hxs⟩ := seg_append.1 hs
  obtain ⟨nx, hnx, hprev, -⟩ := id hxs
  have hpas : p ∉ as := fun hmem => hp (List.mem_append_left _ hmem)
  have hpxs : p ∉ x :: bs := fun hmem => hp (List.mem_append_right _ hmem)
  have hpx : p ≠ x := (ne_of_mem_of_not_mem (List.mem_cons_self ..) hpxs).symm
  obtain ⟨-, hndx, hdisj⟩ := List.nodup_append.1 hnd
  have hxas : x ∉ as := fun hmem => hdisj x hmem x (List.mem_cons_self ..) rfl
  unfold link
  dsimp only
  rw [hnx, Option.bind_some, hprev]
  rcases as.eq_nil_or_concat with rfl | ⟨as', q, rfl⟩
  · -- `x` is the first node
    have hxs' : Seg (((h.setNext p (some x)).setPrev p none).setPrev x (some p)) (some p) (x :: bs)
        none := by
      have h1 : Seg ((h.setNext p (some x)).setPrev p none) none (x :: bs) none :=
        hxs.congr fun q hq => (setPrev_of_ne (ne_of_mem_of_not_mem hq hpxs) _).trans
          (setNext_of_ne (ne_of_mem_of_not_mem hq hpxs) _)
      exact h1.setPrev_head (List.nodup_cons.1 hndx).1 (some p)
    refine ⟨rfl, ⟨{ n with next := some x, prev := none }, ?_, rfl, rfl, hxs'⟩, fun q hq => ?_⟩
    · simp [setPrev_of_ne hpx, hn]
    · have hqp : q ≠ p := fun h => hq (by simp [h])
      have hqx : q ≠ x := fun h => hq (by simp [h])
      exact ((setPrev_of_ne hqx _).trans (setPrev_of_ne hqp _)).trans (setNext_of_ne hqp _)
  · -- `q` is before `x`
    rw [List.concat_eq_append] at *
    have hlast : (as' ++ [q]).getLast?.or none = some q := by simp
    rw [hlast]
    dsimp only
    have hpq : p ≠ q := (ne_of_mem_of_not_mem (by simp) hpas).symm
    have hqx : q ≠ x := ne_of_mem_of_not_mem (by simp) hxas
    have hqas : q ∉ as' := by
      have hnda := (List.nodup_append.1 hnd).1
      exact fun hmem => (List.nodup_append.1 hnda).2.2 q hmem q (by simp) rfl
    have hqxs : q ∉ x :: bs := fun hmem => hdisj q (by simp) q hmem rfl
    let h0 := (h.setNext p (some x)).setPrev p (some q)
    have hframe : ∀ r, r ≠ p → h0 r = h r := fun r hr =>
      (setPrev_of_ne hr _).trans (setNext_of_ne hr _)
    have has' : Seg ((h0.setNext q (some p)).setPrev x (some p)) none (as' ++ [q]) (some p) := by
      have h1 : Seg h0 none (as' ++ [q]) ((x :: bs).head?.or none) :=
        has.congr fun r hr => hframe r (ne_of_mem_of_not_mem hr hpas)
      have h2 := h1.setNext_last hqas (some p)
      exact h2.congr fun r hr => setPrev_of_ne (ne_of_mem_of_not_mem hr hxas) _
    have hxs' : Seg ((h0.setNext q (some p)).setPrev x (some p)) (some p) (x :: bs) none := by
      rw [hlast] at hxs
      have h1 : Seg (h0.setNext q (some p)) (some q) (x :: bs) none := hxs.congr fun r hr =>
        (setNext_of_ne (ne_of_mem_of_not_mem hr hqxs) _).trans
          (hframe r (ne_of_mem_of_not_mem hr hpxs))
      exact h1.setPrev_head (List.nodup_cons.1 hndx).1 (some p)
    refine ⟨by cases as' <;> rfl, seg_append.2 ⟨has', ?_⟩, fun r hr => ?_⟩
    · rw [hlast]
      refine ⟨{ n with next := some x, prev := some q }, ?_, rfl, rfl, hxs'⟩
      simp [setPrev_of_ne hpx, setNext_of_ne hpq, hn]
    · have hrp : r ≠ p := fun h => hr (by simp [h])
      have hrq : r ≠ q := fun h => hr (by simp [h])
      have hrx : r ≠ x := fun h => hr (by simp [h])
      exact ((setPrev_of_ne hrx _).trans (setNext_of_ne hrq _)).trans (hframe r hrp)

/-! ## Taking out -/

/-- Takes `p` out and frees it: the heap and the first node. -/
def unlink (h : Heap V) (first : Option Nat) (p : Nat) : Heap V × Option Nat :=
  let next := (h p).bind (·.next)
  let prev := (h p).bind (·.prev)
  let (h, first) := match prev with
    | some q => (h.setNext q next, first)
    | none => (h, next)
  let h := match next with
    | some r => h.setPrev r prev
    | none => h
  (Function.update h p none, first)

theorem unlink_spec {h : Heap V} {as bs : List Nat} {p : Nat} (hs : Seg h none (as ++ p :: bs) none)
    (hnd : (as ++ p :: bs).Nodup) :
    (unlink h (as ++ p :: bs).head? p).2 = (as ++ bs).head? ∧
      Seg (unlink h (as ++ p :: bs).head? p).1 none (as ++ bs) none ∧
      (∀ q, q ∉ as ++ p :: bs → (unlink h (as ++ p :: bs).head? p).1 q = h q) ∧
      ∀ q, q ≠ p → (unlink h (as ++ p :: bs).head? p).1.val q = h.val q := by
  obtain ⟨has, n, hn, hprev, hnext, hbs⟩ := seg_append.1 hs
  obtain ⟨hnda, hndp, hdisj⟩ := List.nodup_append.1 hnd
  obtain ⟨hpbs, hndb⟩ := List.nodup_cons.1 hndp
  have hpas : p ∉ as := fun hmem => hdisj p hmem p (List.mem_cons_self ..) rfl
  have hab : ∀ q ∈ as, q ∉ bs := fun q ha hb => hdisj q ha q (List.mem_cons_of_mem _ hb) rfl
  rw [Option.or_none] at hprev hnext
  unfold unlink
  dsimp only
  rw [hn, Option.bind_some, Option.bind_some, hprev, hnext]
  obtain ⟨h1, first1, hdef, hfirst, hseg, hframe, hval⟩ : ∃ (h1 : Heap V) (first1 : Option Nat),
      (match as.getLast? with
        | some q => (h.setNext q bs.head?, (as ++ p :: bs).head?)
        | none => (h, bs.head?)) = (h1, first1) ∧ first1 = (as ++ bs).head? ∧
      Seg h1 none as bs.head? ∧ (∀ q, q ∉ as → h1 q = h q) ∧ ∀ q, h1.val q = h.val q := by
    rcases as.eq_nil_or_concat with rfl | ⟨as', q, rfl⟩
    · exact ⟨h, bs.head?, rfl, rfl, trivial, fun _ _ => rfl, fun _ => rfl⟩
    · rw [List.concat_eq_append] at *
      have hqas : q ∉ as' := fun hmem => (List.nodup_append.1 hnda).2.2 q hmem q (by simp) rfl
      refine ⟨h.setNext q bs.head?, (as' ++ [q] ++ p :: bs).head?, by simp, by cases as' <;> rfl,
        has.setNext_last hqas bs.head?, fun r hr => ?_, fun r => val_setNext ..⟩
      exact setNext_of_ne (fun h => hr (by simp [h])) _
  obtain ⟨h2, hdef2, hseg2, hframe2, hval2⟩ : ∃ h2 : Heap V,
      (match bs.head? with
        | some r => h1.setPrev r as.getLast?
        | none => h1) = h2 ∧
      Seg h2 as.getLast? bs none ∧ (∀ q, q ∉ bs → h2 q = h1 q) ∧ ∀ q, h2.val q = h1.val q := by
    cases bs with
    | nil => exact ⟨h1, rfl, trivial, fun _ _ => rfl, fun _ => rfl⟩
    | cons r bs' =>
      have hbs1 : Seg h1 (some p) (r :: bs') none :=
        hbs.congr fun q hq => hframe q fun hmem => hab q hmem hq
      refine ⟨h1.setPrev r as.getLast?, rfl, hbs1.setPrev_head (List.nodup_cons.1 hndb).1 _,
        fun q hq => ?_, fun q => val_setPrev ..⟩
      exact setPrev_of_ne (fun h => hq (by simp [h])) _
  rw [hdef]
  dsimp only
  rw [hdef2]
  refine ⟨hfirst, seg_append.2 ⟨?_, ?_⟩, fun q hq => ?_, fun q hq => ?_⟩
  · rw [Option.or_none]
    exact hseg.congr fun q hq => (Function.update_of_ne (ne_of_mem_of_not_mem hq hpas) ..).trans
      (hframe2 q (hab q hq))
  · rw [Option.or_none]
    exact hseg2.congr fun q hq => Function.update_of_ne (ne_of_mem_of_not_mem hq hpbs) ..
  · rw [List.mem_append, List.mem_cons, not_or, not_or] at hq
    exact ((Function.update_of_ne hq.2.1 ..).trans (hframe2 q hq.2.2)).trans (hframe q hq.1)
  · unfold Heap.val
    rw [Function.update_of_ne hq]
    exact (hval2 q).trans (hval q)

end
end Dbsql.Core.DList
