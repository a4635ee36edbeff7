import Dbsql.Core.Lts
import Dbsql.L2Storage.Hash
import Mathlib.Data.List.Perm.Basic
/-!
# A hash table is a finite map (hash.c)

The one list of a table is the lists of its buckets, one after the other (`Groups`): an element
linked in before the first of its bucket, or at the front, keeps that so, and so does one taken
out, whatever the order of the buckets. A search looks through the list of one bucket, and finds
the key if the key hashes as the one stored.

Results:
* `Linked.linkIn`, `Linked.unlink`: the groups after an element is linked in or taken out.
* `hashSearch_spec`: a search finds the element with the key, or there is none.
* `hash_refines`: every run of a table is one of a finite map from canonical keys, count and
  iteration included, if the keys stored are valid.
-/
namespace Dbsql.L2.HashTable
open Dbsql.Core Dbsql.Core.DList Dbsql.L1

/-! ## Groups -/

/-- The buckets in the order of the list, each with its elements. -/
abbrev Groups := List (Nat × List Nat)

def nodes (G : Groups) : List Nat := G.flatMap (·.2)

@[simp] theorem nodes_nil : nodes [] = [] := rfl

@[simp] theorem nodes_cons (g : Nat × List Nat) (G : Groups) : nodes (g :: G) = g.2 ++ nodes G := rfl

@[simp] theorem nodes_append (G G' : Groups) : nodes (G ++ G') = nodes G ++ nodes G' :=
  List.flatMap_append

/-- What the table of buckets says of the groups. -/
structure Grouped (bucketOf : Nat → Nat) (ht : Nat → Bucket) (G : Groups) : Prop where
  keys : (G.map (·.1)).Nodup
  ne : ∀ g ∈ G, g.2 ≠ []
  bucket : ∀ g ∈ G, ∀ p ∈ g.2, bucketOf p = g.1
  table : ∀ g ∈ G, ht g.1 = ⟨BitVec.ofNat 32 g.2.length, g.2.head?⟩
  empty : ∀ b, b ∉ G.map (·.1) → ht b = ⟨0, none⟩

variable {D : Type}

/-- The list, its first element, and the buckets. -/
structure Linked (bucketOf : Nat → Nat) (h : Heap (Ele D)) (first : Option Nat) (ht : Nat → Bucket)
    (G : Groups) : Prop where
  seg : Seg h none (nodes G) none
  first : first = (nodes G).head?
  nodup : (nodes G).Nodup
  grouped : Grouped bucketOf ht G

section
variable {bucketOf : Nat → Nat} {h : Heap (Ele D)} {first : Option Nat} {ht : Nat → Bucket} {G : Groups}
  {p : Nat} {n : Node (Ele D)}

/-- Other groups are of other buckets. -/
theorem Grouped.ne_of_mem {G1 G2 : Groups} {b : Nat} {seg : List Nat}
    (hG : Grouped bucketOf ht (G1 ++ (b, seg) :: G2)) {g : Nat × List Nat} (hg : g ∈ G1 ∨ g ∈ G2) :
    g.1 ≠ b := by
  have hk := hG.keys
  rw [List.map_append, List.map_cons, List.nodup_append] at hk
  rcases hg with hg | hg
  · exact hk.2.2 g.1 (List.mem_map_of_mem hg) b (List.mem_cons_self ..)
  · exact ne_of_mem_of_not_mem (List.mem_map_of_mem hg) (List.nodup_cons.1 hk.2.1).1

/-- A group with other elements, and the bucket with it. -/
theorem Grouped.replace {G1 G2 : Groups} {b : Nat} {seg seg' : List Nat}
    (hG : Grouped bucketOf ht (G1 ++ (b, seg) :: G2)) (hne : seg' ≠ [])
      (hb : ∀ q ∈ seg', bucketOf q = b) :
    Grouped bucketOf (Function.update ht b ⟨BitVec.ofNat 32 seg'.length, seg'.head?⟩)
      (G1 ++ (b, seg') :: G2) := by
  have hmem : ∀ g, g ∈ G1 ++ (b, seg') :: G2 → g = (b, seg') ∨ g ∈ G1 ∨ g ∈ G2 := by
    intro g hg
    rcases List.mem_append.1 hg with hg | hg
    · exact .inr (.inl hg)
    · rcases List.mem_cons.1 hg with hg | hg
      · exact .inl hg
      · exact .inr (.inr hg)
  have hold : ∀ g, g ∈ G1 ∨ g ∈ G2 → g ∈ G1 ++ (b, seg) :: G2 := by
    intro g hg
    rcases hg with hg | hg
    · exact List.mem_append_left _ hg
    · exact List.mem_append_right _ (List.mem_cons_of_mem _ hg)
  have hkeys : (G1 ++ (b, seg') :: G2).map (·.1) = (G1 ++ (b, seg) :: G2).map (·.1) := by simp
  constructor
  · rw [hkeys]
    exact hG.keys
  · intro g hg
    rcases hmem g hg with rfl | hg
    · exact hne
    · exact hG.ne g (hold g hg)
  · intro g hg
    rcases hmem g hg with rfl | hg
    · exact hb
    · exact hG.bucket g (hold g hg)
  · intro g hg
    rcases hmem g hg with rfl | hg
    · exact Function.update_self ..
    · rw [Function.update_of_ne (hG.ne_of_mem hg)]
      exact hG.table g (hold g hg)
  · intro b' hb'
    rw [hkeys] at hb'
    have hne' : b' ≠ b := fun h => hb' (by simp [h])
    rw [Function.update_of_ne hne']
    exact hG.empty b' hb'

/-- A bucket's list is a group. -/
theorem Grouped.mem_iff (hG : Grouped bucketOf ht G) {b : Nat} : b ∈ G.map (·.1) ↔
    ∃ (G1 G2 : Groups) (x : Nat) (seg : List Nat), G = G1 ++ (b, x :: seg) :: G2 := by
  constructor
  · intro h
    obtain ⟨⟨b', seg⟩, hg, rfl⟩ := List.mem_map.1 h
    obtain ⟨G1, G2, rfl⟩ := List.append_of_mem hg
    cases seg with
    | nil => exact absurd rfl (hG.ne _ hg)
    | cons x seg => exact ⟨G1, G2, x, seg, rfl⟩
  · rintro ⟨G1, G2, x, seg, rfl⟩
    simp

/-- An element linked in. -/
theorem Linked.linkIn (hL : Linked bucketOf h first ht G) (hp : p ∉ nodes G) (hn : h p = some n) :
    ∃ G', Linked bucketOf (link h first (ht (bucketOf p)).chain p).1
        (link h first (ht (bucketOf p)).chain p).2
        (Function.update ht (bucketOf p) ⟨(ht (bucketOf p)).count + 1, some p⟩) G' ∧
      (nodes G').Perm (p :: nodes G) ∧
      ∀ q, q ∉ p :: nodes G → (link h first (ht (bucketOf p)).chain p).1 q = h q := by
  rw [hL.first]
  by_cases hb : bucketOf p ∈ G.map (·.1)
  · obtain ⟨G1, G2, x, seg, rfl⟩ := hL.grouped.mem_iff.1 hb
    have hht := hL.grouped.table (bucketOf p, x :: seg) (by simp)
    dsimp only at hht
    have hnodes : nodes (G1 ++ (bucketOf p, x :: seg) :: G2) = nodes G1 ++ x :: (seg ++ nodes G2) := by
      simp
    have hnodes' : nodes (G1 ++ (bucketOf p, p :: x :: seg) :: G2) =
        nodes G1 ++ p :: x :: (seg ++ nodes G2) := by simp
    obtain ⟨hseg, hnd⟩ := And.intro hL.seg hL.nodup
    rw [hnodes] at hp hseg hnd ⊢
    obtain ⟨hfirst, hseg', hframe⟩ := link_before hseg hn hp hnd
    rw [hht]
    refine ⟨G1 ++ (bucketOf p, p :: x :: seg) :: G2, ⟨?_, ?_, ?_, ?_⟩, ?_, fun q hq => ?_⟩
    · rw [hnodes']
      exact hseg'
    · rw [hnodes']
      exact hfirst
    · rw [hnodes', List.perm_middle.nodup_iff, List.nodup_cons]
      exact ⟨hp, hnd⟩
    · have hlen : BitVec.ofNat 32 (x :: seg).length + 1 = BitVec.ofNat 32 (p :: x :: seg).length :=
        (BitVec.ofNat_add _ _).symm
      dsimp only
      rw [hlen]
      refine hL.grouped.replace (List.cons_ne_nil _ _) fun q hq => ?_
      rcases List.mem_cons.1 hq with rfl | hq
      · rfl
      · exact hL.grouped.bucket (bucketOf p, x :: seg) (by simp) q hq
    · rw [hnodes']
      exact List.perm_middle
    · refine hframe q fun hmem => hq ?_
      exact List.perm_middle.mem_iff.1 hmem
  · have hht := hL.grouped.empty _ hb
    rw [hht]
    obtain ⟨hfirst, hseg', hframe⟩ := link_front hL.seg hn hp hL.nodup
    refine ⟨(bucketOf p, [p]) :: G, ⟨hseg', hfirst, List.nodup_cons.2 ⟨hp, hL.nodup⟩, ?_⟩,
      List.Perm.refl _, hframe⟩
    have hother : ∀ g ∈ G, g.1 ≠ bucketOf p := fun g hg h => hb (h ▸ List.mem_map_of_mem hg)
    constructor
    · rw [List.map_cons, List.nodup_cons]
      exact ⟨hb, hL.grouped.keys⟩
    · intro g hg
      rcases List.mem_cons.1 hg with rfl | hg
      · exact List.cons_ne_nil _ _
      · exact hL.grouped.ne g hg
    · intro g hg
      rcases List.mem_cons.1 hg with rfl | hg
      · intro q hq
        rw [List.mem_singleton.1 hq]
      · exact hL.grouped.bucket g hg
    · intro g hg
      rcases List.mem_cons.1 hg with rfl | hg
      · exact Function.update_self ..
      · rw [Function.update_of_ne (hother g hg)]
        exact hL.grouped.table g hg
    · intro b' hb'
      rw [List.map_cons, List.mem_cons, not_or] at hb'
      rw [Function.update_of_ne hb'.1]
      exact hL.grouped.empty b' hb'.2

/-- The bucket after an element was taken out. -/
def Bucket.without (b : Bucket) (p : Nat) (next : Option Nat) : Bucket :=
  ⟨b.count - 1, if (b.count - 1).sle 0 then none else if b.chain = some p then next else b.chain⟩

theorem sle_zero_iff {n : Nat} (h : n < 2 ^ 31) : (BitVec.ofNat 32 n).sle 0 = true ↔ n = 0 := by
  have hnat : (BitVec.ofNat 32 n).toNat = n := by
    rw [BitVec.toNat_ofNat]
    omega
  have hint : (BitVec.ofNat 32 n).toInt = n := by rw [BitVec.toInt_eq_toNat_of_lt (by omega), hnat]
  rw [BitVec.sle_iff_toInt_le, hint]
  exact Int.natCast_nonpos_iff

theorem ofNat_succ_sub_one (n : Nat) : BitVec.ofNat 32 (n + 1) - 1 = BitVec.ofNat 32 n := by
  rw [BitVec.ofNat_add]
  exact BitVec.add_sub_cancel _ _

/-- An element taken out. -/
theorem Linked.unlink (hL : Linked bucketOf h first ht G) (hp : p ∈ nodes G)
    (hsmall : (nodes G).length < 2 ^ 31) :
    ∃ G', Linked bucketOf (unlink h first p).1 (unlink h first p).2
        (Function.update ht (bucketOf p) ((ht (bucketOf p)).without p ((h p).bind (·.next)))) G' ∧
      (nodes G).Perm (p :: nodes G') ∧ ∀ q, q ≠ p → (DList.unlink h first p).1.val q = h.val q := by
  obtain ⟨⟨b, seg⟩, hg, hpseg⟩ := List.mem_flatMap.1 hp
  obtain ⟨G1, G2, rfl⟩ := List.append_of_mem hg
  obtain ⟨s1, s2, rfl⟩ := List.append_of_mem hpseg
  have hb : bucketOf p = b := hL.grouped.bucket _ hg p hpseg
  have hht := hL.grouped.table _ hg
  dsimp only at hht
  have hnodes : nodes (G1 ++ (b, s1 ++ p :: s2) :: G2) = (nodes G1 ++ s1) ++ p :: (s2 ++ nodes G2) := by
    simp
  obtain ⟨hseg, hnd⟩ := And.intro hL.seg hL.nodup
  rw [hL.first]
  rw [hnodes] at hseg hnd hsmall ⊢
  obtain ⟨hfirst, hseg', -, hval⟩ := unlink_spec hseg hnd
  have hnext : (h p).bind (·.next) = (s2 ++ nodes G2).head? := by
    obtain ⟨-, n, hn, -, hnext, -⟩ := seg_append.1 hseg
    rw [hn, Option.bind_some, hnext, Option.or_none]
  have hps1 : p ∉ s1 := fun hmem =>
    (List.nodup_append.1 hnd).2.2 p (List.mem_append_right _ hmem) p (List.mem_cons_self ..) rfl
  have hwithout : (ht b).without p ((h p).bind (·.next)) =
      ⟨BitVec.ofNat 32 (s1 ++ s2).length, (s1 ++ s2).head?⟩ := by
    have hlen : (s1 ++ p :: s2).length = (s1 ++ s2).length + 1 := by
      simp only [List.length_append, List.length_cons]
      omega
    have hlt : (s1 ++ s2).length < 2 ^ 31 := by
      simp only [List.length_append, List.length_cons] at hsmall ⊢
      omega
    unfold Bucket.without
    rw [hht, hnext]
    dsimp only
    rw [hlen, ofNat_succ_sub_one]
    congr 1
    by_cases h0 : (s1 ++ s2).length = 0
    · rw [if_pos ((sle_zero_iff hlt).2 h0), List.length_eq_zero_iff.1 h0]
      rfl
    · rw [if_neg (fun h => h0 ((sle_zero_iff hlt).1 h))]
      cases s1 with
      | nil =>
        refine (if_pos rfl).trans ?_
        cases s2 with
        | nil => exact absurd rfl h0
        | cons y s2 => rfl
      | cons y s1 =>
        have hyp : y ≠ p := fun h => hps1 (h ▸ List.mem_cons_self ..)
        exact if_neg fun h => hyp (Option.some.inj h)
  rw [hb, hwithout]
  have hperm : ((nodes G1 ++ s1) ++ p :: (s2 ++ nodes G2)).Perm
      (p :: ((nodes G1 ++ s1) ++ (s2 ++ nodes G2))) := List.perm_middle
  have hnd' := (List.nodup_cons.1 (hperm.nodup_iff.1 hnd)).2
  by_cases h0 : s1 ++ s2 = []
  · obtain ⟨rfl, rfl⟩ := List.append_eq_nil_iff.1 h0
    have hnodes' : nodes (G1 ++ G2) = (nodes G1 ++ []) ++ ([] ++ nodes G2) := by simp
    refine ⟨G1 ++ G2, ⟨?_, ?_, ?_, ?_⟩, ?_, hval⟩
    · rw [hnodes']
      exact hseg'
    · rw [hnodes']
      exact hfirst
    · rw [hnodes']
      exact hnd'
    · have hother : ∀ g ∈ G1 ++ G2, g ∈ G1 ++ (b, [] ++ p :: []) :: G2 ∧ g.1 ≠ b := by
        intro g hg
        rcases List.mem_append.1 hg with hg | hg
        · exact ⟨List.mem_append_left _ hg, hL.grouped.ne_of_mem (.inl hg)⟩
        · exact ⟨List.mem_append_right _ (List.mem_cons_of_mem _ hg), hL.grouped.ne_of_mem (.inr hg)⟩
      have hk := hL.grouped.keys
      rw [List.map_append, List.map_cons] at hk
      constructor
      · rw [List.map_append]
        exact (List.nodup_cons.1 (List.perm_middle.nodup_iff.1 hk)).2
      · exact fun g hg => hL.grouped.ne g (hother g hg).1
      · exact fun g hg => hL.grouped.bucket g (hother g hg).1
      · intro g hg
        rw [Function.update_of_ne (hother g hg).2]
        exact hL.grouped.table g (hother g hg).1
      · intro b' hb'
        by_cases hbb : b' = b
        · rw [hbb]
          exact Function.update_self ..
        · rw [Function.update_of_ne hbb]
          apply hL.grouped.empty
          intro hmem
          rw [List.map_append, List.map_cons, List.mem_append, List.mem_cons] at hmem
          rw [List.map_append, List.mem_append] at hb'
          rcases hmem with hmem | hmem | hmem
          · exact hb' (.inl hmem)
          · exact hbb hmem
          · exact hb' (.inr hmem)
    · rw [hnodes']
      exact hperm
  · have hnodes' : nodes (G1 ++ (b, s1 ++ s2) :: G2) = (nodes G1 ++ s1) ++ (s2 ++ nodes G2) := by simp
    refine ⟨G1 ++ (b, s1 ++ s2) :: G2, ⟨?_, ?_, ?_, ?_⟩, ?_, hval⟩
    · rw [hnodes']
      exact hseg'
    · rw [hnodes']
      exact hfirst
    · rw [hnodes']
      exact hnd'
    · refine hL.grouped.replace h0 fun q hq => hL.grouped.bucket _ hg q ?_
      rcases List.mem_append.1 hq with hq | hq
      · exact List.mem_append_left _ hq
      · exact List.mem_append_right _ (List.mem_cons_of_mem _ hq)
    · rw [hnodes']
      exact hperm

end

/-! ## Rehashing -/

section
variable {mem : Mem} {t : Hash D}

/-- The bucket an element belongs to. -/
def Hash.bucketOf (t : Hash D) (mem : Mem) (p : Nat) : Nat :=
  match t.heap.val p with
  | some e => t.index (e.key mem) e.nKey
  | none => 0

/-- Tables that differ in their links and buckets only. -/
structure SameEles (t t' : Hash D) : Prop where
  keyClass : t'.keyClass = t.keyClass
  copyKey : t'.copyKey = t.copyKey
  count : t'.count = t.count
  val : ∀ p, t'.heap.val p = t.heap.val p

theorem bucketOf_congr {t t' : Hash D} (h : SameEles t t') (hs : t'.htsize = t.htsize) :
    t'.bucketOf mem = t.bucketOf mem := by
  funext p
  unfold Hash.bucketOf Hash.index
  rw [h.val p, h.keyClass, hs]

theorem rehashLoop_spec (fuel : Nat) : ∀ {t : Hash D} {ht : Nat → Bucket} {G : Groups} {rest : List Nat}
    {prev : Option Nat}, t.ht = some ht → Linked (t.bucketOf mem) t.heap t.first ht G →
    Seg t.heap prev rest none → (rest ++ nodes G).Nodup → rest.length ≤ fuel →
    ∃ ht' G', (rehashLoop mem fuel rest.head? t).ht = some ht' ∧
      Linked (t.bucketOf mem) (rehashLoop mem fuel rest.head? t).heap
        (rehashLoop mem fuel rest.head? t).first ht' G' ∧
      (nodes G').Perm (rest ++ nodes G) ∧ SameEles t (rehashLoop mem fuel rest.head? t) ∧
      (rehashLoop mem fuel rest.head? t).htsize = t.htsize := by
  induction fuel with
  | zero =>
    intro t ht G rest prev hht hL _ _ hle
    have hnil : rest = [] := List.length_eq_zero_iff.1 (by omega)
    subst hnil
    exact ⟨ht, G, hht, hL, List.Perm.refl _, ⟨rfl, rfl, rfl, fun _ => rfl⟩, rfl⟩
  | succ fuel ih =>
    intro t ht G rest prev hht hL hseg hnd hle
    cases rest with
    | nil => exact ⟨ht, G, hht, hL, List.Perm.refl _, ⟨rfl, rfl, rfl, fun _ => rfl⟩, rfl⟩
    | cons p rest =>
      obtain ⟨n, hn, -, hnext, hrest⟩ := hseg
      rw [List.cons_append, List.nodup_cons, List.mem_append, not_or] at hnd
      obtain ⟨⟨hprest, hpG⟩, hnd⟩ := hnd
      have hb : t.index (n.val.key mem) n.val.nKey = t.bucketOf mem p := by
        unfold Hash.bucketOf Heap.val
        rw [hn]
        rfl
      obtain ⟨G', hL', hperm, hframe⟩ := hL.linkIn hpG hn
      have hstep : rehashLoop mem (fuel + 1) (p :: rest).head? t =
          rehashLoop mem fuel rest.head? (t.linkIn ht (t.bucketOf mem p) p) := by
        rw [List.head?_cons, rehashLoop, hn, hht, ← hb]
        dsimp only
        rw [hnext, Option.or_none]
      have hsame : SameEles t (t.linkIn ht (t.bucketOf mem p) p) :=
        ⟨rfl, rfl, rfl, fun q => val_link ..⟩
      have hrest' : Seg (t.linkIn ht (t.bucketOf mem p) p).heap (some p) rest none :=
        hrest.congr fun q hq => hframe q fun hmem => by
          rcases List.mem_cons.1 hmem with rfl | hmem
          · exact hprest hq
          · exact (List.nodup_append.1 hnd).2.2 q hq q hmem rfl
      have hnd' : (rest ++ nodes G').Nodup := by
        rw [(hperm.append_left rest).nodup_iff, List.perm_middle.nodup_iff, List.nodup_cons,
          List.mem_append, not_or]
        exact ⟨⟨hprest, hpG⟩, hnd⟩
      have hbucket := @bucketOf_congr D mem _ _ hsame rfl
      obtain ⟨ht'', G'', h1, h2, h3, h4, h5⟩ := ih rfl (by rw [hbucket]; exact hL') hrest' hnd'
        (by simpa using hle)
      rw [hbucket] at h2
      rw [hstep]
      refine ⟨ht'', G'', h1, h2, ?_, ?_, h5⟩
      · exact h3.trans ((hperm.append_left rest).trans List.perm_middle)
      · exact ⟨h4.keyClass, h4.copyKey, h4.count, fun q => (h4.val q).trans (hsame.val q)⟩

/-! ## Searching -/

/-- The canonical key of an element. -/
def Hash.canonAt (t : Hash D) (mem : Mem) (p : Nat) : CInt × Bytes :=
  match t.heap.val p with
  | some e => canon t.keyClass (e.key mem) e.nKey
  | none => (0, [])

/-- A table, but for its count: one list in groups, valid keys, and no two equal. -/
structure Shape (mem : Mem) (t : Hash D) (G : Groups) : Prop where
  seg : Seg t.heap none (nodes G) none
  first : t.first = (nodes G).head?
  nodup : (nodes G).Nodup
  table : match t.ht with
    | some ht => Grouped (t.bucketOf mem) ht G ∧ t.htsize ≠ 0
    | none => G = [] ∧ t.htsize = 0
  valid : ∀ p ∈ nodes G, ∀ e, t.heap.val p = some e → Valid t.keyClass (e.key mem) e.nKey
  distinct : ((nodes G).map (t.canonAt mem)).Nodup

theorem Shape.linked {G : Groups} {ht : Nat → Bucket} (hS : Shape mem t G) (hht : t.ht = some ht) :
    Linked (t.bucketOf mem) t.heap t.first ht G := by
  have htab := hS.table
  rw [hht] at htab
  exact ⟨hS.seg, hS.first, hS.nodup, htab.1⟩

/-- An element is there with its value. -/
theorem Shape.val {G : Groups} (hS : Shape mem t G) {p : Nat} (hp : p ∈ nodes G) :
    ∃ e, t.heap.val p = some e := by
  obtain ⟨n, hn⟩ := hS.seg.live p hp
  exact ⟨n.val, by rw [Heap.val, hn]; rfl⟩

/-- An element with the key is in the bucket of the key. -/
theorem Shape.bucketOf_eq {G : Groups} (hS : Shape mem t G) {p : Nat} (hp : p ∈ nodes G) {key : Bytes}
    {len : CInt} (hc : t.canonAt mem p = canon t.keyClass key len) :
    t.bucketOf mem p = t.index key len := by
  obtain ⟨e, he⟩ := hS.val hp
  have hv := hS.valid p hp e he
  unfold Hash.canonAt at hc
  unfold Hash.bucketOf Hash.index
  rw [he] at hc ⊢
  dsimp only at hc ⊢
  rw [hash_congr hv hc]

theorem searchLoop_eq (key : Bytes) (len : CInt) (rest : List Nat) : ∀ {seg : List Nat}
    {prev : Option Nat}, Seg t.heap prev (seg ++ rest) none →
    searchLoop mem t key len seg.length (seg ++ rest).head? =
      seg.find? fun p => t.canonAt mem p = canon t.keyClass key len := by
  intro seg
  induction seg with
  | nil =>
    intro prev _
    cases rest <;> rfl
  | cons p seg ih =>
    intro prev hs
    obtain ⟨n, hn, -, hnext, hs⟩ := hs
    change n.next = (seg ++ rest).head?.or none at hnext
    have hcanon : t.canonAt mem p = canon t.keyClass (n.val.key mem) n.val.nKey := by
      unfold Hash.canonAt Heap.val
      rw [hn]
      rfl
    rw [List.cons_append, List.head?_cons, List.length_cons, searchLoop, hn, List.find?_cons]
    dsimp only
    rw [hnext, Option.or_none, ih hs]
    by_cases hc : canon t.keyClass (n.val.key mem) n.val.nKey = canon t.keyClass key len
    · rw [if_pos ((cmpFn_iff ..).2 hc), hcanon, decide_eq_true hc]
    · rw [if_neg (fun h => hc ((cmpFn_iff ..).1 h)), hcanon, decide_eq_false hc]

/-- A search finds the element with the key, or there is none. -/
theorem hashSearch_spec {G : Groups} (hS : Shape mem t G) (hsmall : (nodes G).length < 2 ^ 31)
    (key : Bytes) (len : CInt) :
    match hashSearch mem t key len (t.index key len) with
    | some p => p ∈ nodes G ∧ t.canonAt mem p = canon t.keyClass key len
    | none => ∀ p ∈ nodes G, t.canonAt mem p ≠ canon t.keyClass key len := by
  have htab := hS.table
  unfold hashSearch
  cases hht : t.ht with
  | none =>
    rw [hht] at htab
    rw [htab.1]
    exact fun p hp => absurd hp List.not_mem_nil
  | some ht =>
    rw [hht] at htab
    dsimp only
    by_cases hb : t.index key len ∈ G.map (·.1)
    · obtain ⟨G1, G2, x, seg, rfl⟩ := htab.1.mem_iff.1 hb
      have hbucket := htab.1.table (t.index key len, x :: seg) (by simp)
      dsimp only at hbucket
      have hseg : Seg t.heap ((nodes G1).getLast?.or none) ((x :: seg) ++ nodes G2) none := by
        have hs := hS.seg
        rw [nodes_append, nodes_cons] at hs
        exact (seg_append.1 hs).2
      have hlen : (BitVec.ofNat 32 (x :: seg).length).toNat = (x :: seg).length := by
        rw [nodes_append, nodes_cons, List.length_append, List.length_append] at hsmall
        dsimp only at hsmall
        rw [BitVec.toNat_ofNat]
        omega
      have hmem : ∀ p ∈ x :: seg, p ∈ nodes (G1 ++ (t.index key len, x :: seg) :: G2) := by
        intro p hp
        rw [nodes_append, nodes_cons]
        exact List.mem_append_right _ (List.mem_append_left _ hp)
      rw [hbucket]
      dsimp only
      have hloop := @searchLoop_eq D mem t key len (nodes G2) _ _ hseg
      rw [hlen]
      change searchLoop mem t key len (x :: seg).length (x :: seg).head? = _ at hloop
      rw [hloop]
      cases hfind : (x :: seg).find? fun p => t.canonAt mem p = canon t.keyClass key len with
      | some p =>
        exact ⟨hmem p (List.mem_of_find?_eq_some hfind), by simpa using List.find?_some hfind⟩
      | none =>
        intro p hp hc
        have hbp := hS.bucketOf_eq hp hc
        obtain ⟨g, hg, hpg⟩ := List.mem_flatMap.1 hp
        have hgb := htab.1.bucket g hg p hpg
        have hgx : g = (t.index key len, x :: seg) := by
          rcases List.mem_append.1 hg with h1 | h1
          · exact absurd (hgb.symm.trans hbp) (htab.1.ne_of_mem (.inl h1))
          · rcases List.mem_cons.1 h1 with h1 | h1
            · exact h1
            · exact absurd (hgb.symm.trans hbp) (htab.1.ne_of_mem (.inr h1))
        rw [hgx] at hpg
        exact absurd hc (by simpa using List.find?_eq_none.1 hfind p hpg)
    · rw [htab.1.empty _ hb]
      have hloop : searchLoop mem t key len (0 : CInt).toNat none = none := rfl
      rw [hloop]
      intro p hp hc
      obtain ⟨g, hg, hpg⟩ := List.mem_flatMap.1 hp
      have hgb := htab.1.bucket g hg p hpg
      rw [hS.bucketOf_eq hp hc] at hgb
      exact hb (hgb ▸ List.mem_map_of_mem hg)

/-! ## The map -/

/-- The data stored under canonical keys. -/
abbrev Map (D : Type) := CInt × Bytes → Option D

/-- A table holds a map. -/
structure Holds (mem : Mem) (t : Hash D) (G : Groups) (M : Map D) : Prop where
  shape : Shape mem t G
  count : t.count = BitVec.ofNat 32 (nodes G).length
  small : (nodes G).length < 2 ^ 31
  map : ∀ c d, M c = some d ↔
    ∃ p ∈ nodes G, t.canonAt mem p = c ∧ (t.heap.val p).map (·.data) = some d

theorem Grouped.congr {b b' : Nat → Nat} {ht : Nat → Bucket} {G : Groups} (hG : Grouped b ht G)
    (h : ∀ p ∈ nodes G, b' p = b p) : Grouped b' ht G := by
  refine ⟨hG.keys, hG.ne, fun g hg p hp => ?_, hG.table, hG.empty⟩
  rw [h p (List.mem_flatMap.2 ⟨g, hg, hp⟩), hG.bucket g hg p hp]

/-- The caller's memory may change, but not under the keys that a table has no copy of. -/
def Keeps (t : Hash D) (mem mem' : Mem) : Prop :=
  ∀ p e, t.heap.val p = some e → t.keyClass ≠ .int →
    (e.key mem').take e.nKey.toNat = (e.key mem).take e.nKey.toNat

theorem canon_of_keeps {mem' : Mem} (hk : Keeps t mem mem') {p : Nat} {e : Ele D}
    (he : t.heap.val p = some e) :
    canon t.keyClass (e.key mem') e.nKey = canon t.keyClass (e.key mem) e.nKey := by
  by_cases hint : t.keyClass = .int
  · rw [hint]
    rfl
  · rw [← canon_take, hk p e he hint, canon_take]

theorem Holds.keeps {mem' : Mem} {G : Groups} {M : Map D} (hH : Holds mem t G M)
    (hk : Keeps t mem mem') : Holds mem' t G M := by
  have hcanon : ∀ p, t.canonAt mem' p = t.canonAt mem p := by
    intro p
    unfold Hash.canonAt
    cases he : t.heap.val p with
    | none => rfl
    | some e => exact canon_of_keeps hk he
  have hbucket : ∀ p ∈ nodes G, t.bucketOf mem' p = t.bucketOf mem p := by
    intro p hp
    obtain ⟨e, he⟩ := hH.shape.val hp
    unfold Hash.bucketOf Hash.index
    rw [he]
    dsimp only
    rw [hash_congr (hH.shape.valid p hp e he) (canon_of_keeps hk he).symm]
  refine ⟨⟨hH.shape.seg, hH.shape.first, hH.shape.nodup, ?_, fun p hp e he => ?_, ?_⟩, hH.count,
    hH.small, ?_⟩
  · have htab := hH.shape.table
    cases hht : t.ht with
    | none =>
      rw [hht] at htab
      exact htab
    | some ht =>
      rw [hht] at htab
      exact ⟨htab.1.congr hbucket, htab.2⟩
  · intro hs
    obtain ⟨hpos, hle, hz⟩ := hH.shape.valid p hp e he hs
    have htake := hk p e he (by rw [hs]; exact nofun)
    have hlen := congrArg List.length htake
    rw [List.length_take, List.length_take] at hlen
    refine ⟨hpos, by omega, ?_⟩
    have hpre : (e.key mem').take (e.nKey.toNat - 1) = (e.key mem).take (e.nKey.toNat - 1) := by
      have h := congrArg (List.take (e.nKey.toNat - 1)) htake
      rwa [List.take_take, List.take_take, min_eq_left (by omega)] at h
    rwa [hpre]
  · rw [funext hcanon]
    exact hH.shape.distinct
  · intro c d
    rw [hH.map c d]
    simp only [hcanon]

/-- What a search finds is what the map has. -/
theorem Holds.search {G : Groups} {M : Map D} (hH : Holds mem t G M) (key : Bytes) (len : CInt) :
    match hashSearch mem t key len (t.index key len) with
    | some p => p ∈ nodes G ∧ t.canonAt mem p = canon t.keyClass key len ∧
        t.bucketOf mem p = t.index key len ∧ (t.heap p).map (·.val.data) = M (canon t.keyClass key len) ∧
        t.ht ≠ none
    | none => (∀ p ∈ nodes G, t.canonAt mem p ≠ canon t.keyClass key len) ∧
        M (canon t.keyClass key len) = none := by
  have hspec := hashSearch_spec hH.shape hH.small key len
  cases hs : hashSearch mem t key len (t.index key len) with
  | some p =>
    rw [hs] at hspec
    obtain ⟨hp, hc⟩ := hspec
    obtain ⟨e, he⟩ := hH.shape.val hp
    have hd : (t.heap p).map (·.val.data) = some e.data := by
      have h := congrArg (Option.map (·.data)) he
      unfold Heap.val at h
      rwa [Option.map_map] at h
    refine ⟨hp, hc, hH.shape.bucketOf_eq hp hc, ?_, ?_⟩
    · rw [hd, eq_comm, hH.map]
      exact ⟨p, hp, hc, by rw [he]; rfl⟩
    · intro hht
      have htab := hH.shape.table
      rw [hht] at htab
      rw [htab.1] at hp
      cases hp
  | none =>
    rw [hs] at hspec
    refine ⟨hspec, ?_⟩
    cases hM : M (canon t.keyClass key len) with
    | none => rfl
    | some d =>
      obtain ⟨p, hp, hc, -⟩ := (hH.map _ d).1 hM
      exact absurd hc (hspec p hp)

theorem hashFind_spec {G : Groups} {M : Map D} (hH : Holds mem t G M) (pKey : KeyPtr) (len : CInt) :
    hashFind mem t pKey len = M (canon t.keyClass (pKey.bytes mem) len) := by
  have hspec := hH.search (pKey.bytes mem) len
  unfold hashFind
  cases hht : t.ht with
  | none =>
    have hs : hashSearch mem t (pKey.bytes mem) len (t.index (pKey.bytes mem) len) = none := by
      unfold hashSearch
      rw [hht]
    rw [hs] at hspec
    exact hspec.2.symm
  | some ht =>
    dsimp only
    cases hs : hashSearch mem t (pKey.bytes mem) len (t.index (pKey.bytes mem) len) with
    | none =>
      rw [hs] at hspec
      exact hspec.2.symm
    | some p =>
      rw [hs] at hspec
      exact hspec.2.2.2.1

/-! ## Removing and replacing -/

theorem Holds.remove {G : Groups} {M : Map D} (hH : Holds mem t G M) {ht : Nat → Bucket}
    (hht : t.ht = some ht) {p : Nat} (hp : p ∈ nodes G) :
    ∃ G', Holds mem (hashRemove t ht p (t.bucketOf mem p)) G'
      (Function.update M (t.canonAt mem p) none) := by
  obtain ⟨G', hL, hperm, hval⟩ := (hH.shape.linked hht).unlink hp hH.small
  have hnd := hperm.nodup_iff.1 hH.shape.nodup
  have hpG' := (List.nodup_cons.1 hnd).1
  have hmem : ∀ q, q ∈ nodes G' → q ∈ nodes G ∧ q ≠ p := fun q hq =>
    ⟨hperm.mem_iff.2 (List.mem_cons_of_mem _ hq), ne_of_mem_of_not_mem hq hpG'⟩
  have htab := hH.shape.table
  rw [hht] at htab
  let t' := hashRemove t ht p (t.bucketOf mem p)
  have hval' : ∀ q, q ≠ p → t'.heap.val q = t.heap.val q := hval
  have hcanon : ∀ q, q ≠ p → t'.canonAt mem q = t.canonAt mem q := by
    intro q hq
    unfold Hash.canonAt
    rw [hval' q hq]
    rfl
  have hbucket : ∀ q ∈ nodes G', t'.bucketOf mem q = t.bucketOf mem q := by
    intro q hq
    unfold Hash.bucketOf
    rw [hval' q (hmem q hq).2]
    rfl
  have hht' : t'.ht = some (Function.update ht (t.bucketOf mem p)
      ((ht (t.bucketOf mem p)).without p ((t.heap p).bind (·.next)))) := rfl
  have hdist := (hperm.map (t.canonAt mem)).nodup_iff.1 hH.shape.distinct
  rw [List.map_cons, List.nodup_cons] at hdist
  refine ⟨G', ⟨⟨hL.seg, hL.first, hL.nodup, ?_, fun q hq e he => ?_, ?_⟩, ?_, ?_, fun c d => ?_⟩⟩
  · rw [hht']
    exact ⟨hL.grouped.congr hbucket, htab.2⟩
  · rw [hval' q (hmem q hq).2] at he
    exact hH.shape.valid q (hmem q hq).1 e he
  · rw [List.map_congr_left fun q hq => hcanon q (hmem q hq).2]
    exact hdist.2
  · have hcount : t'.count = t.count - 1 := rfl
    rw [hcount, hH.count, hperm.length_eq, List.length_cons, ofNat_succ_sub_one]
  · have hlen := hperm.length_eq
    have hsmall := hH.small
    rw [List.length_cons] at hlen
    omega
  · by_cases hc : c = t.canonAt mem p
    · rw [hc, Function.update_self]
      refine ⟨nofun, ?_⟩
      rintro ⟨q, hq, hcq, -⟩
      rw [hcanon q (hmem q hq).2] at hcq
      exact absurd (hcq ▸ List.mem_map_of_mem hq) hdist.1
    · rw [Function.update_of_ne hc, hH.map]
      constructor
      · rintro ⟨q, hq, hcq, hd⟩
        have hqp : q ≠ p := fun h => hc (by rw [← hcq, h])
        have hq' := (List.mem_cons.1 (hperm.mem_iff.1 hq)).resolve_left hqp
        exact ⟨q, hq', by rw [hcanon q hqp, hcq], by rw [hval' q hqp, hd]⟩
      · rintro ⟨q, hq, hcq, hd⟩
        have hqp := (hmem q hq).2
        exact ⟨q, (hmem q hq).1, by rw [← hcq, hcanon q hqp], by rw [← hd, hval' q hqp]⟩

/-- A table with other data for an element. -/
def Hash.setData (t : Hash D) (p : Nat) (d : D) : Hash D :=
  { t with heap := Function.update t.heap p
            ((t.heap p).map fun n => { n with val := { n.val with data := d } }) }

theorem setData_val (p : Nat) (d : D) (q : Nat) : (t.setData p d).heap.val q =
    if q = p then (t.heap.val p).map fun e => { e with data := d } else t.heap.val q := by
  unfold Hash.setData Heap.val
  by_cases hq : q = p
  · subst hq
    rw [if_pos rfl]
    dsimp only
    rw [Function.update_self, Option.map_map, Option.map_map]
    rfl
  · rw [if_neg hq]
    dsimp only
    rw [Function.update_of_ne hq]

theorem Holds.replace {G : Groups} {M : Map D} (hH : Holds mem t G M) {p : Nat} (hp : p ∈ nodes G)
    (d : D) :
    Holds mem (t.setData p d) G (Function.update M (t.canonAt mem p) (some d)) := by
  have hkeep : ∀ q e', (t.setData p d).heap.val q = some e' → ∃ e, t.heap.val q = some e ∧
      e'.pKey = e.pKey ∧ e'.nKey = e.nKey := by
    intro q e' he'
    rw [setData_val] at he'
    split at he'
    · rename_i hq
      obtain ⟨e, he, rfl⟩ := Option.map_eq_some_iff.1 he'
      exact ⟨e, hq ▸ he, rfl, rfl⟩
    · exact ⟨e', he', rfl, rfl⟩
  have hcanon : ∀ q, (t.setData p d).canonAt mem q = t.canonAt mem q := by
    intro q
    unfold Hash.canonAt
    by_cases hq : q = p
    · rw [setData_val, if_pos hq, hq]
      cases t.heap.val p <;> rfl
    · rw [setData_val, if_neg hq]
      rfl
  have hbucket : ∀ q, (t.setData p d).bucketOf mem q = t.bucketOf mem q := by
    intro q
    unfold Hash.bucketOf
    by_cases hq : q = p
    · rw [setData_val, if_pos hq, hq]
      cases t.heap.val p <;> rfl
    · rw [setData_val, if_neg hq]
      rfl
  refine ⟨⟨hH.shape.seg.update_val p fun v : Ele D => { v with data := d }, hH.shape.first,
    hH.shape.nodup, ?_, fun q hq e' he' => ?_, ?_⟩,
    hH.count, hH.small, fun c d' => ?_⟩
  · have htab := hH.shape.table
    change match t.ht with
      | some ht => Grouped ((t.setData p d).bucketOf mem) ht G ∧ t.htsize ≠ 0
      | none => G = [] ∧ t.htsize = 0
    rw [funext hbucket]
    exact htab
  · obtain ⟨e, he, hkey, hn⟩ := hkeep q e' he'
    have hv := hH.shape.valid q hq e he
    unfold Ele.key at hv ⊢
    rw [hkey, hn]
    exact hv
  · rw [funext hcanon]
    exact hH.shape.distinct
  · obtain ⟨e, he⟩ := hH.shape.val hp
    by_cases hc : c = t.canonAt mem p
    · rw [hc, Function.update_self]
      constructor
      · intro h
        refine ⟨p, hp, hcanon p, ?_⟩
        rw [setData_val, if_pos rfl, he]
        exact h
      · rintro ⟨q, hq, hcq, hd⟩
        rw [hcanon] at hcq
        have hqp : q = p := List.inj_on_of_nodup_map hH.shape.distinct hq hp hcq
        rw [hqp, setData_val, if_pos rfl, he] at hd
        exact hd
    · rw [Function.update_of_ne hc, hH.map]
      have hval : ∀ q, t.canonAt mem q = c → (t.setData p d).heap.val q = t.heap.val q := by
        intro q hcq
        rw [setData_val, if_neg fun h => hc (by rw [← hcq, h])]
      constructor
      · rintro ⟨q, hq, hcq, hd⟩
        exact ⟨q, hq, (hcanon q).trans hcq, by rw [hval q hcq, hd]⟩
      · rintro ⟨q, hq, hcq, hd⟩
        rw [hcanon] at hcq
        exact ⟨q, hq, hcq, by rw [← hval q hcq, hd]⟩

/-! ## Adding -/

/-- A table after `__rehash`, which may have failed: the same elements, in another order. -/
theorem Shape.rehash {G : Groups} (hS : Shape mem t G) (hfuel : (nodes G).length ≤ t.count.toNat)
    (newSize : CInt) (ok : Bool) : ∃ G', Shape mem (rehash mem t newSize ok) G' ∧
      (nodes G').Perm (nodes G) ∧ SameEles t (rehash mem t newSize ok) ∧
      ((rehash mem t newSize ok).htsize = 0 → t.htsize = 0 ∧ (ok = false ∨ newSize.sle 0 = true)) := by
  unfold HashTable.rehash
  by_cases hok : ok = true ∧ (0 : CInt).slt newSize = true
  · rw [if_pos hok]
    let t0 : Hash D := { t with first := none, htsize := newSize, ht := some fun _ => ⟨0, none⟩ }
    have hL0 : Linked (t0.bucketOf mem) t0.heap t0.first (fun _ => ⟨0, none⟩) [] :=
      ⟨trivial, rfl, List.nodup_nil, ⟨List.nodup_nil, nofun, nofun, nofun, fun _ _ => rfl⟩⟩
    obtain ⟨ht', G', hht', hL', hperm, hsame, hsize⟩ := rehashLoop_spec t.count.toNat rfl hL0 hS.seg
      (by rw [nodes_nil, List.append_nil]; exact hS.nodup) hfuel
    rw [nodes_nil, List.append_nil] at hperm
    rw [hS.first]
    have hcanon : (rehashLoop mem t.count.toNat (nodes G).head? t0).canonAt mem = t.canonAt mem := by
      funext p
      unfold Hash.canonAt
      rw [hsame.val p, hsame.keyClass]
    have hnew : newSize ≠ 0 := by
      rintro rfl
      exact absurd hok.2 (by decide)
    refine ⟨G', ⟨hL'.seg, hL'.first, hL'.nodup, ?_, fun p hp e he => ?_, ?_⟩, hperm,
      ⟨hsame.keyClass, hsame.copyKey, hsame.count, hsame.val⟩, fun h => ?_⟩
    · rw [hht']
      refine ⟨?_, by rw [hsize]; exact hnew⟩
      rw [bucketOf_congr hsame hsize]
      exact hL'.grouped
    · rw [hsame.val p] at he
      rw [hsame.keyClass]
      exact hS.valid p (hperm.mem_iff.1 hp) e he
    · rw [hcanon]
      exact ((hperm.map _).nodup_iff).2 hS.distinct
    · rw [hsize] at h
      exact absurd h hnew
  · rw [if_neg hok]
    refine ⟨G, hS, List.Perm.refl _, ⟨rfl, rfl, rfl, fun _ => rfl⟩, fun h => ⟨h, ?_⟩⟩
    cases ok with
    | false => exact .inl rfl
    | true =>
      refine .inr ?_
      rw [BitVec.sle_eq_not_slt]
      simpa using hok

/-- A table with the memory of a new element. -/
def Hash.place (t : Hash D) (p : Nat) (e : Ele D) : Hash D :=
  { t with heap := Function.update t.heap p (some ⟨none, none, e⟩) }

/-- A new element linked in. -/
theorem Shape.add {G : Groups} (hS : Shape mem t G) {ht : Nat → Bucket} (hht : t.ht = some ht) {p : Nat}
    (hp : t.heap p = none) {e : Ele D} (hv : Valid t.keyClass (e.key mem) e.nKey)
    (hnew : ∀ q ∈ nodes G, t.canonAt mem q ≠ canon t.keyClass (e.key mem) e.nKey) :
    ∃ G', Shape mem ((t.place p e).linkIn ht (t.index (e.key mem) e.nKey) p) G' ∧
      (nodes G').Perm (p :: nodes G) ∧
      ((t.place p e).linkIn ht (t.index (e.key mem) e.nKey) p).heap.val p = some e ∧
      ∀ q, q ≠ p → ((t.place p e).linkIn ht (t.index (e.key mem) e.nKey) p).heap.val q =
        t.heap.val q := by
  have hpG : p ∉ nodes G := by
    intro hmem
    obtain ⟨n, hn⟩ := hS.seg.live p hmem
    rw [hp] at hn
    cases hn
  have hval : ∀ q, (t.place p e).heap.val q = if q = p then some e else t.heap.val q := by
    intro q
    unfold Hash.place Heap.val
    dsimp only
    by_cases hq : q = p
    · rw [hq, Function.update_self, if_pos rfl]
      rfl
    · rw [Function.update_of_ne hq, if_neg hq]
  have hbp : (t.place p e).bucketOf mem p = t.index (e.key mem) e.nKey := by
    unfold Hash.bucketOf
    rw [hval, if_pos rfl]
    rfl
  have hbq : ∀ q ∈ nodes G, (t.place p e).bucketOf mem q = t.bucketOf mem q := by
    intro q hq
    unfold Hash.bucketOf
    rw [hval, if_neg (ne_of_mem_of_not_mem hq hpG)]
    rfl
  have hL : Linked ((t.place p e).bucketOf mem) (t.place p e).heap (t.place p e).first ht G := by
    obtain ⟨hseg, hfirst, hnd, hgr⟩ := hS.linked hht
    refine ⟨hseg.congr fun q hq => ?_, hfirst, hnd, hgr.congr hbq⟩
    exact Function.update_of_ne (ne_of_mem_of_not_mem hq hpG) _ _
  have hn : (t.place p e).heap p = some ⟨none, none, e⟩ := Function.update_self ..
  obtain ⟨G', hL', hperm, -⟩ := hL.linkIn hpG hn
  rw [hbp] at hL'
  let t' := (t.place p e).linkIn ht (t.index (e.key mem) e.nKey) p
  have hval' : ∀ q, t'.heap.val q = if q = p then some e else t.heap.val q := fun q =>
    (val_link ..).trans (hval q)
  have hsame : SameEles (t.place p e) t' := ⟨rfl, rfl, rfl, fun q => (hval' q).trans (hval q).symm⟩
  have hcanonp : t'.canonAt mem p = canon t.keyClass (e.key mem) e.nKey := by
    unfold Hash.canonAt
    rw [hval', if_pos rfl]
    rfl
  have hcanon : ∀ q ∈ nodes G, t'.canonAt mem q = t.canonAt mem q := by
    intro q hq
    unfold Hash.canonAt
    rw [hval', if_neg (ne_of_mem_of_not_mem hq hpG)]
    rfl
  have htab := hS.table
  rw [hht] at htab
  refine ⟨G', ⟨hL'.seg, hL'.first, hL'.nodup, ?_, fun q hq e' he' => ?_, ?_⟩, hperm, ?_, fun q hq => ?_⟩
  · have hht' : t'.ht = some (Function.update ht (t.index (e.key mem) e.nKey)
        ⟨(ht (t.index (e.key mem) e.nKey)).count + 1, some p⟩) := rfl
    change match t'.ht with
      | some ht => Grouped (t'.bucketOf mem) ht G' ∧ t'.htsize ≠ 0
      | none => G' = [] ∧ t'.htsize = 0
    rw [hht', bucketOf_congr hsame rfl]
    exact ⟨hL'.grouped, htab.2⟩
  · change t'.heap.val q = some e' at he'
    rw [hval'] at he'
    split at he'
    · cases he'
      exact hv
    · rename_i hqp
      exact hS.valid q ((List.mem_cons.1 (hperm.mem_iff.1 hq)).resolve_left hqp) e' he'
  · change ((nodes G').map (t'.canonAt mem)).Nodup
    rw [(hperm.map _).nodup_iff, List.map_cons, List.nodup_cons, hcanonp, List.map_congr_left hcanon]
    refine ⟨fun hmem => ?_, hS.distinct⟩
    obtain ⟨q, hq, hc⟩ := List.mem_map.1 hmem
    exact hnew q hq hc
  · exact (hval' p).trans (if_pos rfl)
  · exact (hval' q).trans (if_neg hq)

/-- The allocations that an insertion may need. -/
def Alloc.Fails (al : Alloc) : Prop := al.elem = none ∨ al.key = false ∨ al.table = false

/-- What an insertion may do to a map: data for a key, or no data; nothing where an allocation
fails. -/
inductive Inserts (M : Map D) (c : CInt × Bytes) (al : Alloc) : Option D → Option D → Map D → Prop
  | replace {old d : D} : M c = some old → Inserts M c al (some d) (some old) (Function.update M c (some d))
  | remove {old : D} : M c = some old → Inserts M c al none (some old) (Function.update M c none)
  | absent : M c = none → Inserts M c al none none M
  | add {d : D} : M c = none → Inserts M c al (some d) none (Function.update M c (some d))
  | noMem {d : D} : M c = none → al.Fails → Inserts M c al (some d) (some d) M

/-- The table as it is before the new element is linked in. -/
theorem Holds.grow {G : Groups} {M : Map D} (hH : Holds mem t G M)
    (hroom : (nodes G).length + 1 < 2 ^ 31) (ok : Bool) :
    let t1 : Hash D := { t with count := t.count + 1 }
    let t2 := if t1.htsize = 0 then HashTable.rehash mem t1 8 ok else t1
    let t3 := if t2.htsize.slt t2.count then HashTable.rehash mem t2 (t2.htsize * 2) ok else t2
    (t2.htsize = 0 → ok = false ∧ { t2 with count := 0 } = t) ∧
      (t2.htsize ≠ 0 → ∃ G', Shape mem t3 G' ∧ (nodes G').Perm (nodes G) ∧ SameEles t1 t3 ∧
        t3.ht ≠ none) := by
  intro t1 t2 t3
  have hcount : t1.count.toNat = (nodes G).length + 1 := by
    have h1 : t1.count = BitVec.ofNat 32 ((nodes G).length + 1) := by
      rw [BitVec.ofNat_add, ← hH.count]
      rfl
    rw [h1, BitVec.toNat_ofNat]
    omega
  have hS1 : Shape mem t1 G :=
    ⟨hH.shape.seg, hH.shape.first, hH.shape.nodup, hH.shape.table, hH.shape.valid, hH.shape.distinct⟩
  have hnone : ∀ {t' : Hash D} {G' : Groups}, Shape mem t' G' → t'.ht = none → t'.htsize = 0 := by
    intro t' G' hS hht
    have htab := hS.table
    rw [hht] at htab
    exact htab.2
  obtain ⟨G2, hS2, hperm2, hsame2, hzero2⟩ : ∃ G2, Shape mem t2 G2 ∧ (nodes G2).Perm (nodes G) ∧
      SameEles t1 t2 ∧ (t2.htsize = 0 → ok = false ∧ t1.htsize = 0) := by
    by_cases h0 : t1.htsize = 0
    · have ht2 : t2 = HashTable.rehash mem t1 8 ok := if_pos h0
      obtain ⟨G2, hS2, hperm, hsame, hz⟩ := hS1.rehash (by omega) 8 ok
      rw [ht2]
      refine ⟨G2, hS2, hperm, hsame, fun h => ⟨?_, h0⟩⟩
      rcases (hz h).2 with h | h
      · exact h
      · exact absurd h (by decide)
    · have ht2 : t2 = t1 := if_neg h0
      rw [ht2]
      exact ⟨G, hS1, List.Perm.refl _, ⟨rfl, rfl, rfl, fun _ => rfl⟩, fun h => absurd h h0⟩
  constructor
  · intro h0
    obtain ⟨hok, h1⟩ := hzero2 h0
    have ht2 : t2 = t1 := by
      have h : t2 = HashTable.rehash mem t1 8 ok := if_pos h1
      rw [h, hok]
      rfl
    have hG : G = [] := by
      have htab := hH.shape.table
      cases hht : t.ht with
      | none =>
        rw [hht] at htab
        exact htab.1
      | some ht =>
        rw [hht] at htab
        exact absurd h1 htab.2
    have hzero : t.count = 0 := by
      rw [hH.count, hG]
      rfl
    refine ⟨hok, ?_⟩
    rw [ht2, ← hzero]
  · intro h0
    by_cases hbig : t2.htsize.slt t2.count = true
    · have ht3 : t3 = HashTable.rehash mem t2 (t2.htsize * 2) ok := if_pos hbig
      have hfuel : (nodes G2).length ≤ t2.count.toNat := by
        rw [hperm2.length_eq, hsame2.count]
        omega
      obtain ⟨G3, hS3, hperm3, hsame3, hz⟩ := hS2.rehash hfuel (t2.htsize * 2) ok
      rw [ht3]
      refine ⟨G3, hS3, hperm3.trans hperm2, ⟨hsame3.keyClass.trans hsame2.keyClass,
        hsame3.copyKey.trans hsame2.copyKey, hsame3.count.trans hsame2.count,
        fun q => (hsame3.val q).trans (hsame2.val q)⟩, fun h => ?_⟩
      exact h0 (hz (hnone hS3 h)).1
    · have ht3 : t3 = t2 := if_neg hbig
      rw [ht3]
      exact ⟨G2, hS2, hperm2, hsame2, fun h => h0 (hnone hS2 h)⟩

/-- An insertion does to a table what it does to the map. -/
theorem hashInsert_spec {G : Groups} {M : Map D} (hH : Holds mem t G M) (pKey : KeyPtr) (len : CInt)
    (data : Option D) (al : Alloc) (hfresh : ∀ p, al.elem = some p → t.heap p = none)
    (hv : data ≠ none → Valid t.keyClass (pKey.bytes mem) len)
    (hroom : data ≠ none → (nodes G).length + 1 < 2 ^ 31) :
    ∃ G' M', Holds mem (hashInsert mem t pKey len data al).2 G' M' ∧
      Inserts M (canon t.keyClass (pKey.bytes mem) len) al data
        (hashInsert mem t pKey len data al).1 M' := by
  have hspec := hH.search (pKey.bytes mem) len
  unfold hashInsert
  dsimp only
  cases hs : hashSearch mem t (pKey.bytes mem) len (t.index (pKey.bytes mem) len) with
  | some p =>
    rw [hs] at hspec
    obtain ⟨hp, hc, hb, hd, hht⟩ := hspec
    obtain ⟨ht, hht⟩ := Option.ne_none_iff_exists'.1 hht
    obtain ⟨e, he⟩ := hH.shape.val hp
    have hold : (t.heap p).map (·.val.data) = some e.data := by
      have h := congrArg (Option.map (·.data)) he
      unfold Heap.val at h
      rwa [Option.map_map] at h
    rw [hht, ← hc]
    dsimp only
    rw [hold] at hd ⊢
    rw [← hc] at hd
    cases data with
    | none =>
      obtain ⟨G', hH'⟩ := hH.remove hht hp
      rw [hb] at hH'
      exact ⟨G', _, hH', .remove hd.symm⟩
    | some d =>
      have hH' := hH.replace hp d
      unfold Hash.setData at hH'
      rw [hht] at hH'
      exact ⟨G, _, hH', .replace hd.symm⟩
  | none =>
    rw [hs] at hspec
    obtain ⟨hnew, hM⟩ := hspec
    dsimp only
    cases data with
    | none => exact ⟨G, M, hH, .absent hM⟩
    | some d =>
      cases hal : al.elem with
      | none => exact ⟨G, M, hH, .noMem hM (.inl hal)⟩
      | some p =>
        dsimp only
        by_cases hcopy : t.copyKey = true ∧ pKey ≠ .null ∧ ¬al.key = true
        · rw [if_pos hcopy]
          exact ⟨G, M, hH, .noMem hM (.inr (.inl (by simpa using hcopy.2.2)))⟩
        · rw [if_neg hcopy]
          let e : Ele D := ⟨d, if t.copyKey = true ∧ pKey ≠ .null then
            .copy ((pKey.bytes mem).take len.toNat) else pKey, len⟩
          have hroom' := hroom nofun
          have hvkey := hv nofun
          have hkey : canon t.keyClass (e.key mem) len = canon t.keyClass (pKey.bytes mem) len ∧
              Valid t.keyClass (e.key mem) len := by
            unfold Ele.key
            by_cases hc : t.copyKey = true ∧ pKey ≠ .null
            · have hek : e.pKey = .copy ((pKey.bytes mem).take len.toNat) := if_pos hc
              rw [hek]
              exact ⟨canon_take .., hvkey.take⟩
            · have hek : e.pKey = pKey := if_neg hc
              rw [hek]
              exact ⟨rfl, hvkey⟩
          obtain ⟨hz, hnz⟩ := hH.grow hroom' al.table
          dsimp only at hz hnz
          generalize (if t.htsize = 0 then HashTable.rehash mem { t with count := t.count + 1 } 8 al.table
            else { t with count := t.count + 1 }) = t2 at hz hnz ⊢
          by_cases h0 : t2.htsize = 0
          · rw [if_pos h0]
            obtain ⟨hfail, ht⟩ := hz h0
            rw [ht]
            exact ⟨G, M, hH, .noMem hM (.inr (.inr hfail))⟩
          · rw [if_neg h0]
            obtain ⟨G3, hS3, hperm3, hsame3, hht3⟩ := hnz h0
            generalize (if t2.htsize.slt t2.count = true then
              HashTable.rehash mem t2 (t2.htsize * 2) al.table else t2) = t3 at hS3 hsame3 hht3 ⊢
            obtain ⟨ht, hht⟩ := Option.ne_none_iff_exists'.1 hht3
            rw [hht]
            dsimp only
            have hval3 : ∀ q, t3.heap.val q = t.heap.val q := hsame3.val
            have hcls : t3.keyClass = t.keyClass := hsame3.keyClass
            have hcanon3 : ∀ q, t3.canonAt mem q = t.canonAt mem q := by
              intro q
              unfold Hash.canonAt
              rw [hval3, hcls]
            have hp3 : t3.heap p = none := by
              have h := hval3 p
              unfold Heap.val at h
              rw [hfresh p hal] at h
              exact Option.map_eq_none_iff.1 h
            have hidx : t3.index (pKey.bytes mem) len = t3.index (e.key mem) e.nKey := by
              unfold Hash.index
              rw [hcls, hash_congr hkey.2 hkey.1]
            obtain ⟨G', hS', hperm', hvp, hvq⟩ := hS3.add hht hp3 (e := e) (by rw [hcls]; exact hkey.2)
              (fun q hq => by
                rw [hcanon3, hcls, hkey.1]
                exact hnew q (hperm3.mem_iff.1 hq))
            rw [← hidx] at hS' hvp hvq
            have hcount3 : t3.count = t.count + 1 := hsame3.count
            have hpG : p ∉ nodes G := by
              intro hmem
              obtain ⟨n, hn⟩ := hH.shape.seg.live p hmem
              rw [hfresh p hal] at hn
              cases hn
            have hperm : (nodes G').Perm (p :: nodes G) := hperm'.trans (hperm3.cons p)
            refine ⟨G', Function.update M (canon t.keyClass (pKey.bytes mem) len) (some d),
              ⟨hS', ?_, ?_, fun c d' => ?_⟩, .add hM⟩
            · rw [hperm.length_eq, List.length_cons, BitVec.ofNat_add, ← hH.count]
              exact hcount3
            · rw [hperm.length_eq]
              exact hroom'
            · let t4 := (t3.place p e).linkIn ht (t3.index (pKey.bytes mem) len) p
              have hcp : t4.canonAt mem p = canon t.keyClass (pKey.bytes mem) len := by
                unfold Hash.canonAt
                rw [hvp]
                exact (congrArg (fun cls => canon cls (e.key mem) len) hcls).trans hkey.1
              have hcq : ∀ q, q ≠ p → t4.canonAt mem q = t.canonAt mem q := by
                intro q hq
                unfold Hash.canonAt
                rw [hvq q hq, hval3]
                have hcls4 : t4.keyClass = t.keyClass := hcls
                rw [hcls4]
              change _ ↔ ∃ q ∈ nodes G', t4.canonAt mem q = c ∧ (t4.heap.val q).map (·.data) = some d'
              by_cases hc : c = canon t.keyClass (pKey.bytes mem) len
              · rw [hc, Function.update_self]
                constructor
                · intro h
                  exact ⟨p, hperm.mem_iff.2 (List.mem_cons_self ..), hcp, by rw [hvp]; exact h⟩
                · rintro ⟨q, hq, hcq', hd⟩
                  by_cases hqp : q = p
                  · rw [hqp, hvp] at hd
                    exact hd
                  · rw [hcq q hqp] at hcq'
                    exact absurd hcq' (hnew q ((List.mem_cons.1 (hperm.mem_iff.1 hq)).resolve_left hqp))
              · rw [Function.update_of_ne hc, hH.map]
                constructor
                · rintro ⟨q, hq, hcq', hd⟩
                  have hqp := ne_of_mem_of_not_mem hq hpG
                  exact ⟨q, hperm.mem_iff.2 (List.mem_cons_of_mem _ hq), (hcq q hqp).trans hcq',
                    by rw [hvq q hqp, hval3]; exact hd⟩
                · rintro ⟨q, hq, hcq', hd⟩
                  have hqp : q ≠ p := fun h => hc (by rw [← hcq', h, hcp])
                  refine ⟨q, (List.mem_cons.1 (hperm.mem_iff.1 hq)).resolve_left hqp,
                    (hcq q hqp).symm.trans hcq', ?_⟩
                  rw [hvq q hqp, hval3] at hd
                  exact hd

theorem hashInit_holds (cls : KeyClass) (copyKey : Bool) :
    Holds mem (hashInit cls copyKey : Hash D) [] fun _ => none :=
  ⟨⟨trivial, rfl, List.nodup_nil, ⟨rfl, rfl⟩, nofun, List.nodup_nil⟩, rfl, by decide,
    fun c d => ⟨nofun, fun ⟨_, hp, _⟩ => absurd hp List.not_mem_nil⟩⟩

theorem hashClear_holds (t : Hash D) : Holds mem (hashClear t) [] fun _ => none :=
  ⟨⟨trivial, rfl, List.nodup_nil, ⟨rfl, rfl⟩, nofun, List.nodup_nil⟩, rfl, by decide,
    fun c d => ⟨nofun, fun ⟨_, hp, _⟩ => absurd hp List.not_mem_nil⟩⟩

end

/-! ## Runs -/

inductive Op (D : Type)
  | insert (pKey : KeyPtr) (len : CInt) (data : Option D) (al : Alloc)
  | find (pKey : KeyPtr) (len : CInt)
  | clear

/-- What a call returns, and the table after it. -/
def Op.apply (op : Op D) (mem : Mem) (t : Hash D) : Option D × Hash D :=
  match op with
  | .insert pKey len data al => hashInsert mem t pKey len data al
  | .find pKey len => (hashFind mem t pKey len, t)
  | .clear => (none, hashClear t)

/-- `calloc` gives memory that is not in use. -/
def Op.Fresh (op : Op D) (t : Hash D) : Prop :=
  match op with
  | .insert _ _ _ al => ∀ p, al.elem = some p → t.heap p = none
  | _ => True

/-- A call, with the caller's memory at that time and what it returned. -/
abbrev Call (D : Type) := Mem × Op D × Option D

/-- A table from `__hash_init` on, and the caller's memory. -/
def tableLts (cls : KeyClass) (copyKey : Bool) : LTS (Mem × Hash D) (Call D) where
  init s := s.2 = hashInit cls copyKey
  step s l s' := l.2.1.Fresh s.2 ∧ l.2.2 = (l.2.1.apply l.1 s.2).1 ∧ s' = (l.1, (l.2.1.apply l.1 s.2).2)

/-- What a call may do to a finite map of canonical keys. -/
inductive MapStep (cls : KeyClass) : Map D → Call D → Map D → Prop
  | insert {M M' : Map D} {mem : Mem} {pKey : KeyPtr} {len : CInt} {data out : Option D} {al : Alloc} :
      Inserts M (canon cls (pKey.bytes mem) len) al data out M' →
        MapStep cls M (mem, .insert pKey len data al, out) M'
  | find {M : Map D} {mem : Mem} {pKey : KeyPtr} {len : CInt} :
      MapStep cls M (mem, .find pKey len, M (canon cls (pKey.bytes mem) len)) M
  | clear {M : Map D} {mem : Mem} : MapStep cls M (mem, .clear, none) fun _ => none

def mapLts (cls : KeyClass) : LTS (Map D) (Call D) where
  init M := M = fun _ => none
  step := MapStep cls

/-- The elements that `__hash_first` and `__hash_next` go over. -/
inductive Walk (h : Heap (Ele D)) : Option Nat → List Nat → Prop
  | nil : Walk h none []
  | cons {p : Nat} {n : Node (Ele D)} {ps : List Nat} : h p = some n → Walk h n.next ps →
      Walk h (some p) (p :: ps)

/-- A table stands for a map: it counts the keys, and the iteration visits each once. -/
def Stands (s : Mem × Hash D) (M : Map D) : Prop :=
  ∃ ps, Walk s.2.heap s.2.first ps ∧ s.2.count.toInt = ps.length ∧ ps.Nodup ∧
    (ps.map (s.2.canonAt s.1)).Nodup ∧ ∀ c d, M c = some d ↔
      ∃ p ∈ ps, s.2.canonAt s.1 p = c ∧ (s.2.heap.val p).map (·.data) = some d

/-- The caller leaves the keys alone that the table has no copy of, a key stored is valid, and the
count does not overflow. -/
def Proper (s : Mem × Hash D) (l : Call D) : Prop :=
  Keeps s.2 s.1 l.1 ∧
    match l.2.1 with
    | .insert pKey len data _ => data ≠ none → Valid s.2.keyClass (pKey.bytes l.1) len ∧
        s.2.count.toNat + 1 < 2 ^ 31
    | _ => True

section
variable {cls : KeyClass} {copyKey : Bool}

theorem Seg.walk {h : Heap (Ele D)} {ps : List Nat} : ∀ {prev : Option Nat}, Seg h prev ps none →
    Walk h ps.head? ps := by
  induction ps with
  | nil =>
    intro prev _
    exact .nil
  | cons p ps ih =>
    intro prev hs
    obtain ⟨n, hn, -, hnext, hs⟩ := hs
    rw [Option.or_none] at hnext
    exact .cons hn (hnext ▸ ih hs)

theorem Holds.stands {s : Mem × Hash D} {G : Groups} {M : Map D} (hH : Holds s.1 s.2 G M) :
    Stands s M := by
  refine ⟨nodes G, ?_, ?_, hH.shape.nodup, hH.shape.distinct, hH.map⟩
  · rw [hH.shape.first]
    exact Seg.walk hH.shape.seg
  · have hsmall := hH.small
    have hnat : (BitVec.ofNat 32 (nodes G).length).toNat = (nodes G).length := by
      rw [BitVec.toNat_ofNat]
      omega
    rw [hH.count, BitVec.toInt_eq_toNat_of_lt (by omega), hnat]

theorem rehash_keyClass (mem : Mem) (t : Hash D) (newSize : CInt) (ok : Bool) :
    (rehash mem t newSize ok).keyClass = t.keyClass := by
  have hloop : ∀ (fuel : Nat) (p : Option Nat) (t : Hash D), (rehashLoop mem fuel p t).keyClass =
      t.keyClass := by
    intro fuel
    induction fuel with
    | zero =>
      intro p t
      rfl
    | succ fuel ih =>
      intro p t
      cases p with
      | none => rfl
      | some p =>
        rw [rehashLoop]
        split
        · exact ih _ _
        · rfl
  unfold rehash
  split
  · exact hloop _ _ _
  · rfl

theorem hashInsert_keyClass (mem : Mem) (t : Hash D) (pKey : KeyPtr) (len : CInt) (data : Option D)
    (al : Alloc) : (hashInsert mem t pKey len data al).2.keyClass = t.keyClass := by
  unfold hashInsert
  dsimp only
  split
  · cases data <;> rfl
  · split
    · rfl
    · rfl
    · split
      · rfl
      · have h2 : (if t.htsize = 0 then rehash mem { t with count := t.count + 1 } 8 al.table
            else { t with count := t.count + 1 }).keyClass = t.keyClass := by
          split
          · exact rehash_keyClass ..
          · rfl
        generalize (if t.htsize = 0 then rehash mem { t with count := t.count + 1 } 8 al.table
            else { t with count := t.count + 1 }) = t2 at h2 ⊢
        split
        · exact h2
        · have h3 : (if t2.htsize.slt t2.count = true then rehash mem t2 (t2.htsize * 2) al.table
              else t2).keyClass = t.keyClass := by
            split
            · rw [rehash_keyClass, h2]
            · exact h2
          generalize (if t2.htsize.slt t2.count = true then rehash mem t2 (t2.htsize * 2) al.table
              else t2) = t3 at h3 ⊢
          split <;> exact h3

theorem apply_keyClass (op : Op D) (mem : Mem) (t : Hash D) : (op.apply mem t).2.keyClass =
    t.keyClass := by
  cases op with
  | insert pKey len data al => exact hashInsert_keyClass ..
  | find _ _ => rfl
  | clear => rfl

/-- One call. -/
theorem Holds.step {s s' : Mem × Hash D} {l : Call D} {G : Groups} {M : Map D} (hH : Holds s.1 s.2 G M)
    (hcls : s.2.keyClass = cls) (hok : Proper s l) (hst : (tableLts cls copyKey).step s l s') :
    ∃ G' M', Holds s'.1 s'.2 G' M' ∧ MapStep cls M l M' := by
  obtain ⟨mem, t⟩ := s
  obtain ⟨mem', op, out⟩ := l
  obtain ⟨hfresh, hout, rfl⟩ := hst
  obtain ⟨hkeeps, hop⟩ := hok
  dsimp only at *
  have hH' := hH.keeps hkeeps
  subst hcls hout
  cases op with
  | insert pKey len data al =>
    have hlen : t.count.toNat = (nodes G).length := by
      have hsmall := hH.small
      rw [hH.count, BitVec.toNat_ofNat]
      omega
    obtain ⟨G', M', hG', hM'⟩ := hashInsert_spec hH' pKey len data al hfresh (fun h => (hop h).1)
      (fun h => hlen ▸ (hop h).2)
    exact ⟨G', M', hG', .insert hM'⟩
  | find pKey len =>
    refine ⟨G, M, hH', ?_⟩
    unfold Op.apply
    dsimp only
    rw [hashFind_spec hH']
    exact .find
  | clear => exact ⟨[], _, hashClear_holds t, .clear⟩

/-- **A hash table is a finite map.** -/
theorem hash_refines (cls : KeyClass) (copyKey : Bool) (s₀ s : Mem × Hash D) (ls : List (Call D))
    (hinit : (tableLts cls copyKey).init s₀)
      (hrun : ((tableLts cls copyKey).restrict Proper).Run s₀ ls s) :
    ∃ M, (mapLts cls).Run (fun _ => none) ls M ∧ Stands s M := by
  let R : Mem × Hash D → Map D → Prop := fun s M => s.2.keyClass = cls ∧ ∃ G, Holds s.1 s.2 G M
  have hstep : ∀ (s : Mem × Hash D) (l : Call D) (s' : Mem × Hash D) (M : Map D), R s M →
      ((tableLts cls copyKey).restrict Proper).step s l s' →
        ∃ M', (mapLts cls).step M l M' ∧ R s' M' := by
    rintro s l s' M ⟨hcls, G, hH⟩ ⟨hok, hst⟩
    obtain ⟨G', M', hH', hM⟩ := hH.step hcls hok hst
    refine ⟨M', hM, ?_, G', hH'⟩
    rw [hst.2.2]
    exact (apply_keyClass ..).trans hcls
  have h0 : R s₀ fun _ => none := by
    have ht : s₀.2 = hashInit cls copyKey := hinit
    refine ⟨by rw [ht]; rfl, [], ?_⟩
    rw [ht]
    exact hashInit_holds cls copyKey
  obtain ⟨M, hrunM, -, G, hH⟩ := hrun.simulates hstep h0
  exact ⟨M, hrunM, hH.stands⟩

end

/-! ## A run of strings -/

instance (cls : KeyClass) (key : Bytes) (len : CInt) : Decidable (Valid cls key len) :=
  inferInstanceAs (Decidable (_ → _))

/-- What an operation needs, where the memory stays as it is. -/
def Op.ok (op : Op D) (mem : Mem) (t : Hash D) : Bool :=
  match op with
  | .insert pKey len data al => (al.elem.all fun p => (t.heap p).isNone) &&
      (data.isNone ||
        (decide (Valid t.keyClass (pKey.bytes mem) len) && decide (t.count.toNat + 1 < 2 ^ 31)))
  | _ => true

/-- The calls of `ops`, and the table at the end, if every operation is all right. -/
def callAll (mem : Mem) : Hash D → List (Op D) → Option (List (Call D) × Hash D)
  | t, [] => some ([], t)
  | t, op :: ops =>
    if op.ok mem t then
      (callAll mem (op.apply mem t).2 ops).map fun r => ((mem, op, (op.apply mem t).1) :: r.1, r.2)
    else none

theorem Op.ok_iff {op : Op D} {mem : Mem} {t : Hash D} (h : op.ok mem t = true) :
    op.Fresh t ∧ Proper (mem, t) (mem, op, (op.apply mem t).1) := by
  refine ⟨?_, fun _ _ _ _ => rfl, ?_⟩
  · cases op with
    | insert pKey len data al =>
      intro p hp
      simp only [Op.ok, hp, Option.all_some, Bool.and_eq_true] at h
      exact Option.isNone_iff_eq_none.1 h.1
    | find | clear => trivial
  · cases op with
    | insert pKey len data al =>
      intro hdata
      simp only [Op.ok, Bool.and_eq_true, Bool.or_eq_true, decide_eq_true_eq, Option.isNone_iff_eq_none] at h
      exact h.2.resolve_left hdata
    | find | clear => trivial

theorem callAll_run {cls : KeyClass} {copyKey : Bool} {mem : Mem} {ops : List (Op D)} :
    ∀ {t : Hash D} {r : List (Call D) × Hash D}, callAll mem t ops = some r →
      ((tableLts cls copyKey).restrict Proper).Run (mem, t) r.1 (mem, r.2) := by
  induction ops with
  | nil =>
    intro t r h
    cases h
    exact .nil _
  | cons op ops ih =>
    intro t r h
    rw [callAll] at h
    split at h
    next hok =>
      obtain ⟨r', hr', rfl⟩ := Option.map_eq_some_iff.1 h
      exact .cons ⟨(Op.ok_iff hok).2, (Op.ok_iff hok).1, rfl, rfl⟩ (ih hr')
    next => cases h

/-- The letters from `a` on at the addresses from 0 on, and `A` at 9. -/
def memLetters : Mem := fun p => if p = 9 then [65] else [UInt8.ofNat (97 + p)]

/-- The keys `a` to `i` are stored, where the ninth makes the table larger; `A` is put in the place
of `a`, `b` is deleted, and both are looked up. -/
def letterOps : List (Op Nat) :=
  (List.range 9).map (fun p => .insert (.caller p) 1 (some p) ⟨some p, true, true⟩) ++
    [.insert (.caller 9) 1 (some 10) ⟨none, true, true⟩, .insert (.caller 1) 1 none ⟨none, true, true⟩,
      .find (.caller 0) 1, .find (.caller 1) 1]

theorem hash_refines_letters : ∃ calls t M,
    callAll memLetters (hashInit .string true) letterOps = some (calls, t) ∧
      (t.htsize, t.count) = (16, 8) ∧
      calls.map (·.2.2) = List.replicate 9 none ++ [some 0, some 1, some 10, none] ∧
      (mapLts .string).Run (fun _ => none) calls M ∧ Stands (memLetters, t) M := by
  have hcall : (callAll memLetters (hashInit .string true) letterOps).map
      (fun r => ((r.2.htsize, r.2.count), r.1.map (·.2.2))) = some ((16, 8), List.replicate 9 none ++ [some 0, some 1, some 10, none]) := by
    decide +kernel
  obtain ⟨⟨calls, t⟩, hrun, heq⟩ := Option.map_eq_some_iff.1 hcall
  obtain ⟨hsize, hout⟩ := Prod.mk.inj heq
  obtain ⟨M, hmap, hstands⟩ := hash_refines .string true (memLetters, hashInit .string true)
    (memLetters, t) calls rfl (callAll_run hrun)
  exact ⟨calls, t, M, hrun, hsize, hout, hmap, hstands⟩

/-- "a" at the address 0 and "b" at any other. -/
def memAB : Mem := fun p => if p = 0 then [97] else [98]

/-- The empty string at "a", with no copy. -/
def tableA : Hash Unit :=
  (hashInsert memAB (hashInit .string false) (.caller 0) 0 (some ()) ⟨some 0, true, true⟩).2

/-- What is stored under the empty string at "a" is not found under the empty string at "b". -/
theorem hash_fails : ¬ ∀ (cls : KeyClass) (copyKey : Bool) (s₀ s : Mem × Hash Unit)
    (ls : List (Call Unit)),
    (tableLts cls copyKey).init s₀ → (tableLts cls copyKey).Run s₀ ls s →
      ∃ M, (mapLts cls).Run (fun _ => none) ls M ∧ Stands s M := by
  intro h
  have hadd : (hashInsert memAB (hashInit .string false) (.caller 0) 0 (some ()) ⟨some 0, true, true⟩).1 =
      none := by decide
  have hfind : hashFind memAB tableA (.caller 1) 0 = none := by decide
  obtain ⟨M, hrun, -⟩ := h .string false (memAB, hashInit .string false) (memAB, tableA)
    [(memAB, .insert (.caller 0) 0 (some ()) ⟨some 0, true, true⟩, none),
      (memAB, .find (.caller 1) 0, none)]
    rfl (.cons ⟨fun _ _ => rfl, hadd.symm, rfl⟩ (.cons ⟨trivial, hfind.symm, rfl⟩ (.nil _)))
  cases hrun with
  | cons h1 hrun =>
    cases hrun with
    | cons h2 _ =>
      cases h1 with
      | insert hins =>
        cases hins with
        | add hnone =>
          have hout : ∀ {M' M'' : Map Unit} {out : Option Unit},
              MapStep .string M' (memAB, .find (.caller 1) 0, out) M'' →
                out = M' (canon .string ((KeyPtr.caller 1).bytes memAB) 0) := by
            intro M' M'' out hst
            cases hst
            rfl
          have hc : canon .string ((KeyPtr.caller 1).bytes memAB) 0 =
              canon .string ((KeyPtr.caller 0).bytes memAB) 0 := by decide
          have hlook := hout h2
          rw [hc, Function.update_self] at hlook
          cases hlook

end Dbsql.L2.HashTable
