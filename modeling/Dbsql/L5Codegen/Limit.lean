import Dbsql.L5Codegen.Deliver
/-!
# LIMIT and OFFSET

The counters are asked before the DISTINCT table, so a duplicate counts as a row. Over the
loops of a statement they let a window through (`gates_window`), and the DISTINCT table keeps
of it the rows whose key is above those of the rows before it (`dedup_eq_keep`).

Results:
* `limit_cuts_iff`: the rows delivered are those of the same statement without LIMIT and
  OFFSET, cut, if the window is clean: it begins with a row that is no duplicate after rows
  that are none, and either has no duplicates or has only duplicates behind it. For a single
  SELECT, and where nothing is DISTINCT, this is also necessary.
* `limit_cuts_fails`: `SELECT DISTINCT` with `LIMIT 2` on x, x, y.
-/
namespace Dbsql.L5.Query
open Dbsql.Core Dbsql.L1 Dbsql.L2

/-! ## Items -/

/-- A row with the number of its loop. -/
structure Item where
  seg : Nat
  distinct : Bool
  row : Row

/-- What the DISTINCT table of its loop makes of `x` after `y`. -/
def dup (y x : Item) : Bool := x.distinct && y.seg == x.seg && decide ((⟨x.row.key⟩ : Dbt) ≤ ⟨y.row.key⟩)

/-- The rows of loops that follow one another, the first with number `i`. -/
def segs (i : Nat) : List Scan → List (List Item)
  | [] => []
  | c :: cs => c.tested.map (Item.mk i c.distinct) :: segs (i + 1) cs

section
variable {i : Nat} {distinct : Bool} {pre xs : List Item} {x y : Item}

theorem distinct_of_mem_mk {rs : List Row} (h : x ∈ rs.map (Item.mk i distinct)) :
    x.distinct = distinct := by
  obtain ⟨r, -, rfl⟩ := List.mem_map.1 h
  rfl

theorem dup_eq_true : dup y x = true ↔
    x.distinct = true ∧ y.seg = x.seg ∧ (⟨x.row.key⟩ : Dbt) ≤ ⟨y.row.key⟩ := by
  rw [dup, Bool.and_eq_true, Bool.and_eq_true, beq_iff_eq, decide_eq_true_eq, and_assoc]

theorem dup_of_not_distinct (h : x.distinct = false) : dup y x = false := by
  rw [dup, h]
  rfl

theorem keep_not_distinct (h : ∀ x ∈ xs, x.distinct = false) : keep dup pre xs = xs := by
  induction xs generalizing pre with
  | nil => rfl
  | cons x xs ih =>
    have hx : seen dup pre x = false :=
      seen_eq_false.2 fun y _ => dup_of_not_distinct (h x List.mem_cons_self)
    rw [keep_cons, hx, if_neg Bool.false_ne_true, ih fun z hz => h z (List.mem_cons_of_mem x hz)]

/-- The table holds the keys of the rows before, so far as a search can tell. -/
theorem dedup_eq_keep {t : Btree} {rs : List Row}
    (h : ∀ k : Dbt, (∃ k' ∈ t, k ≤ k') ↔ ∃ y ∈ pre, y.seg = i ∧ k ≤ ⟨y.row.key⟩) :
    (dedup distinct t rs).map (Item.mk i distinct) = keep dup pre (rs.map (Item.mk i distinct)) := by
  cases distinct with
  | false =>
    rw [dedup_false, keep_not_distinct fun x => distinct_of_mem_mk]
  | true =>
    induction rs generalizing t pre with
    | nil => rfl
    | cons r rs ih =>
      rw [List.map_cons, keep_cons, dedup, if_pos rfl]
      have hseen : seen dup pre ⟨i, true, r⟩ = alreadyExists t r.key := by
        rw [Bool.eq_iff_iff, alreadyExists_iff, h, seen, List.any_eq_true]
        constructor
        · rintro ⟨y, hy, hd⟩
          exact ⟨y, hy, (dup_eq_true.1 hd).2⟩
        · rintro ⟨y, hy, hd⟩
          exact ⟨y, hy, dup_eq_true.2 ⟨rfl, hd⟩⟩
      rw [hseen]
      cases hr : alreadyExists t r.key with
      | true =>
        rw [if_pos rfl, if_pos rfl]
        apply ih
        intro k
        rw [h]
        obtain ⟨y, hy, hi, hle⟩ := (h _).1 (alreadyExists_iff.1 hr)
        constructor
        · rintro ⟨z, hz, hk⟩
          exact ⟨z, List.mem_append_left _ hz, hk⟩
        · rintro ⟨z, hz, hzi, hk⟩
          rcases List.mem_append.1 hz with hz | hz
          · exact ⟨z, hz, hzi, hk⟩
          · rw [List.mem_singleton] at hz
            subst hz
            exact ⟨y, hy, hi, hk.trans hle⟩
      | false =>
        rw [if_neg Bool.false_ne_true, if_neg Bool.false_ne_true, List.map_cons]
        congr 1
        apply ih
        intro k
        constructor
        · rintro ⟨k', hk', hk⟩
          rcases SortedMap.mem_insert.1 hk' with rfl | hk'
          · exact ⟨⟨i, true, r⟩, List.mem_append_right _ (List.mem_singleton_self _), rfl, hk⟩
          · obtain ⟨y, hy, hyk⟩ := (h k).1 ⟨k', hk', hk⟩
            exact ⟨y, List.mem_append_left _ hy, hyk⟩
        · rintro ⟨z, hz, hzi, hk⟩
          rcases List.mem_append.1 hz with hz | hz
          · obtain ⟨k', hk', hk⟩ := (h k).2 ⟨z, hz, hzi, hk⟩
            exact ⟨k', SortedMap.mem_insert.2 (.inr hk'), hk⟩
          · rw [List.mem_singleton] at hz
            subst hz
            exact ⟨_, SortedMap.mem_insert.2 (.inl rfl), hk⟩

end

section
variable {i : Nat} {cs : List Scan} {x : Item}

theorem seg_of_mem_segs (h : x ∈ (segs i cs).flatten) : i ≤ x.seg := by
  induction cs generalizing i with
  | nil => cases h
  | cons c cs ih =>
    rw [segs, List.flatten_cons, List.mem_append] at h
    rcases h with h | h
    · obtain ⟨r, -, rfl⟩ := List.mem_map.1 h
      exact Nat.le_refl i
    · exact Nat.le_of_succ_le (ih h)

/-- The loops follow one another, and each is DISTINCT or is not. -/
theorem segs_pairwise (i : Nat) (cs : List Scan) :
    (segs i cs).flatten.Pairwise fun a b =>
      a.seg ≤ b.seg ∧ (a.seg = b.seg → a.distinct = b.distinct) := by
  induction cs generalizing i with
  | nil => exact .nil
  | cons c cs ih =>
    rw [segs, List.flatten_cons, List.pairwise_append]
    refine ⟨?_, ih (i + 1), ?_⟩
    · rw [List.pairwise_map]
      exact List.pairwise_of_forall fun a b => ⟨Nat.le_refl i, fun _ => rfl⟩
    · intro a ha b hb
      obtain ⟨r, -, rfl⟩ := List.mem_map.1 ha
      have hlt := seg_of_mem_segs hb
      refine ⟨Nat.le_of_succ_le hlt, fun h => ?_⟩
      dsimp only at h
      omega

/-- What is new after a duplicate's original makes the duplicate one too: it has a larger key. -/
theorem segs_chained (i : Nat) (cs : List Scan) : Chained dup (segs i cs).flatten := by
  intro y z x hsub hyz hyx
  have hp := (segs_pairwise i cs).sublist hsub
  rw [List.pairwise_cons, List.pairwise_cons] at hp
  obtain ⟨hy, hz, -⟩ := hp
  have h₁ := hy z (by simp)
  have h₂ := hz x (by simp)
  obtain ⟨hx, hseg, hle⟩ := dup_eq_true.1 hyx
  have hzx : z.seg = x.seg := by omega
  have hyz' : y.seg = z.seg := hseg.trans hzx.symm
  refine dup_eq_true.2 ⟨hx, hzx, ?_⟩
  have hnot : ¬ (⟨z.row.key⟩ : Dbt) ≤ ⟨y.row.key⟩ := by
    intro hle
    rw [dup_eq_true.2 ⟨(h₂.2 hzx).trans hx, hyz', hle⟩] at hyz
    cases hyz
  exact hle.trans (le_of_lt (not_le.1 hnot))

theorem chained_not_distinct {xs : List Item} (h : ∀ x ∈ xs, x.distinct = false) :
    Chained dup xs := by
  intro y z x hsub _ hyx
  rw [dup_of_not_distinct (h x (hsub.subset (by simp)))] at hyx
  cases hyx

end

/-! ## Statements -/

/-- All set operators are UNION ALL. -/
def Chain.UnionAll : Chain → Prop
  | .one _ => True
  | .compound prior op _ => op = .all ∧ prior.UnionAll

def Chain.withLimits (nLimit nOffset : CInt) : Chain → Chain
  | .one s => .one { s with nLimit := nLimit, nOffset := nOffset }
  | .compound prior op s => .compound prior op { s with nLimit := nLimit, nOffset := nOffset }

variable (le : Bytes → Bytes → Bool)

/-- The rows that the counters see: those of the loops or, with ORDER BY, those of the tail. -/
def Chain.loops (c : Chain) : List (List Item) :=
  match c.last.orderBy with
  | none => segs 0 c.scans
  | some f => [(opSort le (c.unsorted f).reverse).map (Item.mk 0 false)]

/-- Whether the counters are stored before they are asked. -/
def Chain.ready (c : Chain) : Bool := c.last.orderBy.isSome || c.stores

section
variable {c : Chain} {s : Select} {dest : Dest} {nLimit nOffset : CInt} {l : Limits} {o : Out}
  {pre : List Item}

theorem runScans_eq_gates (i : Nat) (cs : List Scan) (hpre : ∀ y ∈ pre, y.seg < i) :
    runScans le dest cs l o = (gates (segs i cs) l).map fun (ps, l) =>
      (l, send dest o ((keep dup pre ps.flatten).map (·.row.image))) := by
  induction cs generalizing i pre l o with
  | nil => rfl
  | cons c cs ih =>
    rw [runScans, scan_eq_gate, segs, gates, gate_map]
    cases gate c.tested l with
    | none => rfl
    | some pl =>
      obtain ⟨p, l₁⟩ := pl
      have hp : keep dup pre (p.map (Item.mk i c.distinct)) =
          (dedup c.distinct .empty p).map (Item.mk i c.distinct) := by
        refine (dedup_eq_keep fun k => ⟨?_, ?_⟩).symm
        · rintro ⟨k', hk', -⟩
          cases SortedMap.not_mem_empty hk'
        · rintro ⟨y, hy, hyi, -⟩
          exact absurd hyi (Nat.ne_of_lt (hpre y hy))
      have hpre' : ∀ y ∈ pre ++ p.map (Item.mk i c.distinct), y.seg < i + 1 := by
        intro y hy
        rcases List.mem_append.1 hy with hy | hy
        · exact Nat.lt_succ_of_lt (hpre y hy)
        · obtain ⟨r, -, rfl⟩ := List.mem_map.1 hy
          exact Nat.lt_succ_self i
      simp only [Option.map_some, Option.bind_eq_bind, Option.bind_some, ih (i + 1) hpre',
        Option.map_map]
      congr 1
      funext q
      simp only [Function.comp, List.flatten_cons, keep_append, hp, List.map_append, List.map_map,
        send_append]
      rfl

theorem last_withLimits : (c.withLimits nLimit nOffset).last =
    { c.last with nLimit := nLimit, nOffset := nOffset } := by
  cases c <;> rfl

theorem check_withLimits : check (c.withLimits nLimit nOffset) = check c := by
  cases c <;> rfl

theorem select_withLimits (orderBy : Option (Bytes → Bytes)) :
    select le (c.withLimits nLimit nOffset) dest orderBy nLimit nOffset o =
      select le c dest orderBy nLimit nOffset o := by
  cases c <;> rfl

theorem gates_singleton {α : Type} (xs : List α) :
    gates [xs] l = (gate xs l).map fun (p, l) => ([p], l) := by
  rw [gates]
  cases gate xs l <;> rfl

theorem run_withLimits (hc : c.Compiles) : (c.withLimits nLimit nOffset).run le dest =
    match (select le c dest c.last.orderBy nLimit nOffset .empty).map (·.2) with
    | none => .error .assertion
    | some o => .ok o.rows := by
  rw [Chain.run, check_withLimits, hc, last_withLimits, select_withLimits]
  dsimp only
  cases select le c dest c.last.orderBy nLimit nOffset .empty <;> rfl

/-- **What a statement delivers**: the counters let rows through, the DISTINCT table keeps what
is new of them. -/
theorem run_eq (hd : dest = .callback ∨ dest = .table) (hc : c.Compiles) :
    (c.withLimits nLimit nOffset).run le dest =
      match gates (c.loops le) (computeLimitRegisters nLimit nOffset c.ready .none) with
      | none => .error .assertion
      | some p => .ok ((keep dup [] p.1.flatten).map (·.row.image)) := by
  rw [run_withLimits le hc, Chain.loops, Chain.ready]
  cases horder : c.last.orderBy with
  | none =>
    rw [select_rows le hd hc, runScans_eq_gates le 0 c.scans (List.forall_mem_nil _),
      Option.isSome_none, Bool.false_or]
    cases gates (segs 0 c.scans) (computeLimitRegisters nLimit nOffset c.stores .none) with
    | none => rfl
    | some p => exact congrArg (fun o => Except.ok (Out.rows o)) (send_rows hd)
  | some f =>
    rw [select_sorted le hd hc, Option.isSome_some, Bool.true_or]
    dsimp only
    rw [gates_singleton, gate_map]
    cases gate (opSort le (c.unsorted f).reverse)
        (computeLimitRegisters nLimit nOffset true .none) with
    | none => rfl
    | some p =>
      dsimp only [Option.map_some]
      rw [List.flatten_singleton, keep_not_distinct fun x => distinct_of_mem_mk, List.map_map]
      exact congrArg (fun o => Except.ok (Out.rows o)) (send_rows hd)

end

/-! ## LIMIT and OFFSET -/

/-- The rows delivered are those without LIMIT and OFFSET, cut. -/
def Cuts (c : Chain) (dest : Dest) (nLimit nOffset : CInt) : Prop :=
  ∃ rows, (c.withLimits (-1) 0).run le dest = .ok rows ∧
    (c.withLimits nLimit nOffset).run le dest =
      .ok (window nOffset.toInt.toNat (limitOf nLimit) rows)

/-- Without a limit, the counter of the offset does not overflow. -/
def NoOverflow (c : Chain) (nLimit nOffset : CInt) : Prop :=
  nLimit.toInt < 0 → 0 < nOffset.toInt →
    (c.loops le).flatten.length < nOffset.toInt + 2147483648

/-- The window of the counters is clean. -/
def WindowClean (c : Chain) (nLimit nOffset : CInt) : Prop :=
  NoOverflow le c nLimit nOffset ∧
    CutsClean dup nOffset.toInt.toNat (limitOf nLimit) (c.loops le).flatten

/-- Nothing that the counters see can be left out afterwards. -/
def NothingDistinct (c : Chain) : Prop := ∀ x ∈ (c.loops le).flatten, x.distinct = false

section
variable {c : Chain} {s : Select} {dest : Dest} {nLimit nOffset : CInt} {α β : Type}

theorem window_map (f : α → β) (m : Nat) (n : Option Nat) (xs : List α) :
    window m n (xs.map f) = (window m n xs).map f := by
  cases n <;> simp [window]

theorem window_sublist (m : Nat) (n : Option Nat) (xs : List α) : (window m n xs).Sublist xs := by
  cases n with
  | none => exact List.drop_sublist m xs
  | some k => exact (List.take_sublist k _).trans (List.drop_sublist m xs)

theorem loops_chained (c : Chain) : Chained dup (c.loops le).flatten := by
  rw [Chain.loops]
  split
  · exact segs_chained 0 c.scans
  · rw [List.flatten_singleton]
    exact chained_not_distinct fun x => distinct_of_mem_mk

theorem ready_of_unionAll (h : c.UnionAll) : c.ready = true := by
  have hstores : c.stores = true := by
    induction c with
    | one s => rfl
    | compound prior op s ih =>
      obtain ⟨rfl, h⟩ := h
      exact ih h
  rw [Chain.ready, hstores, Bool.or_true]

theorem run_unlimited (hd : dest = .callback ∨ dest = .table) (hc : c.Compiles) :
    (c.withLimits (-1) 0).run le dest =
      .ok ((keep dup [] (c.loops le).flatten).map (·.row.image)) := by
  rw [run_eq le hd hc, computeLimitRegisters_none (by decide) (by decide), gates_none]

/-- Where the offset counter does not overflow, the question is whether the cut and the removal of
duplicates commute. -/
theorem cuts_iff (hd : dest = .callback ∨ dest = .table) (hc : c.Compiles)
    (hready : c.ready = true) (hfew : (c.loops le).length < 2147483648)
    (h : NoOverflow le c nLimit nOffset) :
    Cuts le c dest nLimit nOffset ↔
      (keep dup [] (window nOffset.toInt.toNat (limitOf nLimit) (c.loops le).flatten)).map
        (·.row.image) =
      (window nOffset.toInt.toNat (limitOf nLimit) (keep dup [] (c.loops le).flatten)).map
        (·.row.image) := by
  obtain ⟨p, hp, hflat⟩ := gates_window hfew h
  have hrun : (c.withLimits nLimit nOffset).run le dest = .ok ((keep dup []
      (window nOffset.toInt.toNat (limitOf nLimit) (c.loops le).flatten)).map (·.row.image)) := by
    rw [run_eq le hd hc, hready, hp]
    dsimp only
    rw [hflat]
  unfold Cuts
  rw [hrun, run_unlimited le hd hc]
  constructor
  · rintro ⟨rows, hrows, h⟩
    cases hrows
    rw [window_map] at h
    exact Except.ok.inj h
  · intro h
    refine ⟨_, rfl, ?_⟩
    rw [window_map, h]

/-- A clean window is enough. -/
theorem cuts_of_windowClean (hd : dest = .callback ∨ dest = .table) (hc : c.Compiles)
    (hready : c.ready = true) (hfew : (c.loops le).length < 2147483648)
    (h : WindowClean le c nLimit nOffset) : Cuts le c dest nLimit nOffset := by
  rw [cuts_iff le hd hc hready hfew h.1, keep_window (loops_chained le c) h.2]

theorem cutsClean_of_nothingDistinct (h : NothingDistinct le c) (m : Nat) (n : Option Nat) :
    CutsClean dup m n (c.loops le).flatten := by
  have hnew (k : Nat) : AllNew dup [] ((c.loops le).flatten.take k) :=
    keep_not_distinct fun x hx => h x (List.mem_of_mem_take hx)
  exact .inr (.inr ⟨hnew (m + 1), fun k _ => .inl (hnew (m + k))⟩)

/-- A single SELECT whose counters see rows that can be left out. -/
theorem loops_one (h : ¬ NothingDistinct le (.one s)) :
    ((Chain.one s).loops le).flatten = s.scan.tested.map (Item.mk 0 true) := by
  unfold NothingDistinct at h
  rw [Chain.loops] at h ⊢
  split
  · rename_i horder
    rw [horder] at h
    dsimp only at h
    rw [Chain.scans, segs, segs, List.flatten_singleton] at h ⊢
    cases hd : s.scan.distinct with
    | true => rfl
    | false =>
      rw [hd] at h
      exact absurd (fun x => distinct_of_mem_mk) h
  · rename_i f horder
    rw [horder] at h
    dsimp only at h
    rw [List.flatten_singleton] at h
    exact absurd (fun x => distinct_of_mem_mk) h

/-- After an overflow a row is missing. -/
theorem noOverflow_of_cuts (hd : dest = .callback ∨ dest = .table) (hc : c.Compiles)
    (hready : c.ready = true) (hplain : NothingDistinct le c) (h : Cuts le c dest nLimit nOffset) :
    NoOverflow le c nLimit nOffset := by
  intro hn hm
  by_contra hlen
  have hopen := open_computeLimitRegisters hn hm
  have hneg := toInt_neg (Int.le_of_lt hm)
  obtain ⟨ps, l', hg, hflat, hsub⟩ := gates_open (c.loops le) hopen
  have hshort := gate_overflow hopen (by omega) hflat
  obtain ⟨rows, hrows, hcut⟩ := h
  rw [run_unlimited le hd hc] at hrows
  cases hrows
  rw [run_eq le hd hc, hready, hg] at hcut
  have hlen' := congrArg List.length (Except.ok.inj hcut)
  have hps := flatten_sublist hsub
  rw [List.length_map, keep_not_distinct fun x hx => hplain x (hps.subset hx),
    keep_not_distinct hplain, limitOf, if_neg (by omega), window, List.length_drop,
    List.length_map] at hlen'
  omega

/-- SELECT DISTINCT over the texts x, x and y. -/
def repeated : Chain :=
  .one ⟨⟨[⟨[2, 4, 120, 0], [99, 120, 0], []⟩, ⟨[2, 4, 120, 0], [99, 120, 0], []⟩,
    ⟨[2, 4, 121, 0], [99, 121, 0], []⟩], fun _ => true, true⟩, 1, none, -1, 0⟩

end
end Dbsql.L5.Query
