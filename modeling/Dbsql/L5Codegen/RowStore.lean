import Dbsql.L5Codegen.RowUnique
/-!
# Storing a row (cg_insert.c:1030-1068)

The code of `__complete_insertion` puts the keys that the tests have left on the stack and the
record of the row.

Results:
* `completeInsertion_runs`: what is put.
* `Stored.inserted`, `Stored.updated`: after the tests of an INSERT, and of an UPDATE that has
  removed the old keys, every index has the keys of all rows again.
-/
namespace Dbsql.L5.Rows
open Dbsql.Core Dbsql.L1 Dbsql.L2 Dbsql.L3 Dbsql.L3.Row

section
variable {L : Type} {ar : Arith L} {en : Endian} {junk : Unset} {prog : Nat → Option Op}
variable {tab : Table} {g : Args} {w : NewRow} {cols : List Val} {s₀ s : Vm} {pend : Bool}
variable {Q : Nat × Vm → Prop}

/-! ## The opcodes -/

/-- The indices with the keys of the new row. -/
def idxWith (fp : LongDouble L) (tab : Table) (g : Args) (w : NewRow) (cols : List Val)
    (idx : Nat → Btree) (n : Nat) : Btree :=
  match tab.pIndex[n]? with
  | some ix => if g.used n then (idx n).insert ⟨newKey fp tab w cols ix⟩ [] else idx n
  | none => idx n

/-- The keys that are on the stack go into their indices, the last one first. -/
theorem idxPuts_runs {st : List Val} : ∀ (n a : Nat) (s : Vm), n ≤ tab.pIndex.length →
    CodeAt prog a (((List.range n).reverse.filter g.used).map fun i => .idxPut (g.base + i + 1)) →
    UsedOpen tab s g.base g.used → s.stack = keysOf ar.ld tab g w cols n ++ st →
    ∃ s', s'.stack = st ∧ s'.t = s.t ∧ s.Like s' ∧
      (∀ m, s'.idx m = if m < n then idxWith ar.ld tab g w cols s.idx m else s.idx m) ∧
      Ends (Row.exec ar en junk) prog
        (· = (a + (((List.range n).reverse.filter g.used).map
          fun i => Op.idxPut (g.base + i + 1)).length, s')) (a, s) := by
  intro n
  induction n with
  | zero =>
    intro a s _ _ _ hst
    exact ⟨s, hst, rfl, .refl s, fun m => by rw [if_neg (Nat.not_lt_zero m)], .here rfl⟩
  | succ n ih =>
    intro a s hn hc hopen hst
    have hix := List.getElem?_eq_getElem (Nat.lt_of_succ_le hn)
    rw [List.range_succ, List.reverse_append, List.reverse_singleton, List.singleton_append] at hc ⊢
    cases hu : g.used n with
    | false =>
      rw [List.filter_cons_of_neg (by simp [hu])] at hc ⊢
      rw [keysOf_skip hu] at hst
      obtain ⟨s', hst', ht, hlike, hidx, hruns⟩ := ih a s (Nat.le_of_succ_le hn) hc hopen hst
      refine ⟨s', hst', ht, hlike, fun m => ?_, hruns⟩
      rw [hidx m]
      rcases Nat.lt_trichotomy m n with hm | rfl | hm
      · rw [if_pos hm, if_pos (Nat.lt_succ_of_lt hm)]
      · rw [if_neg (Nat.lt_irrefl m), if_pos (Nat.lt_succ_self m), idxWith, hix]
        exact (if_neg (by simp [hu])).symm
      · rw [if_neg (by omega), if_neg (by omega)]
    | true =>
      rw [List.filter_cons_of_pos hu, List.map_cons] at hc ⊢
      rw [keysOf_succ hix hu] at hst
      obtain ⟨pos, hcsr⟩ := hopen n (Nat.lt_of_succ_le hn) hu
      have hexec := @exec_idxPut L ar en junk a s _ _ _ _ _ hst hcsr
      generalize hs₁ : ({ (s.setCsr (g.base + (n + 1)) _).setIdx n _ with stack := _ } : Vm) =
        s₁ at hexec
      have hlike₁ : s.Like s₁ := hs₁ ▸ (Vm.Like.refl s).setCsr (hcsr ▸ .index n pos _)
      have hidx₁ : s₁.idx = Function.update s.idx n
        ((s.idx n).insert ⟨newKey ar.ld tab w cols tab.pIndex[n]⟩ []) := hs₁ ▸ rfl
      obtain ⟨s', hst', ht, hlike, hidx, hruns⟩ := ih (a + 1) s₁ (Nat.le_of_succ_le hn) hc.tail
        (hopen.like hlike₁) (hs₁ ▸ rfl)
      refine ⟨s', hst', ht.trans (hs₁ ▸ rfl), hlike₁.trans hlike, fun m =>
        ?_, Ends.op hc.head hexec ?_⟩
      · rw [hidx m]
        rcases Nat.lt_trichotomy m n with hm | rfl | hm
        · rw [if_pos hm, if_pos (Nat.lt_succ_of_lt hm), idxWith, idxWith, hidx₁,
            Function.update_of_ne (Nat.ne_of_lt hm)]
        · rw [if_neg (Nat.lt_irrefl m), if_pos (Nat.lt_succ_self m), idxWith, hix, hidx₁,
            Function.update_self]
          exact (if_pos hu).symm
        · rw [if_neg (by omega), if_neg (by omega), hidx₁, Function.update_of_ne (Nat.ne_of_gt hm)]
      · rw [List.length_cons, Nat.add_comm (List.length _), ← Nat.add_assoc]
        exact hruns

/-- `OP_PutIntKey` on a table. -/
theorem exec_putIntKey {p1 pc : Nat} {p2 : Bool} {i : CInt} {x : Option Bytes} {z : Bytes}
    {st : List Val} {c : Cursor} (h : s.stack = .str z :: .int i x :: st)
      (hc : s.aCsr p1 = .table c) :
    ∃ s', Row.exec ar en junk (.putIntKey p1 p2) (pc, s) = some (pc + 1, s') ∧ s'.stack = st ∧
      s'.t = s.t.insert ⟨rowidKey i⟩ z ∧ s'.idx = s.idx := by
  obtain ⟨c', -, he⟩ := opPutIntKey_eq s.t c i junk.i z
  simp only [Row.exec, execPutIntKey, h, hc, he, if_true]
  refine ⟨_, rfl, rfl, rfl, ?_⟩
  cases p2 <;> rfl

/-- `OP_PutIntKey` on a pseudo-table. -/
theorem exec_putIntKey_pseudo {p1 pc : Nat} {p2 : Bool} {i : CInt} {x : Option Bytes} {z : Bytes}
    {st : List Val} {row : Option (CInt × Bytes)} (h : s.stack = .str z :: .int i x :: st)
    (hc : s.aCsr p1 = .pseudo row) :
    ∃ s', Row.exec ar en junk (.putIntKey p1 p2) (pc, s) = some (pc + 1, s') ∧ s'.stack = st ∧
      s'.t = s.t ∧ s'.idx = s.idx ∧ s.Like s' := by
  simp only [Row.exec, execPutIntKey, h, hc]
  refine ⟨_, rfl, rfl, ?_, ?_, fun n => ?_⟩
  · cases p2 <;> rfl
  · cases p2 <;> rfl
  · have hl := ((Vm.Like.refl s).setCsr (n := p1) (c := .pseudo (some (i, z))) (hc ▸ .pseudo ..)) n
    cases p2 <;> exact hl

/-- The record of the new row. -/
def newRecord (en : Endian) (cols : List Val) : Bytes := (opMakeRecord en 0 0 (cols.map Val.toMem)).1.z

/-- The opcodes that store the keys. -/
def idxPuts (tab : Table) (g : Args) : List Op :=
  ((List.range tab.pIndex.length).reverse.filter g.used).map fun i => .idxPut (g.base + i + 1)

/-- The opcodes that store the row in the pseudo-table of the triggers. -/
def newPut (g : Args) : List Op :=
  match g.newIdx with
  | none => []
  | some newIdx => [.dup 1, .dup 1, .putIntKey newIdx false]

theorem completeInsertion_eq (tab : Table) (g : Args) : completeInsertion tab g =
    idxPuts tab g ++ [.makeRecord tab.nCol] ++ newPut g ++ [.putIntKey g.base !g.trigStack] ++
      if g.update && g.willRecnoChng then [.pop 1] else [] := rfl

theorem newPut_runs {a : Nat} {z : Bytes} {i : CInt} {x : Option Bytes} {st : List Val}
    (hc : CodeAt prog a (newPut g)) (hnew : ∀ m, g.newIdx = some m → ∃ row, s.aCsr m = .pseudo row)
    (hst : s.stack = .str z :: .int i x :: st) :
    ∃ s', s'.stack = s.stack ∧ s'.t = s.t ∧ s'.idx = s.idx ∧ s.Like s' ∧
      Ends (Row.exec ar en junk) prog (· = (a + (newPut g).length, s')) (a, s) := by
  rw [newPut] at hc ⊢
  cases hn : g.newIdx with
  | none => exact ⟨s, rfl, rfl, rfl, .refl s, .here rfl⟩
  | some m =>
    simp only [hn] at hc ⊢
    obtain ⟨row, hcsr⟩ := hnew m hn
    have hget : s.stack[1]? = some (.int i x) := by
      rw [hst]
      rfl
    have hget' : (Val.int i x :: s.stack)[1]? = some (.str z) := by
      rw [hst]
      rfl
    obtain ⟨s', hexec, hst', ht, hidx, hlike⟩ := @exec_putIntKey_pseudo L ar en junk
      { s with stack := .str z :: .int i x :: s.stack } m
        (a + 1 + 1) false i x z s.stack row rfl hcsr
    exact ⟨s', hst', ht, hidx, hlike, Ends.op hc.head (exec_dup hget)
      (Ends.op hc.tail.head (exec_dup hget') (Ends.op hc.tail.tail.head hexec (.here rfl)))⟩

/-- **The keys and the row are stored.** -/
theorem completeInsertion_runs {a : Nat} (hlen : cols.length = tab.nCol)
    (hc : CodeAt prog a (completeInsertion tab g)) (hopen : UsedOpen tab s g.base g.used)
    (hcsr : ∃ c, s.aCsr g.base = .table c) (hnew : ∀ m, g.newIdx = some m → ∃ row, s.aCsr m =
      .pseudo row)
    (hst : s.stack = w.stack g (keysOf ar.ld tab g w cols tab.pIndex.length) cols) :
    ∃ s', s'.stack = w.st ∧ s'.t = s.t.insert ⟨rowidKey w.new⟩ (newRecord en cols) ∧
      s'.idx = idxWith ar.ld tab g w cols s.idx ∧
      Ends (Row.exec ar en junk) prog (· = (a + (completeInsertion tab g).length, s')) (a, s) := by
  rw [completeInsertion_eq] at hc ⊢
  obtain ⟨s₁, hst₁, ht₁, hlike₁, hidx₁, hruns₁⟩ := @idxPuts_runs L ar en junk prog tab g w cols _
    tab.pIndex.length a s (Nat.le_refl _) hc.left.left.left.left hopen hst
  have hidx : s₁.idx = idxWith ar.ld tab g w cols s.idx := by
    funext m
    rw [hidx₁ m]
    split
    · rfl
    · rw [idxWith, List.getElem?_eq_none (by omega)]
  have hrec := hc.left.left.left.right.head
  rw [← hlen] at hrec
  let s₂ : Vm := { s₁ with stack := .str (newRecord en cols) :: .int w.new w.text ::
    if g.twoRecnos = 1 then .int w.self none :: w.st else w.st }
  obtain ⟨s₃, hst₃, ht₃, hidx₃, hlike₃, hruns₃⟩ := @newPut_runs L ar en junk prog g s₂
    (a + (idxPuts tab g).length + 1) (newRecord en cols) w.new w.text _ (hc.left.left.after (by
      rw [List.length_append, ← Nat.add_assoc]
      rfl))
    (fun m hm => hlike₁.pseudo (hnew m hm)) rfl
  obtain ⟨c, hc₀⟩ := hcsr
  obtain ⟨c₃, hc₃⟩ := (hlike₁.trans hlike₃).table hc₀
  have hend : a + (idxPuts tab g ++ [Op.makeRecord tab.nCol] ++ newPut g ++
      [Op.putIntKey g.base !g.trigStack]).length =
      a + (idxPuts tab g).length + 1 + (newPut g).length + 1 := by
    simp only [List.length_append, List.length_singleton]
    omega
  have hput := (hc.left.after (b := a + (idxPuts tab g).length + 1 + (newPut g).length) (by
    rw [List.length_append, List.length_append, ← Nat.add_assoc, ← Nat.add_assoc]
    rfl)).head
  obtain ⟨s₄, hexec₄, hst₄, ht₄, hidx₄⟩ := @exec_putIntKey L ar en junk s₃ g.base
    (a + (idxPuts tab g).length + 1 + (newPut g).length) (!g.trigStack) w.new w.text
      (newRecord en cols)
    _ c₃ hst₃ hc₃
  have ht : s₄.t = s.t.insert ⟨rowidKey w.new⟩ (newRecord en cols) := by
    rw [ht₄, ht₃]
    exact congrArg (fun t => SortedMap.insert t _ _) ht₁
  have hidx' := (hidx₄.trans hidx₃).trans hidx
  have hstored : Ends (Row.exec ar en junk) prog
      (· = (a + (idxPuts tab g).length + 1 + (newPut g).length + 1, s₄)) (a, s) :=
    Ends.trans hruns₁ (Ends.op hrec (exec_makeRecord hst₁) (Ends.trans hruns₃
      (Ends.op hput hexec₄ (.here rfl))))
  by_cases htwo : (g.update && g.willRecnoChng) = true
  · -- the old rowid is popped
    rw [if_pos htwo] at hc ⊢
    rw [Args.twoRecnos, if_pos htwo, if_pos rfl] at hst₄
    refine ⟨{ s₄ with stack := w.st }, rfl, ht, hidx', Ends.trans hstored ?_⟩
    refine Ends.op (hc.after hend).head (exec_pop (by simp [hst₄])) (.here ?_)
    rw [List.length_append, ← Nat.add_assoc, hend, hst₄]
    rfl
  · rw [if_neg htwo] at hc ⊢
    rw [Args.twoRecnos, if_neg htwo, if_neg (by simp)] at hst₄
    rw [List.append_nil, hend]
    exact ⟨s₄, hst₄, ht, hidx', hstored⟩

/-! ## The indices afterwards -/

/-- An index that has had the other rows' keys holds all keys when the new one is put. -/
theorem indexOf_put {fp : LongDouble L} {j : Junk} {t m : Btree} {ix : Index}
    {R : Dbt × Bytes → Prop} {k₀ k : Dbt} {z : Bytes} (h : IndexOf (rowKey fp j tab ix) R m)
    (hR : ∀ e, R e ↔ e ∈ t.entries ∧ e.1 ≠ k₀) (hk : rowKey fp j tab ix (k₀, z) = some k) :
    IndexOf (rowKey fp j tab ix) (· ∈ (t.insert k₀ z).entries) (m.insert k []) := by
  refine (h.insert hk []).congr fun e => ?_
  rw [SortedMap.entry_insert, hR, or_comm]

/-- What is stored by an INSERT. -/
theorem Stored.inserted {fp : LongDouble L} {j : Junk} {z : Bytes}
    (h : Stored fp j tab g w s₀ pend s) (hu : g.update = false)
    (hall : ∀ n, n < tab.pIndex.length → g.used n = true)
    (hkeys : ∀ (n : Nat) (ix : Index), tab.pIndex[n]? = some ix →
      rowKey fp j tab ix (⟨rowidKey w.new⟩, z) = some ⟨newKey fp tab w cols ix⟩) :
    Consistent fp j tab (s.t.insert ⟨rowidKey w.new⟩ z) (idxWith fp tab g w cols s.idx) := by
  refine ⟨h.table.insert w.new z, fun n ix hix => ?_⟩
  rw [idxWith, hix]
  simp only [hall n (List.getElem?_eq_some_iff.1 hix).1, if_true]
  refine indexOf_put (h.synced n ix hix) (fun e => and_congr_right fun he => ?_) (hkeys n ix hix)
  cases hp : pend with
  | true => exact ⟨fun hk => hk rfl, fun hne _ => hne⟩
  | false =>
    refine ⟨fun _ hnew => ?_, fun _ => nofun⟩
    have hfree := h.free hp (hnew ▸ SortedMap.mem_of_entry he)
    exact absurd (hu.symm.trans hfree.1) (by simp)

/-- What is stored by an UPDATE, after the keys of the row have been removed, and the row if it
gets another rowid. -/
theorem Stored.updated {fp : LongDouble L} {z : Bytes} {row : Dbt × Bytes}
    (h : Stored fp junk.toJunk tab g w s₀ pend s) (hu : g.update = true)
    (hself : g.twoRecnos = 0 → w.self = w.new)
    (hall : g.willRecnoChng = true → ∀ n, n < tab.pIndex.length → g.used n = true)
    (hrow : row ∈ s.t.entries) (hkey : row.1 = ⟨rowidKey w.self⟩)
    (hkeys : ∀ (n : Nat) (ix : Index), tab.pIndex[n]? = some ix → rowKey fp junk.toJunk tab ix
      (⟨rowidKey w.new⟩, z) =
      if g.used n then some ⟨newKey fp tab w cols ix⟩ else rowKey fp junk.toJunk tab ix row) :
    Consistent fp junk.toJunk tab
      ((if g.willRecnoChng then s.t.erase ⟨rowidKey w.self⟩ else s.t).insert ⟨rowidKey w.new⟩ z)
      (idxWith fp tab g w cols (idxWithout fp junk.toJunk tab g.used row s.idx)) := by
  have hkept : Kept w pend row := fun hp hnew => by
    rw [hkey, Dbt.mk.injEq, rowidKey_inj] at hnew
    exact h.apart hp hu hnew
  have hsame : g.willRecnoChng = false → w.self = w.new := fun hr => hself (by
    rw [Args.twoRecnos, hr, Bool.and_false]
    rfl)
  -- the other rows whose keys are in the indices are those that stay in the table
  have hothers : ∀ e, ((e ∈ s.t.entries ∧ Kept w pend e) ∧ e ≠ row) ↔
      e ∈ (if g.willRecnoChng then s.t.erase ⟨rowidKey w.self⟩ else s.t).entries ∧
        e.1 ≠ ⟨rowidKey w.new⟩ := by
    intro e
    have hne : e ∈ s.t.entries → (e ≠ row ↔ e.1 ≠ ⟨rowidKey w.self⟩) := fun he =>
      not_congr ⟨fun heq => heq ▸ hkey, fun hk =>
        SortedMap.entry_unique he hrow (hk.trans hkey.symm)⟩
    have hnew : e ∈ s.t.entries → e.1 ≠ ⟨rowidKey w.self⟩ →
        (Kept w pend e ↔ e.1 ≠ ⟨rowidKey w.new⟩) := fun he hs => by
      refine ⟨fun hk hn => ?_, fun hn _ => hn⟩
      cases hp : pend with
      | true => exact hk hp hn
      | false =>
        obtain ⟨-, heq⟩ := h.free hp (hn ▸ SortedMap.mem_of_entry he)
        exact hs (heq ▸ hn)
    cases hr : g.willRecnoChng with
    | true =>
      rw [if_pos rfl, SortedMap.entry_erase]
      constructor
      · rintro ⟨⟨he, hk⟩, hn⟩
        have hs := (hne he).1 hn
        exact ⟨⟨he, hs⟩, (hnew he hs).1 hk⟩
      · rintro ⟨⟨he, hs⟩, hn⟩
        exact ⟨⟨he, (hnew he hs).2 hn⟩, (hne he).2 hs⟩
    | false =>
      rw [if_neg (by simp), ← hsame hr]
      constructor
      · rintro ⟨⟨he, -⟩, hn⟩
        exact ⟨he, (hne he).1 hn⟩
      · rintro ⟨he, hs⟩
        exact ⟨⟨he, (hnew he hs).2 (hsame hr ▸ hs)⟩, (hne he).2 hs⟩
  refine ⟨?_, fun n ix hix => ?_⟩
  · cases g.willRecnoChng with
    | true => exact (h.table.erase _).insert w.new z
    | false => exact h.table.insert w.new z
  have hk := hkeys n ix hix
  rw [idxWith, hix]
  cases hused : g.used n with
  | true =>
    rw [hused, if_pos rfl] at hk
    exact indexOf_put (h.synced.without h.table hrow hkept hix hused) hothers hk
  | false =>
    -- an index that is left alone has the same key for the row as before
    rw [hused, if_neg (by simp)] at hk
    have hr : g.willRecnoChng = false := by
      cases hr : g.willRecnoChng with
      | false => rfl
      | true =>
        have := hall hr n (List.getElem?_eq_some_iff.1 hix).1
        exact absurd (hused.symm.trans this) (by simp)
    have hidx : idxWithout fp junk.toJunk tab g.used row s.idx n = s.idx n := by
      rw [idxWithout]
      split
      · rw [hused]
        rfl
      · rfl
    simp only [hidx]
    refine ((h.synced n ix hix).replace ⟨hrow, hkept⟩ hk).congr fun e => ?_
    rw [SortedMap.entry_insert, ← hothers e]
    exact or_comm

end

end Dbsql.L5.Rows
