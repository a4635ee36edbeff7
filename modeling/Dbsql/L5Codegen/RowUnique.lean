import Dbsql.L5Codegen.RowChecks
/-!
# Rowids and UNIQUE indices (cg_insert.c:814-1004)

The tests of `__generate_constraint_checks` that a REPLACE may follow, and all tests together.

`Checked` is what holds between the tests. Rows that a REPLACE has removed are gone with their
keys; the row that has the new rowid, if it is to be replaced, has lost its keys and is still
in the table (`Kept`). The cursor of an UPDATE may wait to be moved back to the row: then
`OP_NotExists` has no effect on it, and a REPLACE would hit the row itself (`Ready`).

Results:
* `rowidCheck_runs`, `indexChecks_runs`: what the tests leave, where they are `Safe`.
* `constraintChecks_runs`: the same of all tests.
-/
namespace Dbsql.L5.Rows
open Dbsql.Core Dbsql.L1 Dbsql.L2 Dbsql.L3 Dbsql.L3.Row

/-! ## REPLACE -/

/-- Whether a REPLACE has been coded before the index `n`. -/
def seenBefore (tab : Table) (g : Args) : Nat → Bool
  | 0 => seenAtRowid tab g
  | n + 1 =>
    match tab.pIndex[n]? with
    | none => seenBefore tab g n
    | some ix => if g.used n then seenAfter g (seenBefore tab g n) ix else seenBefore tab g n

/-- The code for the index `n` has a REPLACE. -/
def Replaces (tab : Table) (g : Args) (n : Nat) (ix : Index) : Prop :=
  g.used n = true ∧ ∃ declared, ix.onError = some declared ∧
    uniqueAction g (seenBefore tab g n) declared = .replace

section
variable {L : Type} (fp : LongDouble L) (junk : Junk) (tab : Table) (g : Args) (w : NewRow)
variable (cols : List Val)

/-- The key of the new row. -/
def newKey (ix : Index) : Bytes := pushedKey fp tab ix (.int w.new w.text) w.new cols

/-- The keys that are on the stack before the index `n`. -/
def keysOf : Nat → List Val
  | 0 => []
  | n + 1 =>
    match tab.pIndex[n]? with
    | none => keysOf n
    | some ix => if g.used n then .str (newKey fp tab w cols ix) :: keysOf n else keysOf n

/-- A row that a UNIQUE constraint replaces. -/
def Victim (e : Dbt × Bytes) : Prop :=
  e.1 ≠ ⟨rowidKey w.self⟩ ∧ ∃ n ix k, tab.pIndex[n]? = some ix ∧ Replaces tab g n ix ∧
    rowKey fp junk tab ix e = some k ∧ SameFields (newKey fp tab w cols ix) k.data

/-- Whether the keys of a row are in the indices: not when the row is to be replaced at its
rowid (`pend`). -/
def Kept (pend : Bool) (e : Dbt × Bytes) : Prop := pend = true → e.1 ≠ ⟨rowidKey w.new⟩

/-- What the tests leave of the table and its indices, from `s₀` to `s`. -/
structure Stored (s₀ : Vm) (pend : Bool) (s : Vm) : Prop where
  like : s₀.Like s
  table : IsTable s.t
  rows : ∀ e ∈ s.t.entries, e ∈ s₀.t.entries
  synced : Synced fp junk tab (fun e => e ∈ s.t.entries ∧ Kept w pend e) s.idx
  shrunk : ∀ n k, k ∈ s.idx n → k ∈ s₀.idx n
  free : pend = false → (⟨rowidKey w.new⟩ : Dbt) ∈ s.t → g.update = true ∧ w.self = w.new
  apart : pend = true → g.update = true → w.self ≠ w.new

/-- The table's cursor: in an UPDATE it is on the row, or is to be moved there when no row is
left to replace. -/
def Ready (pend : Bool) (s : Vm) : Prop :=
  ∃ c, s.aCsr g.base = .table c ∧ (g.update = true → Points s.t c w.self) ∧
    (c.deferredMoveto = true → g.update = true ∧
      ∀ e ∈ s.t.entries, Kept w pend e → ¬ Victim fp junk tab g w cols e)

/-- Before the test of the index `n`. -/
structure Checked (s₀ : Vm) (pend : Bool) (n : Nat) (s : Vm) : Prop where
  stored : Stored fp junk tab g w s₀ pend s
  ready : Ready fp junk tab g w cols pend s
  stack : s.stack = w.stack g (keysOf fp tab g w cols n) cols
  unseen : seenBefore tab g n = false → s.t = s₀.t ∧ s.idx = s₀.idx

/-- When the tests and the storing of a row keep the indices. -/
structure Safe (s₀ : Vm) : Prop where
  /-- a rowid that is not tested is new -/
  fresh : g.update = false → g.willRecnoChng = false → (⟨rowidKey w.new⟩ : Dbt) ∉ s₀.t
  /-- where REPLACE may come of it, `OP_NotExists` tells whether the rowid is there -/
  exact : seenAtRowid tab g = true →
    (⟨rowidKey w.new⟩ : Dbt) ∈ s₀.t ∨ ∀ k ∈ s₀.t, k < ⟨rowidKey w.new⟩
  /-- and `OP_IsUnique` whether the fields are -/
  ordered : ∀ n ix, tab.pIndex[n]? = some ix → Replaces tab g n ix →
    FieldsOrdered (s₀.idx n) (newKey fp tab w cols ix)
  opened : (∃ n ix, tab.pIndex[n]? = some ix ∧ Replaces tab g n ix) →
    UsedOpen tab s₀ g.base fun _ => true
  /-- an UPDATE replaces at most one row, and none besides the row that has the new rowid -/
  victims : g.update = true → if g.willRecnoChng then
      ∀ e ∈ s₀.t.entries, Victim fp junk tab g w cols e → e.1 = ⟨rowidKey w.new⟩
    else ∀ e ∈ s₀.t.entries, ∀ e' ∈ s₀.t.entries, Victim fp junk tab g w cols e →
      Victim fp junk tab g w cols e' → e = e'

end

section
variable {L : Type} {ar : Arith L} {en : Endian} {junk : Unset} {prog : Nat → Option Op}
variable {tab : Table} {g : Args} {w : NewRow} {cols : List Val} {s₀ s : Vm} {pend : Bool}
variable {Q : Nat × Vm → Prop}

/-! ## What the tests keep -/

/-- The keys of an index are those of rows. -/
theorem Stored.entry {fp : LongDouble L} {j : Junk} {n : Nat} {ix : Index} {k : Dbt}
    (h : Stored fp j tab g w s₀ pend s) (hix : tab.pIndex[n]? = some ix) (hk : k ∈ s.idx n) :
    ∃ e, e ∈ s.t.entries ∧ Kept w pend e ∧ rowKey fp j tab ix e = some k ∧
      e.1 = ⟨rowidKey (keyRowid (k.data.drop (k.data.length - 4)))⟩ := by
  obtain ⟨e, ⟨he, hkept⟩, hke⟩ := (h.synced n ix hix).entry k hk
  obtain ⟨r, hr⟩ := h.table e.1 (SortedMap.mem_of_entry he)
  refine ⟨e, he, hkept, hke, ?_⟩
  rw [rowKey_rowid hke, hr, keyRowid_rowidKey]

/-- A replaced row is gone with its keys. -/
theorem Stored.gone {s s' : Vm} {e : Dbt × Bytes} {st : List Val}
    (h : Stored ar.ld junk.toJunk tab g w s₀ pend s) (he : e ∈ s.t.entries) (hkept : Kept w pend e)
    (hgone : RowGone tab ar.ld junk.toJunk g.base e st s s') :
    Stored ar.ld junk.toJunk tab g w s₀ pend s' := by
  have hmem : ∀ e', e' ∈ s'.t.entries → e' ∈ s.t.entries := fun e' he' => by
    rw [hgone.t, SortedMap.entry_erase] at he'
    exact he'.1
  refine ⟨h.like.trans hgone.like, ?_, fun e' he' => h.rows e' (hmem e' he'), ?_, fun n k hk => ?_,
    fun hp hnew => ?_, h.apart⟩
  · rw [hgone.t]
    exact h.table.erase e.1
  · rw [hgone.idx, hgone.t]
    exact h.synced.erase h.table he hkept
  · rw [hgone.idx, idxWithout] at hk
    split at hk
    · exact h.shrunk n k (SortedMap.mem_erase.1 hk).1
    · exact h.shrunk n k hk
  · rw [hgone.t] at hnew
    exact h.free hp (SortedMap.mem_erase.1 hnew).1


/-- Where an UPDATE changes the rowid, no row is left to replace. -/
theorem Safe.none_left {fp : LongDouble L} {j : Junk} (hsafe : Safe fp j tab g w cols s₀)
    (h : Stored fp j tab g w s₀ pend s) (hu : g.update = true) (hr : g.willRecnoChng = true)
    {e : Dbt × Bytes} (he : e ∈ s.t.entries) (hkept : Kept w pend e) :
    ¬ Victim fp j tab g w cols e := by
  intro hv
  have hvictims := hsafe.victims hu
  rw [if_pos hr] at hvictims
  have hnew := hvictims e (h.rows e he) hv
  cases hp : pend with
  | true => exact hkept hp hnew
  | false =>
    obtain ⟨-, hself⟩ := h.free hp (hnew ▸ SortedMap.mem_of_entry he)
    exact hv.1 (hself ▸ hnew)

/-- After one row has been replaced, an UPDATE replaces no other. -/
theorem Safe.none_after {fp : LongDouble L} {j : Junk} (hsafe : Safe fp j tab g w cols s₀)
    (h : Stored fp j tab g w s₀ pend s) (hu : g.update = true) {e e' : Dbt × Bytes}
    (he : e ∈ s.t.entries) (hkept : Kept w pend e) (hv : Victim fp j tab g w cols e)
    (he' : e' ∈ (s.t.erase e.1).entries) : ¬ Victim fp j tab g w cols e' := by
  intro hv'
  cases hr : g.willRecnoChng with
  | true => exact hsafe.none_left h hu hr he hkept hv
  | false =>
    have hvictims := hsafe.victims hu
    rw [if_neg (by simp [hr])] at hvictims
    obtain ⟨hin, hne⟩ := SortedMap.entry_erase.1 he'
    exact hne (hvictims e (h.rows e he) e' (h.rows e' hin) hv hv' ▸ rfl)

/-- Before any REPLACE nothing has changed. -/
theorem Stored.start {fp : LongDouble L} {j : Junk} (h : Consistent fp j tab s₀.t s₀.idx)
    (hlike : s₀.Like s) (ht : s.t = s₀.t) (hidx : s.idx = s₀.idx)
    (hfree : (⟨rowidKey w.new⟩ : Dbt) ∈ s₀.t → g.update = true ∧ w.self = w.new) :
    Stored fp j tab g w s₀ false s := by
  refine ⟨hlike, ht ▸ h.table, fun e he => ht ▸ he, ?_, fun n k hk => hidx ▸ hk, fun _ hnew =>
    hfree (ht ▸ hnew), nofun⟩
  rw [hidx, ht]
  exact fun n ix hix => (h.synced n ix hix).congr fun e => ⟨And.left, fun he => ⟨he, nofun⟩⟩

/-- The keys of the row that has the new rowid are gone. -/
theorem Stored.pending {s₁ s' : Vm} {e : Dbt × Bytes}
    (h : Consistent ar.ld junk.toJunk tab s₀.t s₀.idx) (hlike : s₀.Like s₁) (ht : s₁.t = s₀.t)
    (hidx : s₁.idx = s₀.idx) (he : e ∈ s₀.t.entries) (hkey : e.1 = ⟨rowidKey w.new⟩)
    (hapart : g.update = true → w.self ≠ w.new)
    (hgone : KeysGone tab ar.ld junk.toJunk g.base (fun _ => true) e w.new s₁ s') :
    Stored ar.ld junk.toJunk tab g w s₀ true s' := by
  have hs : s'.t = s₀.t := hgone.t.trans ht
  have hidx' : s'.idx = idxWithout ar.ld junk.toJunk tab (fun _ => true) e s₀.idx := by
    rw [← hidx]
    exact funext hgone.idx
  refine ⟨hlike.trans hgone.like, hs ▸ h.table, fun e he => hs ▸ he, fun n ix hix => ?_,
    fun n k hk => ?_, nofun, fun _ => hapart⟩
  · have hall : Synced ar.ld junk.toJunk tab (fun e' => e' ∈ s₀.t.entries ∧ True) s₀.idx :=
      fun n ix hix => (h.synced n ix hix).congr fun e' => and_iff_left trivial
    rw [hidx', hs]
    refine (hall.without h.table he trivial hix rfl).congr fun e' => ?_
    refine ⟨fun h' => ⟨⟨h'.1, trivial⟩, fun heq => h'.2 rfl (heq ▸ hkey)⟩, fun h' =>
      ⟨h'.1.1, fun _ hnew => h'.2 ?_⟩⟩
    exact SortedMap.entry_unique h'.1.1 he (hnew.trans hkey.symm)
  · rw [hidx', idxWithout] at hk
    split at hk
    · exact (SortedMap.mem_erase.1 hk).1
    · exact hk

/-! ## The rowid -/

/-- In an UPDATE the cursor goes back to the row. -/
theorem moveBack_runs {a : Nat} {c : Cursor} (hsafe : Safe ar.ld junk.toJunk tab g w cols s₀)
    (hlen : cols.length = tab.nCol) (hu : g.update = true) (hr : g.willRecnoChng = true)
    (hc : CodeAt prog a [.dup (tab.nCol + 1), .moveTo g.base])
    (h : Stored ar.ld junk.toJunk tab g w s₀ pend s) (hst : s.stack = w.stack g [] cols)
    (hcsr : s.aCsr g.base = .table c) (hself : (⟨rowidKey w.self⟩ : Dbt) ∈ s.t)
    (hunseen : seenAtRowid tab g = false → s.t = s₀.t ∧ s.idx = s₀.idx)
    (hend : ∀ s', Checked ar.ld junk.toJunk tab g w cols s₀ pend 0 s' →
      Ends (Row.exec ar en junk) prog Q (a + 2, s')) :
    Ends (Row.exec ar en junk) prog Q (a, s) := by
  have htwo : g.twoRecnos = 1 := by
    rw [Args.twoRecnos, hu, hr]
    rfl
  obtain ⟨x, hget⟩ := @stack_self w g [] cols fun h => absurd (h.symm.trans htwo) (by simp)
  rw [← hst, hlen, htwo, List.length_nil, Nat.zero_add] at hget
  refine Ends.op hc.head (exec_dup hget) (Ends.op hc.tail.head (exec_moveTo rfl hcsr) (hend _ ?_))
  refine ⟨⟨h.like.setCsr (hcsr ▸ .table c _), h.table, h.rows, h.synced, h.shrunk, h.free, h.apart⟩,
    ⟨_, Function.update_self .., fun _ => Points.ofMoveTo hself c, fun _ =>
      ⟨hu, fun e he hkept => ?_⟩⟩,
    hst, hunseen⟩
  exact hsafe.none_left h hu hr he hkept

/-- The code for a rowid that `OP_NotExists` finds. -/
theorem rowidConflict_runs {b : Nat} {u : Vm} {c : Cursor} (hj : junk.v.length = 4)
    (hsafe : Safe ar.ld junk.toJunk tab g w cols s₀) (hlen : cols.length = tab.nCol)
    (hself : g.twoRecnos = 0 → w.self = w.new) (hr : g.willRecnoChng = true)
    (hcons : Consistent ar.ld junk.toJunk tab s₀.t s₀.idx)
    (hopen : UsedOpen tab s₀ g.base fun _ => true) (hapart : g.update = true → w.self ≠ w.new)
    (hc : CodeAt prog b (rowidConflict tab g)) (hlike : s₀.Like u) (ht : u.t = s₀.t)
    (hidx : u.idx = s₀.idx) (hst : u.stack = w.stack g [] cols)
    (hcsr : u.aCsr g.base = .table (opNotExists s₀.t c w.new).1) (hd : c.deferredMoveto = false)
    (hfound : (opNotExists s₀.t c w.new).2 = false)
    (hend : ∀ s' c', Stored ar.ld junk.toJunk tab g w s₀ true s' → s'.stack = w.stack g [] cols →
      s'.t = s₀.t → s'.aCsr g.base = .table c' → (g.update = false → c'.deferredMoveto = false) →
      seenAtRowid tab g = true →
      Ends (Row.exec ar en junk) prog Q (b + (rowidConflict tab g).length, s'))
    (hign : ∀ s', s'.stack = w.st → s'.t = s₀.t → s'.idx = s₀.idx →
      Ends (Row.exec ar en junk) prog Q (g.ignoreDest, s'))
    (hhalt : ∀ b s' oe msg, prog b = some (.halt .constraint oe msg) →
      (oe = .fail → s'.t = s₀.t ∧ s'.idx = s₀.idx) → Q (b, s')) :
    Ends (Row.exec ar en junk) prog Q (b, u) := by
  rw [rowidConflict] at hc hend
  cases hact : g.resolve tab.keyConf with
  | rollback | abort | fail =>
    simp only [hact] at hc
    exact .here (hhalt _ _ _ _ hc.head fun _ => ⟨ht, hidx⟩)
  | ignore =>
    simp only [hact] at hc
    have hsize : u.stack.length = tab.nCol + 1 + g.twoRecnos + w.st.length := by
      rw [hst, stack_length, List.length_nil, hlen, Nat.zero_add]
    have hdrop := @stack_drop w g [] cols
    rw [← hst, List.length_nil, Nat.zero_add, hlen] at hdrop
    refine Ends.op hc.head (exec_pop (by omega)) (Ends.op hc.tail.head rfl ?_)
    exact hign _ hdrop ht hidx
  | replace =>
    have hseen : seenAtRowid tab g = true := by
      rw [seenAtRowid, hr, hact]
      rfl
    simp only [hact] at hc hend
    have hin : (⟨rowidKey w.new⟩ : Dbt) ∈ s₀.t := by
      refine (hsafe.exact hseen).resolve_right fun habove => ?_
      rw [opNotExists_jumps.2 habove] at hfound
      cases hfound
    obtain ⟨e, he, hkey⟩ := SortedMap.mem_iff.1 hin
    have hunder : Under tab u g.base (fun _ => true) e w.new := by
      refine ⟨⟨_, hcsr, ?_⟩, ht ▸ he, hkey, hopen.like hlike⟩
      rw [ht]
      exact Points.ofNotExists hin hd
    obtain ⟨s', hgone, hruns⟩ := @rowIndexDelete_runs L ar en junk prog tab g.base b (fun _ => true)
      w.new e u hj hc.left hunder fun n ix hix _ => hidx ▸ (hcons.synced n ix hix).complete e he
    have hstored := Stored.pending hcons hlike ht hidx he hkey hapart hgone
    obtain ⟨c', hcsr', -, hd'⟩ := hgone.cursor
    have hdef := hd' _ hcsr ((opNotExists_deferred ..).trans hd)
    refine Ends.trans hruns ?_
    cases hu : g.update with
    | false =>
      have hdone := hend s' c' hstored (hgone.stack.trans hst) (hgone.t.trans ht) hcsr'
        (fun _ => hdef) hseen
      rw [hu, if_neg (by simp), List.append_nil] at hdone
      exact hdone
    | true =>
      have hbody := hc.after (b := b + (rowIndexDelete tab g.base fun _ => true).length) rfl
      rw [hu, if_pos rfl] at hbody hend
      obtain ⟨x, hget⟩ := @stack_self w g [] cols hself
      rw [← hst, ← hgone.stack, List.length_nil, Nat.zero_add, hlen] at hget
      refine Ends.op hbody.head (exec_dup hget) (Ends.op hbody.tail.head (exec_moveTo rfl hcsr') ?_)
      rw [List.length_append, ← Nat.add_assoc] at hend
      refine hend _ _ ⟨hstored.like.setCsr (hcsr' ▸ .table c' _), hstored.table, hstored.rows,
        hstored.synced, hstored.shrunk, hstored.free, hstored.apart⟩ (hgone.stack.trans hst)
        (hgone.t.trans ht) (Function.update_self ..) (fun hu' => ?_) hseen
      exact absurd hu' (by simp)

/-- Where `OP_NotExists` jumps, there is no such row. -/
theorem absent_of_jump {t : Btree} {c : Cursor} {r : CInt} (h : (opNotExists t c r).2 = true) :
    (⟨rowidKey r⟩ : Dbt) ∉ t :=
  fun hin => absurd (opNotExists_jumps.1 h _ hin) (lt_irrefl _)

/-- In an INSERT the rowid is looked up, and a row that has it makes way. -/
theorem rowidCheck_insert_runs {a : Nat} {c : Cursor} (hj : junk.v.length = 4)
    (hsafe : Safe ar.ld junk.toJunk tab g w cols s₀) (hlen : cols.length = tab.nCol)
    (hself : g.twoRecnos = 0 → w.self = w.new)
    (hcons : Consistent ar.ld junk.toJunk tab s₀.t s₀.idx)
    (hopen : UsedOpen tab s₀ g.base fun _ => true) (hr : g.willRecnoChng = true)
    (hu : g.update = false)
    (hc : CodeAt prog a (rowidCheck tab g a)) (hst : s₀.stack = w.stack g [] cols)
    (hcsr : s₀.aCsr g.base = .table c) (hd : c.deferredMoveto = false)
    (hend : ∀ pend s', Checked ar.ld junk.toJunk tab g w cols s₀ pend 0 s' →
      Ends (Row.exec ar en junk) prog Q (a + (rowidCheck tab g a).length, s'))
    (hign : ∀ s', s'.stack = w.st → s'.t = s₀.t → s'.idx = s₀.idx →
      Ends (Row.exec ar en junk) prog Q (g.ignoreDest, s'))
    (hhalt : ∀ b s' oe msg, prog b = some (.halt .constraint oe msg) →
      (oe = .fail → s'.t = s₀.t ∧ s'.idx = s₀.idx) → Q (b, s')) :
    Ends (Row.exec ar en junk) prog Q (a, s₀) := by
  rw [rowidCheck, hr, if_pos rfl] at hc hend
  simp only [hu, Bool.false_eq_true, if_false] at hc hend
  have hget := @stack_rowid w g [] cols
  rw [← hst, List.length_nil, Nat.zero_add, hlen] at hget
  have hlike : s₀.Like (s₀.setCsr g.base (.table (opNotExists s₀.t c w.new).1)) :=
    (Vm.Like.refl s₀).setCsr (hcsr ▸ .table c _)
  have hcsr₁ : (s₀.setCsr g.base (.table (opNotExists s₀.t c w.new).1)).aCsr g.base =
      .table (opNotExists s₀.t c w.new).1 := Function.update_self ..
  refine Ends.op hc.left.head (exec_dup hget)
    (Ends.op hc.left.tail.head (exec_notExists rfl hcsr) ?_)
  rw [List.length_append, ← Nat.add_assoc] at hend
  cases hj' : (opNotExists s₀.t c w.new).2 with
  | true =>
    refine hend false _ ⟨Stored.start hcons hlike rfl rfl fun hnew => absurd hnew (absent_of_jump hj'),
      ⟨_, hcsr₁, fun h => absurd (hu.symm.trans h) (by simp), fun hdef => ?_⟩, hst,
      fun _ => ⟨rfl, rfl⟩⟩
    exact absurd (((opNotExists_deferred ..).trans hd).symm.trans hdef) (by simp)
  | false =>
    refine rowidConflict_runs
      (u := { s₀.setCsr g.base (.table (opNotExists s₀.t c w.new).1) with stack := s₀.stack })
      hj hsafe hlen hself hr hcons hopen (fun h => absurd (hu.symm.trans h) (by simp))
      (hc.after rfl) hlike rfl rfl hst hcsr₁ hd hj' ?_ hign hhalt
    intro s' c' hstored hst' _ hcsr' hd' hseen
    refine hend true s' ⟨hstored, ⟨c', hcsr', fun h => absurd (hu.symm.trans h) (by simp),
      fun hdef => absurd ((hd' hu).symm.trans hdef) (by simp)⟩, hst', fun hs => ?_⟩
    exact absurd (hseen.symm.trans hs) (by simp)

/-- In an UPDATE that is done if the rowid changes, and the cursor goes back to the row. -/
theorem rowidCheck_update_runs {a : Nat} {c : Cursor} (hj : junk.v.length = 4)
    (hsafe : Safe ar.ld junk.toJunk tab g w cols s₀) (hlen : cols.length = tab.nCol)
    (hself : g.twoRecnos = 0 → w.self = w.new)
    (hcons : Consistent ar.ld junk.toJunk tab s₀.t s₀.idx)
    (hopen : UsedOpen tab s₀ g.base fun _ => true) (hr : g.willRecnoChng = true)
    (hu : g.update = true)
    (hc : CodeAt prog a (rowidCheck tab g a)) (hst : s₀.stack = w.stack g [] cols)
    (hcsr : s₀.aCsr g.base = .table c) (hd : c.deferredMoveto = false)
    (hin : (⟨rowidKey w.self⟩ : Dbt) ∈ s₀.t)
    (hend : ∀ pend s', Checked ar.ld junk.toJunk tab g w cols s₀ pend 0 s' →
      Ends (Row.exec ar en junk) prog Q (a + (rowidCheck tab g a).length, s'))
    (hign : ∀ s', s'.stack = w.st → s'.t = s₀.t → s'.idx = s₀.idx →
      Ends (Row.exec ar en junk) prog Q (g.ignoreDest, s'))
    (hhalt : ∀ b s' oe msg, prog b = some (.halt .constraint oe msg) →
      (oe = .fail → s'.t = s₀.t ∧ s'.idx = s₀.idx) → Q (b, s')) :
    Ends (Row.exec ar en junk) prog Q (a, s₀) := by
  rw [rowidCheck, hr, if_pos rfl] at hc hend
  simp only [hu, if_true] at hc hend
  have hget := @stack_rowid w g [] cols
  rw [← hst, List.length_nil, Nat.zero_add, hlen] at hget
  have hlike : s₀.Like (s₀.setCsr g.base (.table (opNotExists s₀.t c w.new).1)) :=
    (Vm.Like.refl s₀).setCsr (hcsr ▸ .table c _)
  have hcsr₁ : (s₀.setCsr g.base (.table (opNotExists s₀.t c w.new).1)).aCsr g.base =
      .table (opNotExists s₀.t c w.new).1 := Function.update_self ..
  rw [List.length_append, ← Nat.add_assoc] at hend
  have hback := hc.after (b := a + 5 + (rowidConflict tab g).length) (by
    rw [List.length_append, ← Nat.add_assoc]
    rfl)
  have hend' : ∀ pend s', Checked ar.ld junk.toJunk tab g w cols s₀ pend 0 s' →
      Ends (Row.exec ar en junk) prog Q (a + 5 + (rowidConflict tab g).length + 2, s') :=
    fun pend s' h' => by
      have hdone := hend pend s' h'
      rw [List.length_append, ← Nat.add_assoc] at hdone
      exact hdone
  obtain ⟨x, hget'⟩ := @stack_self w g [] cols hself
  have htwo : g.twoRecnos = 1 := by
    rw [Args.twoRecnos, hu, hr]
    rfl
  rw [← hst, List.length_nil, Nat.zero_add, hlen, htwo] at hget'
  have hget₁ : (Val.int w.self x :: s₀.stack)[tab.nCol + 1]? = some (.int w.new w.text) := by
    rw [List.getElem?_cons_succ, hget]
  refine Ends.op hc.left.left.head (exec_dup hget')
    (Ends.op hc.left.left.tail.head (exec_dup hget₁)
    (Ends.op hc.left.left.tail.tail.head (exec_eq (by omega) rfl) ?_))
  by_cases heq : w.self = w.new
  · rw [if_pos heq]
    exact moveBack_runs hsafe hlen hu hr hback
      (Stored.start hcons (.refl s₀) rfl rfl fun _ => ⟨hu, heq⟩) hst hcsr hin
      (fun _ => ⟨rfl, rfl⟩) (hend' false)
  · rw [if_neg heq]
    refine Ends.op hc.left.left.tail.tail.tail.head (exec_dup hget)
      (Ends.op hc.left.left.tail.tail.tail.tail.head (exec_notExists rfl hcsr) ?_)
    cases hj' : (opNotExists s₀.t c w.new).2 with
    | true =>
      exact moveBack_runs hsafe hlen hu hr hback
        (Stored.start hcons hlike rfl rfl fun hnew => absurd hnew (absent_of_jump hj')) hst hcsr₁ hin
        (fun _ => ⟨rfl, rfl⟩) (hend' false)
    | false =>
      refine rowidConflict_runs
        (u := { s₀.setCsr g.base (.table (opNotExists s₀.t c w.new).1) with stack := s₀.stack })
        hj hsafe hlen hself hr hcons hopen (fun _ => heq) (hc.left.after rfl) hlike rfl rfl hst
        hcsr₁ hd hj' ?_ hign hhalt
      intro s' c' hstored hst' ht' hcsr' _ hseen
      exact moveBack_runs hsafe hlen hu hr hback hstored hst' hcsr' (ht' ▸ hin)
        (fun hs => absurd (hseen.symm.trans hs) (by simp)) (hend' true)

/-- **The test of the rowid leaves the row to be replaced without its keys, or leaves.** -/
theorem rowidCheck_runs {a : Nat} {c : Cursor} (hj : junk.v.length = 4)
    (hsafe : Safe ar.ld junk.toJunk tab g w cols s₀) (hlen : cols.length = tab.nCol)
    (hself : g.twoRecnos = 0 → w.self = w.new)
    (hcons : Consistent ar.ld junk.toJunk tab s₀.t s₀.idx)
    (hopen : UsedOpen tab s₀ g.base g.used)
    (hall : g.willRecnoChng = true → ∀ n, n < tab.pIndex.length → g.used n = true)
    (hc : CodeAt prog a (rowidCheck tab g a)) (hst : s₀.stack = w.stack g [] cols)
    (hcsr : s₀.aCsr g.base = .table c) (hd : c.deferredMoveto = false)
    (hp : g.update = true → Points s₀.t c w.self)
    (hend : ∀ pend s', Checked ar.ld junk.toJunk tab g w cols s₀ pend 0 s' →
      Ends (Row.exec ar en junk) prog Q (a + (rowidCheck tab g a).length, s'))
    (hign : ∀ s', s'.stack = w.st → s'.t = s₀.t → s'.idx = s₀.idx →
      Ends (Row.exec ar en junk) prog Q (g.ignoreDest, s'))
    (hhalt : ∀ b s' oe msg, prog b = some (.halt .constraint oe msg) →
      (oe = .fail → s'.t = s₀.t ∧ s'.idx = s₀.idx) → Q (b, s')) :
    Ends (Row.exec ar en junk) prog Q (a, s₀) := by
  cases hr : g.willRecnoChng with
  | false =>
    rw [rowidCheck, hr, if_neg (by simp)] at hend
    refine hend false s₀ ⟨Stored.start hcons (.refl s₀) rfl rfl fun hnew => ?_,
      ⟨c, hcsr, hp, fun hdef => absurd (hd.symm.trans hdef) (by simp)⟩, hst, fun _ => ⟨rfl, rfl⟩⟩
    cases hu : g.update with
    | false => exact absurd hnew (hsafe.fresh hu hr)
    | true =>
      refine ⟨rfl, hself ?_⟩
      rw [Args.twoRecnos, hr, Bool.and_false]
      rfl
  | true =>
    have hopen' : UsedOpen tab s₀ g.base fun _ => true := fun n hn _ => hopen n hn (hall hr n hn)
    cases hu : g.update with
    | false =>
      exact rowidCheck_insert_runs hj hsafe hlen hself hcons hopen' hr hu hc hst hcsr hd hend hign
        hhalt
    | true =>
      exact rowidCheck_update_runs hj hsafe hlen hself hcons hopen' hr hu hc hst hcsr hd (hp hu).mem
        hend hign hhalt

/-! ## Index keys -/

/-- The columns of an index entry are pushed. -/
theorem pushIdxColsFrom_runs {keys : List Val} (hlen : cols.length = tab.nCol) : ∀ (rest : List Nat)
    (a : Nat) (s : Vm) (vs : List Val), (∀ c ∈ rest, c < tab.nCol) →
      CodeAt prog a (pushIdxColsFrom tab keys.length vs.length rest) →
      s.stack = vs.reverse ++ .int w.new w.text :: w.stack g keys cols →
      Ends (Row.exec ar en junk) prog (· = (a + rest.length,
        { s with
          stack := (vs ++ rest.map fun c => if tab.iPKey = some c then .int w.new w.text
            else cols.getD c .null).reverse ++ .int w.new w.text :: w.stack g keys cols }))
            (a, s) := by
  intro rest
  induction rest with
  | nil =>
    intro a s vs _ _ hst
    refine .here ?_
    rw [List.map_nil, List.append_nil, ← hst]
    rfl
  | cons n rest ih =>
    intro a s vs hall hc hst
    have hn : n < cols.length := hlen ▸ hall n List.mem_cons_self
    -- a column, or the rowid, below the columns pushed before it and the rowid of the key
    have hbelow : ∀ j, s.stack[vs.length + 1 + j]? = (w.stack g keys cols)[j]? := by
      intro j
      rw [hst, List.getElem?_append_right (by simp; omega), List.length_reverse, Nat.add_assoc,
        Nat.add_sub_cancel_left, Nat.add_comm 1, List.getElem?_cons_succ]
    have hop : Row.exec ar en junk
      (if tab.iPKey = some n then .dup (vs.length + keys.length + tab.nCol + 1)
        else .dup (vs.length + keys.length + tab.nCol - n)) (a, s) =
          some (a + 1,
            { s with
              stack := (if tab.iPKey = some n then .int w.new w.text
                else cols.getD n .null) :: s.stack }) := by
      by_cases hpk : tab.iPKey = some n
      · rw [if_pos hpk, if_pos hpk]
        refine exec_dup ?_
        rw [show vs.length + keys.length + tab.nCol + 1 =
          vs.length + 1 + (keys.length + cols.length) by
          omega, hbelow, stack_rowid]
      · rw [if_neg hpk, if_neg hpk]
        refine exec_dup ?_
        rw [show vs.length + keys.length + tab.nCol - n =
          vs.length + 1 + (keys.length + (cols.length - 1 - n)) by omega, hbelow, stack_col hn,
          List.getD_eq_getElem?_getD, List.getElem?_eq_getElem hn]
        rfl
    have hstep := ih (a + 1) { s with stack := (if tab.iPKey = some n then Val.int w.new w.text
      else cols.getD n .null) :: s.stack } (vs ++ [if tab.iPKey = some n then .int w.new w.text
      else cols.getD n .null]) (fun c hc => hall c (List.mem_cons_of_mem _ hc))
        (by rw [List.length_append, List.length_singleton]; exact hc.tail) (by
          rw [List.reverse_append, List.reverse_singleton, List.singleton_append, List.cons_append, ← hst])
    refine Ends.op hc.head hop ?_
    rw [List.map_cons, List.length_cons, Nat.add_comm rest.length, ← Nat.add_assoc]
    rw [List.append_assoc, List.singleton_append] at hstep
    exact hstep

theorem pushIdxColsFrom_length (tab : Table) (extra : Nat) (rest : List Nat) : ∀ i,
    (pushIdxColsFrom tab extra i rest).length = rest.length := by
  induction rest with
  | nil => exact fun _ => rfl
  | cons n rest ih => exact fun i => congrArg (· + 1) (ih (i + 1))

theorem pushIdxCols_length (tab : Table) (extra : Nat) (ix : Index) :
    (pushIdxCols tab extra ix).length = 1 + ix.aiColumn.length := by
  rw [pushIdxCols, List.length_append, pushIdxColsFrom_length]
  rfl

/-- The key of an index is made; its `OP_MakeIdxKey` jumps when a column is NULL. -/
theorem makeKey_runs {ix : Index} {a p2 : Nat} {keys : List Val} (hlen : cols.length = tab.nCol)
    (hix : ix ∈ tab.pIndex)
    (hc : CodeAt prog a (pushIdxCols tab keys.length ix ++
      [.makeIdxKey ix.aiColumn.length p2 (idxKeyType tab ix)]))
    (hst : s.stack = w.stack g keys cols)
    (hkey : ∀ pc, pc = a + (ix.aiColumn.length + 2) ∨ p2 ≠ 0 ∧ pc = p2 →
      Ends (Row.exec ar en junk) prog Q
        (pc, { s with stack := .str (newKey ar.ld tab w cols ix) :: s.stack })) :
    Ends (Row.exec ar en junk) prog Q (a, s) := by
  have hrowid : s.stack[tab.nCol + keys.length]? = some (.int w.new w.text) := by
    rw [hst, ← hlen, Nat.add_comm, stack_rowid]
  let vals := pushedVals tab ix (.int w.new w.text) cols
  have hvals : vals.length = ix.aiColumn.length := List.length_map _
  have hcols : Ends (Row.exec ar en junk) prog (· = (a + 1 + vals.length,
      { s with stack := vals.reverse ++ .int w.new w.text :: s.stack }))
      (a + 1, { s with stack := .int w.new w.text :: s.stack }) := by
    rw [hst, hvals]
    exact pushIdxColsFrom_runs hlen ix.aiColumn (a + 1) { s with stack := .int w.new w.text :: _ } []
      (tab.columns ix hix).2 hc.left.tail rfl
  refine Ends.op hc.left.head (exec_dup hrowid) (Ends.trans hcols ?_)
  have hc' := hc.after (b := a + 1 + vals.length) (by rw [pushIdxCols_length, hvals]; omega)
  rw [← hvals] at hc'
  refine Ends.op hc'.head (exec_makeIdxKey rfl) ?_
  split
  · rename_i h
    exact hkey _ (.inr ⟨h.1, rfl⟩)
  · refine hkey _ (.inl ?_)
    rw [← hvals]
    omega


/-! ## One index -/

theorem seenBefore_succ {n : Nat} {ix : Index} (hix : tab.pIndex[n]? = some ix)
    (hu : g.used n = true) : seenBefore tab g (n + 1) = seenAfter g (seenBefore tab g n) ix := by
  rw [seenBefore, hix]
  exact if_pos hu

theorem seenBefore_skip {n : Nat} (hu : g.used n = false) :
    seenBefore tab g (n + 1) = seenBefore tab g n := by
  rw [seenBefore]
  split
  · rfl
  · rw [if_neg (by simp [hu])]

theorem seenBefore_mono {n : Nat} (h : seenBefore tab g (n + 1) = false) :
    seenBefore tab g n = false := by
  rw [seenBefore] at h
  split at h
  · exact h
  · split at h
    · unfold seenAfter at h
      split at h
      · exact h
      · exact (Bool.or_eq_false_iff.1 h).1
    · exact h

theorem keysOf_succ {fp : LongDouble L} {n : Nat} {ix : Index} (hix : tab.pIndex[n]? = some ix)
    (hu : g.used n = true) :
    keysOf fp tab g w cols (n + 1) =
      .str (newKey fp tab w cols ix) :: keysOf fp tab g w cols n := by
  rw [keysOf, hix]
  exact if_pos hu

theorem keysOf_skip {fp : LongDouble L} {n : Nat} (hu : g.used n = false) :
    keysOf fp tab g w cols (n + 1) = keysOf fp tab g w cols n := by
  rw [keysOf]
  split
  · rfl
  · rw [if_neg (by simp [hu])]

/-- The key of an index is pushed. -/
theorem Checked.push {fp : LongDouble L} {j : Junk} {n : Nat} {ix : Index}
    (h : Checked fp j tab g w cols s₀ pend n s) (hix : tab.pIndex[n]? = some ix)
    (hu : g.used n = true) :
    Checked fp j tab g w cols s₀ pend (n + 1)
      { s with stack := .str (newKey fp tab w cols ix) :: s.stack } := by
  refine ⟨⟨h.stored.like, h.stored.table, h.stored.rows, h.stored.synced, h.stored.shrunk,
    h.stored.free, h.stored.apart⟩, h.ready, ?_, fun hs => h.unseen (seenBefore_mono hs)⟩
  rw [keysOf_succ hix hu, h.stack]
  rfl

theorem Checked.skip {fp : LongDouble L} {j : Junk} {n : Nat}
    (h : Checked fp j tab g w cols s₀ pend n s) (hu : g.used n = false) :
    Checked fp j tab g w cols s₀ pend (n + 1) s := by
  refine ⟨h.stored, h.ready, ?_, fun hs => h.unseen (seenBefore_mono hs)⟩
  rw [keysOf_skip hu, h.stack]

/-- A cursor of an index moves. -/
theorem Checked.setCsr {fp : LongDouble L} {j : Junk} {n m i : Nat} {p q : Option Dbt}
    (h : Checked fp j tab g w cols s₀ pend n s) (hm : s.aCsr m = .index i p) :
    Checked fp j tab g w cols s₀ pend n (s.setCsr m (.index i q)) := by
  obtain ⟨c, hc, hp, hd⟩ := h.ready
  have hne : g.base ≠ m := by
    rintro rfl
    rw [hc] at hm
    cases hm
  refine ⟨⟨h.stored.like.setCsr (hm ▸ .index i p q), h.stored.table, h.stored.rows,
    h.stored.synced, h.stored.shrunk, h.stored.free, h.stored.apart⟩,
    ⟨c, (Function.update_of_ne hne ..).trans hc, hp, hd⟩, h.stack, h.unseen⟩

/-- The rowid of the row that is written stands below the keys and the columns. -/
theorem Checked.self {fp : LongDouble L} {j : Junk} {n : Nat}
    (h : Checked fp j tab g w cols s₀ pend n s) (hlen : cols.length = tab.nCol)
    (hself : g.twoRecnos = 0 → w.self = w.new) :
    ∃ x, s.stack[(keysOf fp tab g w cols n).length + tab.nCol + g.twoRecnos]? =
      some (.int w.self x) := by
  rw [h.stack, ← hlen]
  exact stack_self hself

/-- A REPLACE of a row that is there. -/
theorem replace_runs {n a : Nat} {ix : Index} {e : Dbt × Bytes} {v : CInt} {x : Option Bytes}
    (hj : junk.v.length = 4) (hsafe : Safe ar.ld junk.toJunk tab g w cols s₀)
    (hlen : cols.length = tab.nCol) (hself : g.twoRecnos = 0 → w.self = w.new)
    (hix : tab.pIndex[n]? = some ix) (hu : g.used n = true)
    (hc : CodeAt prog a
      (uniqueConflict tab g (keysOf ar.ld tab g w cols n).length ix .replace a))
    (h : Checked ar.ld junk.toJunk tab g w cols s₀ pend (n + 1) s)
    (hopen : UsedOpen tab s₀ g.base fun _ => true) (hseen : seenBefore tab g (n + 1) = true)
    (he : e ∈ s.t.entries) (hkept : Kept w pend e) (hv : Victim ar.ld junk.toJunk tab g w cols e)
    (hkey : e.1 = ⟨rowidKey v⟩)
    (hend : ∀ s', Checked ar.ld junk.toJunk tab g w cols s₀ pend (n + 1) s' →
      Ends (Row.exec ar en junk) prog Q
        (a + (uniqueConflict tab g (keysOf ar.ld tab g w cols n).length ix .replace a).length, s'))
        :
    Ends (Row.exec ar en junk) prog Q (a, { s with stack := .int v x :: s.stack }) := by
  obtain ⟨c, hcsr, hp, hd⟩ := h.ready
  have hdef : c.deferredMoveto = false := by
    cases hdef : c.deferredMoveto with
    | false => rfl
    | true => exact absurd hv ((hd hdef).2 e he hkept)
  simp only [uniqueConflict] at hc hend
  obtain ⟨s', hgone, hruns⟩ := @rowDelete_runs L ar en junk prog tab g.base a false v x s.stack e
    { s with stack := .int v x :: s.stack } c hj hc.left rfl hcsr hdef he hkey
    (hopen.like h.stored.like) fun m ix' hix' => (h.stored.synced m ix' hix').complete e ⟨he, hkept⟩
  have hstored : Stored ar.ld junk.toJunk tab g w s₀ pend s' := by
    refine Stored.gone (s := { s with stack := .int v x :: s.stack }) ?_ he hkept hgone
    exact ⟨h.stored.like, h.stored.table, h.stored.rows, h.stored.synced, h.stored.shrunk,
      h.stored.free, h.stored.apart⟩
  have hst : s'.stack = w.stack g (keysOf ar.ld tab g w cols (n + 1)) cols :=
    hgone.stack.trans h.stack
  have hunseen : seenBefore tab g (n + 1) = false → s'.t = s₀.t ∧ s'.idx = s₀.idx :=
    fun hs => absurd (hs.symm.trans hseen) (by simp)
  obtain ⟨c', hcsr', hd'⟩ := hgone.cursor
  refine Ends.trans hruns ?_
  cases hup : g.update with
  | false =>
    have hready : Ready ar.ld junk.toJunk tab g w cols pend s' :=
      ⟨c', hcsr', fun hu => absurd (hup.symm.trans hu) (by simp), fun hd =>
        absurd (hd'.symm.trans hd)
        (by simp)⟩
    have hdone := hend s' ⟨hstored, hready, hst, hunseen⟩
    rw [hup, if_neg (by simp), List.append_nil] at hdone
    exact hdone
  | true =>
    -- the cursor goes back to the row of the UPDATE
    rw [hup, if_pos rfl] at hc hend
    have hbody := hc.after (b := a + (rowDelete tab g.base false a).length) rfl
    obtain ⟨y, hget⟩ := @stack_self w g (keysOf ar.ld tab g w cols (n + 1)) cols hself
    rw [← hst, hlen, keysOf_succ hix hu, List.length_cons, show
      (keysOf ar.ld tab g w cols n).length + 1 + tab.nCol + g.twoRecnos =
        tab.nCol + (keysOf ar.ld tab g w cols n).length + 1 + g.twoRecnos by omega] at hget
    have hin : (⟨rowidKey w.self⟩ : Dbt) ∈ s'.t := by
      rw [hgone.t]
      exact SortedMap.mem_erase.2 ⟨(hp hup).mem, fun heq => hv.1 heq.symm⟩
    refine Ends.op hbody.head (exec_dup hget) (Ends.op hbody.tail.head (exec_moveTo rfl hcsr') ?_)
    rw [List.length_append, ← Nat.add_assoc] at hend
    refine hend _ ⟨?_, ⟨_, Function.update_self .., fun _ => Points.ofMoveTo hin c', fun _ =>
      ⟨hup, fun e' he' _ => ?_⟩⟩, hst, hunseen⟩
    · exact ⟨hstored.like.setCsr (hcsr' ▸ .table c' _), hstored.table, hstored.rows,
        hstored.synced, hstored.shrunk, hstored.free, hstored.apart⟩
    · refine hsafe.none_after h.stored hup he hkept hv ?_
      have ht : s'.t = s.t.erase e.1 := hgone.t
      exact ht ▸ he'


/-- `OP_IsUnique` jumps, or goes on with the rowid of another entry. -/
theorem isUnique_runs {p1 p2 i pc : Nat} {pos : Option Dbt} {r : CInt} {x : Option Bytes} {z :
    Bytes}
    {st : List Val} (ho : prog pc = some (.isUnique p1 p2))
    (hst : s.stack = .int r x :: .str z :: st) (hc : s.aCsr p1 = .index i pos)
    (hlens : ∀ k ∈ s.idx i, 4 ≤ k.data.length)
    (hunique : ∀ pos', Ends (Row.exec ar en junk) prog Q
      (p2, { s.setCsr p1 (.index i pos') with stack := .str z :: st }))
    (hother : ∀ pos' v, opIsUnique (s.idx i) pos junk z r = .other pos' v →
      Ends (Row.exec ar en junk) prog Q
        (pc + 1, { s.setCsr p1 (.index i pos') with stack := .int v none :: .str z :: st })) :
    Ends (Row.exec ar en junk) prog Q (pc, s) := by
  have htext : (Val.str z).text = z := Mem.text_of_str rfl
  rcases @opIsUnique_cases (s.idx i) pos junk z r hlens with
    ⟨pos', h⟩ | ⟨k, -, -, -, v, -, h, -⟩
  · refine Ends.op ho ?_ (hunique pos')
    simp only [Row.exec, execIsUnique, hst, hc, Val.toInt, htext, h]
  · refine Ends.op ho ?_ (hother _ v h)
    simp only [Row.exec, execIsUnique, hst, hc, Val.toInt, htext, h]

theorem uniqueAction_unseen {seen : Bool} {declared : Option Conflict} {c : Conflict}
    (h : uniqueAction g seen declared = c) (hc : c = .ignore ∨ c = .fail) : seen = false := by
  unfold uniqueAction at h
  cases seen with
  | false => rfl
  | true =>
    cases hr : g.resolve declared <;> simp [hr] at h <;> subst h <;> simp at hc

theorem oe_fail {c : Conflict} (h : c.oe = .fail) : c = .fail := by
  cases c <;> simp_all [Conflict.oe]

/-- The code for another entry with the same fields. -/
theorem uniqueConflict_runs {n b : Nat} {ix : Index} {declared : Option Conflict} {action :
    Conflict}
    {v : CInt} {pos pos' : Option Dbt} (hj : junk.v.length = 4)
    (hsafe : Safe ar.ld junk.toJunk tab g w cols s₀) (hlen : cols.length = tab.nCol)
    (hself : g.twoRecnos = 0 → w.self = w.new) (hix : tab.pIndex[n]? = some ix)
    (hu : g.used n = true) (hon : ix.onError = some declared)
    (hact : uniqueAction g (seenBefore tab g n) declared = action)
    (hc : CodeAt prog b
      (uniqueConflict tab g (keysOf ar.ld tab g w cols n).length ix action b))
    (h : Checked ar.ld junk.toJunk tab g w cols s₀ pend (n + 1) s)
    (hunseen : seenBefore tab g n = false → s.t = s₀.t ∧ s.idx = s₀.idx)
    (hother : opIsUnique (s.idx n) pos junk (newKey ar.ld tab w cols ix) w.self = .other pos' v)
    (hend : ∀ s', Checked ar.ld junk.toJunk tab g w cols s₀ pend (n + 1) s' →
      Ends (Row.exec ar en junk) prog Q
        (b + (uniqueConflict tab g (keysOf ar.ld tab g w cols n).length ix action b).length, s'))
    (hign : ∀ s', s'.stack = w.st → s'.t = s₀.t → s'.idx = s₀.idx →
      Ends (Row.exec ar en junk) prog Q (g.ignoreDest, s'))
    (hhalt : ∀ b s' oe msg, prog b = some (.halt .constraint oe msg) →
      (oe = .fail → s'.t = s₀.t ∧ s'.idx = s₀.idx) → Q (b, s')) :
    Ends (Row.exec ar en junk) prog Q (b, { s with stack := .int v none :: s.stack }) := by
  have hseen := seenBefore_succ hix hu
  unfold seenAfter at hseen
  simp only [hon, hact] at hseen
  cases action with
  | rollback | abort | fail =>
    refine .here (hhalt _ _ _ _ hc.head fun hoe => ?_)
    exact hunseen (uniqueAction_unseen hact (.inr (oe_fail hoe)))
  | ignore =>
    obtain ⟨ht, hidx⟩ := hunseen (uniqueAction_unseen hact (.inl rfl))
    -- the rowid of the other entry, the keys, the columns and the rowids are popped
    have hsize : s.stack.length = (keysOf ar.ld tab g w cols n).length + tab.nCol + 2 + g.twoRecnos
      +
        w.st.length := by
      rw [h.stack, stack_length, keysOf_succ hix hu, List.length_cons, hlen]
      omega
    have hdrop := @stack_drop w g (keysOf ar.ld tab g w cols (n + 1)) cols
    rw [← h.stack, keysOf_succ hix hu, List.length_cons, hlen] at hdrop
    refine Ends.op hc.head (exec_pop (by rw [List.length_cons]; omega))
      (Ends.op hc.tail.head rfl ?_)
    refine hign _ ?_ ht hidx
    rw [← hdrop]
    show (Val.int v none :: s.stack).drop _ = _
    rw [show tab.nCol + (keysOf ar.ld tab g w cols n).length + 3 + g.twoRecnos =
      (keysOf ar.ld tab g w cols n).length + 1 + tab.nCol + 1 + g.twoRecnos + 1 by omega,
      List.drop_succ_cons]
  | replace =>
    have hrep : Replaces tab g n ix := ⟨hu, declared, hon, hact⟩
    have hlens : ∀ k ∈ s.idx n, 4 ≤ k.data.length := fun k hk => by
      obtain ⟨e, -, -, hke, -⟩ := h.stored.entry hix hk
      exact (rowKey_drop hke).1
    have hz : 4 ≤ (newKey ar.ld tab w cols ix).length := by
      simp [newKey, pushedKey, makeIdxKey]
    rcases @opIsUnique_other (s.idx n) pos junk _ w.self hlens hz hj fun k hk hle =>
      hsafe.ordered n ix hix hrep k (h.stored.shrunk n k hk) hle with ⟨p, hp⟩ |
        ⟨k, hk, hsame, hne, hp⟩
    · rw [hother] at hp
      cases hp
    rw [hother, Unique.other.injEq] at hp
    obtain ⟨-, rfl⟩ := hp
    obtain ⟨e, he, hkept, hke, hkey⟩ := h.stored.entry hix hk
    refine replace_runs hj hsafe hlen hself hix hu hc h (hsafe.opened ⟨n, ix, hix, hrep⟩)
      (hseen.trans (by simp)) he hkept ⟨fun heq => hne ?_, n, ix, k, hix, hrep, hke, hsame⟩ hkey
        hend
    rw [heq, Dbt.mk.injEq] at hkey
    exact (rowidKey_inj.1 hkey).symm

/-- The code for one index. -/
theorem indexCheck_runs {n a : Nat} {ix : Index} (hj : junk.v.length = 4)
    (hsafe : Safe ar.ld junk.toJunk tab g w cols s₀) (hlen : cols.length = tab.nCol)
    (hself : g.twoRecnos = 0 → w.self = w.new) (hix : tab.pIndex[n]? = some ix)
    (hu : g.used n = true) (hopen : UsedOpen tab s₀ g.base g.used)
    (hc : CodeAt prog a (indexCheck tab g n (keysOf ar.ld tab g w cols n).length
      (seenBefore tab g n) ix a))
    (h : Checked ar.ld junk.toJunk tab g w cols s₀ pend n s)
    (hend : ∀ s', Checked ar.ld junk.toJunk tab g w cols s₀ pend (n + 1) s' →
      Ends (Row.exec ar en junk) prog Q
        (a + (indexCheck tab g n (keysOf ar.ld tab g w cols n).length
        (seenBefore tab g n) ix a).length, s'))
    (hign : ∀ s', s'.stack = w.st → s'.t = s₀.t → s'.idx = s₀.idx →
      Ends (Row.exec ar en junk) prog Q (g.ignoreDest, s'))
    (hhalt : ∀ b s' oe msg, prog b = some (.halt .constraint oe msg) →
      (oe = .fail → s'.t = s₀.t ∧ s'.idx = s₀.idx) → Q (b, s')) :
    Ends (Row.exec ar en junk) prog Q (a, s) := by
  have hmem : ix ∈ tab.pIndex := List.mem_of_getElem? hix
  have hpush := h.push hix hu
  rw [indexCheck] at hc hend
  cases hon : ix.onError with
  | none =>
    simp only [hon] at hc hend
    refine makeKey_runs hlen hmem hc h.stack fun pc hpc => ?_
    obtain rfl := hpc.resolve_right fun h => h.1 rfl
    have hdone := hend _ hpush
    rw [List.length_append, pushIdxCols_length, List.length_singleton, Nat.add_comm 1,
      Nat.add_assoc] at hdone
    exact hdone
  | some declared =>
    simp only [hon] at hc hend
    generalize hb : a + (pushIdxCols tab (keysOf ar.ld tab g w cols n).length ix).length + 3 =
      b at hc hend
    have hb' : a + (ix.aiColumn.length + 2) + 1 + 1 = b := by
      rw [← hb, pushIdxCols_length]
      omega
    rw [List.length_append, List.length_append, ← Nat.add_assoc, ← Nat.add_assoc,
      show ∀ x y z : Op, [x, y, z].length = 3 from fun _ _ _ => rfl, hb] at hend
    have hkey := hc.left
    rw [List.append_cons] at hkey
    refine makeKey_runs hlen hmem hkey.left h.stack fun pc hpc => ?_
    rcases hpc with rfl | ⟨-, rfl⟩
    swap
    · -- a column is NULL: no test
      exact hend _ hpush
    have htest := hkey.after (b := a + (ix.aiColumn.length + 2)) (by
      rw [List.length_append, pushIdxCols_length, List.length_singleton]
      omega)
    obtain ⟨x, hget⟩ := hpush.self hlen hself
    rw [keysOf_succ hix hu, List.length_cons, show
      (keysOf ar.ld tab g w cols n).length + 1 + tab.nCol + g.twoRecnos =
        (keysOf ar.ld tab g w cols n).length + tab.nCol + 1 + g.twoRecnos by omega] at hget
    obtain ⟨pos, hidx⟩ := (hopen.like h.stored.like) n (List.getElem?_eq_some_iff.1 hix).1 hu
    rw [← Nat.add_assoc] at hidx
    have hlens : ∀ k ∈ s.idx n, 4 ≤ k.data.length := fun k hk => by
      obtain ⟨e, -, -, hke, -⟩ := h.stored.entry hix hk
      exact (rowKey_drop hke).1
    have hmoved : ∀ pos', Checked ar.ld junk.toJunk tab g w cols s₀ pend (n + 1)
        { s.setCsr (g.base + n + 1) (.index n pos') with
          stack := .str (newKey ar.ld tab w cols ix) :: s.stack } := fun pos' =>
      hpush.setCsr (m := g.base + n + 1) (i := n) (p := pos) (q := pos') hidx
    refine Ends.op htest.head (exec_dup hget)
      (isUnique_runs htest.tail.head rfl hidx hlens (fun pos' => hend _ (hmoved pos')) ?_)
    intro pos' v hother
    rw [hb']
    refine uniqueConflict_runs hj hsafe hlen hself hix hu hon rfl (hc.after ?_)
      (hmoved pos') h.unseen
      hother hend hign hhalt
    rw [List.length_append, ← Nat.add_assoc]
    exact hb

/-- **The tests of the indices leave a row and its keys, or leave.** -/
theorem indexChecks_runs (hj : junk.v.length = 4)
    (hsafe : Safe ar.ld junk.toJunk tab g w cols s₀) (hlen : cols.length = tab.nCol)
    (hself : g.twoRecnos = 0 → w.self = w.new) (hopen : UsedOpen tab s₀ g.base g.used)
    (hign : ∀ s', s'.stack = w.st → s'.t = s₀.t → s'.idx = s₀.idx →
      Ends (Row.exec ar en junk) prog Q (g.ignoreDest, s'))
    (hhalt : ∀ b s' oe msg, prog b = some (.halt .constraint oe msg) →
      (oe = .fail → s'.t = s₀.t ∧ s'.idx = s₀.idx) → Q (b, s')) :
    ∀ (rest : List Index) (n a : Nat) (s : Vm), n ≤ tab.pIndex.length →
      tab.pIndex.drop n = rest →
        CodeAt prog a (indexChecks tab g n (keysOf ar.ld tab g w cols n).length
        (seenBefore tab g n) rest a) →
      Checked ar.ld junk.toJunk tab g w cols s₀ pend n s →
      (∀ s', Checked ar.ld junk.toJunk tab g w cols s₀ pend tab.pIndex.length s' →
        Ends (Row.exec ar en junk) prog Q (a + (indexChecks tab g n
          (keysOf ar.ld tab g w cols n).length (seenBefore tab g n) rest a).length, s')) →
      Ends (Row.exec ar en junk) prog Q (a, s) := by
  intro rest
  induction rest with
  | nil =>
    intro n a s hn hl _ h hend
    have hn := hn.antisymm (List.drop_eq_nil_iff.1 hl)
    exact hend s (hn ▸ h)
  | cons ix rest ih =>
    intro n a s _ hl hc h hend
    have hix : tab.pIndex[n]? = some ix := by
      rw [← Nat.add_zero n, ← List.getElem?_drop, hl]
      rfl
    have hlt : n + 1 ≤ tab.pIndex.length := (List.getElem?_eq_some_iff.1 hix).1
    have hl' : tab.pIndex.drop (n + 1) = rest := by
      rw [← List.drop_drop, hl]
      rfl
    rw [indexChecks] at hc hend
    cases hu : g.used n with
    | false =>
      rw [if_neg (by simp [hu])] at hc hend
      rw [← keysOf_skip hu, ← seenBefore_skip hu] at hc hend
      exact ih (n + 1) a s hlt hl' hc (h.skip hu) hend
    | true =>
      rw [if_pos hu] at hc hend
      refine indexCheck_runs hj hsafe hlen hself hix hu hopen hc.left h (fun s' h' => ?_) hign hhalt
      have hextra : (keysOf ar.ld tab g w cols n).length + 1 =
          (keysOf ar.ld tab g w cols (n + 1)).length := by
        rw [keysOf_succ hix hu, List.length_cons]
      rw [hextra, ← seenBefore_succ hix hu] at hc hend
      rw [List.length_append, ← Nat.add_assoc] at hend
      exact ih (n + 1) _ s' hlt hl' hc.right h' hend


/-! ## All tests -/

theorem Safe.ofStack {fp : LongDouble L} {j : Junk} (h : Safe fp j tab g w cols s₀)
    (st : List Val) :
    Safe fp j tab g w cols { s₀ with stack := st } :=
  ⟨h.fresh, h.exact, h.ordered, h.opened, h.victims⟩

theorem Checked.ofStack {fp : LongDouble L} {j : Junk} {st : List Val} {n : Nat}
    (h : Checked fp j tab g w cols { s₀ with stack := st } pend n s) :
    Checked fp j tab g w cols s₀ pend n s :=
  ⟨⟨h.stored.like, h.stored.table, h.stored.rows, h.stored.synced, h.stored.shrunk, h.stored.free,
    h.stored.apart⟩, h.ready, h.stack, h.unseen⟩

/-- **The code of `__generate_constraint_checks` leaves a checked row, or leaves.** -/
theorem constraintChecks_runs {a : Nat} {c : Cursor} {cols₀ : List Val} (hj : junk.v.length = 4)
    (hcols : fillDefaults tab g 0 tab.aCol cols₀ = cols)
    (hsafe : Safe ar.ld junk.toJunk tab g w cols s₀) (hlen : cols₀.length = tab.nCol)
    (hself : g.twoRecnos = 0 → w.self = w.new)
    (hcons : Consistent ar.ld junk.toJunk tab s₀.t s₀.idx)
    (hopen : UsedOpen tab s₀ g.base g.used)
    (hall : g.willRecnoChng = true → ∀ n, n < tab.pIndex.length → g.used n = true)
    (hc : CodeAt prog a (constraintChecks tab g a)) (hst : s₀.stack = w.stack g [] cols₀)
    (hcsr : s₀.aCsr g.base = .table c) (hd : c.deferredMoveto = false)
    (hp : g.update = true → Points s₀.t c w.self)
    (hend : ∀ pend s', Checked ar.ld junk.toJunk tab g w cols s₀ pend tab.pIndex.length s' →
      Ends (Row.exec ar en junk) prog Q (a + (constraintChecks tab g a).length, s'))
    (hign : ∀ s', s'.stack = w.st → s'.t = s₀.t → s'.idx = s₀.idx →
      Ends (Row.exec ar en junk) prog Q (g.ignoreDest, s'))
    (hhalt : ∀ b s' oe msg, prog b = some (.halt .constraint oe msg) →
      (oe = .fail → s'.t = s₀.t ∧ s'.idx = s₀.idx) → Q (b, s')) :
    Ends (Row.exec ar en junk) prog Q (a, s₀) := by
  have hlen' : cols.length = tab.nCol := hcols ▸ (fillDefaults_length ..).trans hlen
  simp only [constraintChecks, emit, List.append_nil] at hc hend
  refine notNullChecks_runs tab.aCol 0 a cols₀ s₀ rfl hc.left hlen hst ?_ (hign _ rfl rfl rfl)
    fun b st hb => ?_
  · rw [hcols]
    refine rowidCheck_runs hj (hsafe.ofStack _) hlen' hself hcons hopen hall hc.right.left rfl hcsr
      hd hp
      (fun pend s' h' => ?_) hign hhalt
    refine indexChecks_runs hj hsafe hlen' hself hopen hign hhalt tab.pIndex 0 _ s'
      (Nat.zero_le _) rfl hc.right.right h'.ofStack fun s'' h'' => ?_
    have hdone := hend pend s'' h''
    rw [List.length_append, List.length_append, ← Nat.add_assoc, ← Nat.add_assoc] at hdone
    exact hdone
  · obtain ⟨oe, msg, hb⟩ := hb
    exact hhalt b _ oe msg hb fun _ => ⟨rfl, rfl⟩

end

end Dbsql.L5.Rows
