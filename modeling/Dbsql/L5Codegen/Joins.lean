import Dbsql.L5Codegen.Names
/-!
# Visible names and joins (cg_select.c:177-374)

`written` is an item of the FROM list that goes by the alias it was given. What a name should
mean is its `meaning` among those items. `__process_join` turns NATURAL and USING into equality
terms whose sides are names again, of the table and the column, and these are looked up like any
other.

Results:
* `names_iff`: when names mean what they should, and the terms of a join the columns of its items.
-/
namespace Dbsql.L5.Names
open Dbsql.L1

/-! ## Joins -/

/-- A term that a join adds to the WHERE clause: the ON clause of an item, or an equality. -/
inductive JoinTerm
  | on (iCursor : Int)
  | eq (e1 e2 : Ref)

/-- `__add_where_term` (cg_select.c:211-245); every table has a name. -/
def addWhereTerm (col : Bytes) (table1 table2 : Table) : JoinTerm :=
  .eq (.dot (table1.zName.getD []) col) (.dot (table2.zName.getD []) col)

/-- The terms of a NATURAL join. -/
def naturalTerms (table other : Table) : List JoinTerm :=
  (table.aCol.filter fun c => (columnIndex other c.zName).isSome).map fun c =>
    addWhereTerm c.zName table other

/-- The terms of a USING clause. -/
def usingTerms (table other : Table) (ids : List Bytes) : Except Bytes (List JoinTerm) :=
  ids.mapM fun z =>
    if columnIndex table z = none ∨ columnIndex other z = none then
      .error (ascii "cannot join using column " ++ z ++ ascii " - column not present in both tables")
    else .ok (addWhereTerm z table other)

/-- One round of the loop of `__process_join`. -/
def joinPair (term other : SrcItem) : Except Bytes (List JoinTerm) :=
  match term.pTab, other.pTab with
  | some table, some otherTable =>
    if term.natural ∧ (term.pOn ∨ term.pUsing ≠ none) then
      .error (ascii "a NATURAL join may not have an ON or USING clause")
    else if term.pOn ∧ term.pUsing ≠ none then
      .error (ascii "cannot have both ON and USING clauses in the same join")
    else
      (usingTerms table otherTable (term.pUsing.getD [])).map fun using_ =>
        (if term.natural then naturalTerms table otherTable else []) ++
          (if term.pOn then [.on term.iCursor] else []) ++ using_
  | _, _ => .ok []

/-- `__process_join` (cg_select.c:285-374): the terms added to the WHERE clause, or the error. -/
def processJoin : List SrcItem → Except Bytes (List JoinTerm)
  | term :: other :: src => do
    let terms ← joinPair term other
    let more ← processJoin (other :: src)
    return terms ++ more
  | _ => .ok []

theorem mem_usingTerms {t1 t2 : Table} {ids : List Bytes} {ts : List JoinTerm}
    (h : usingTerms t1 t2 ids = .ok ts) {e : JoinTerm} (he : e ∈ ts) : ∃ z, e = addWhereTerm z t1 t2 := by
  induction ids generalizing ts with
  | nil =>
    cases h
    cases he
  | cons z ids ih =>
    unfold usingTerms at h
    rw [List.mapM_cons] at h
    split at h
    · cases h
    · cases hids : usingTerms t1 t2 ids with
      | error _ =>
        unfold usingTerms at hids
        rw [hids] at h
        cases h
      | ok ts' =>
        have hids' := hids
        unfold usingTerms at hids'
        rw [hids'] at h
        cases h
        rcases List.mem_cons.1 he with he | he
        · exact ⟨z, he⟩
        · exact ih hids he

/-- The sides of a term have the names of their tables. -/
theorem joinPair_dot {term other : SrcItem} {ts : List JoinTerm} {e1 e2 : Ref}
    (h : joinPair term other = .ok ts) (he : .eq e1 e2 ∈ ts) : e1.table ≠ none ∧ e2.table ≠ none := by
  have hadd : ∀ (z : Bytes) (t1 t2 : Table), JoinTerm.eq e1 e2 = addWhereTerm z t1 t2 →
      e1.table ≠ none ∧ e2.table ≠ none := by
    intro z t1 t2 heq
    cases heq
    exact ⟨nofun, nofun⟩
  unfold joinPair at h
  split at h
  · rename_i table otherTable _ _
    split at h
    · cases h
    · split at h
      · cases h
      · cases hu : usingTerms table otherTable (term.pUsing.getD []) with
        | error _ =>
          rw [hu] at h
          cases h
        | ok using_ =>
          rw [hu] at h
          cases h
          rcases List.mem_append.1 he with he | he
          · rcases List.mem_append.1 he with he | he
            · split at he
              · obtain ⟨c, -, hc⟩ := List.mem_map.1 he
                exact hadd c.zName table otherTable hc.symm
              · cases he
            · split at he
              · cases List.mem_singleton.1 he
              · cases he
          · obtain ⟨z, hz⟩ := mem_usingTerms hu he
            exact hadd z table otherTable hz
  · cases h
    cases he

/-! ## What is written -/

/-- An item that goes by the alias it was given. -/
def FromItem.written (f : FromItem) (iCursor : Int) : SrcItem :=
  let zAlias := if f.as_.isEmpty then none else some (strUnquote f.as_)
  match f.pSelect with
  | none => ⟨zAlias, some f.table, iCursor, f.natural, f.pOn, f.pUsing⟩
  | some address =>
    let zAlias := zAlias.getD (fakeName address)
    ⟨some zAlias, some ⟨some zAlias, 0, f.table.aCol, none⟩, iCursor, f.natural, f.pOn, f.pUsing⟩

def writtenList (n : Nat) (fs : List FromItem) : List SrcItem :=
  fs.mapIdx fun k f => f.written (n + k : Nat)

/-- A name means what it means among the items as they are written. -/
def Resolves (cx : Ctx) (n : Nat) (fs : List FromItem) (elist : Option (List (Option Bytes)))
    (r : Ref) : Prop :=
  (resolveName cx (srcList n fs) elist r).map Out.verdict =
    some (meaning cx (writtenList n fs) elist r)

/-- A side of a term means the column of that name of an item. -/
def Side (cx : Ctx) (slist : List SrcItem) (e : Ref) (item : SrcItem) : Prop :=
  ∃ (t : Table) (f : Found), item.pTab = some t ∧ columnOf e.column (item.iCursor, t) = some f ∧
    (resolveName cx slist none e).map Out.verdict = some (.bound f)

def JoinTerm.Binds (cx : Ctx) (slist : List SrcItem) (term other : SrcItem) : JoinTerm → Prop
  | .on _ => True
  | .eq e1 e2 => Side cx slist e1 term ∧ Side cx slist e2 other

/-- The terms of every join bind to the columns of its two items. -/
def JoinsBind (cx : Ctx) (slist : List SrcItem) : Prop :=
  ∀ terms, processJoin slist = .ok terms → ∀ (k : Nat) (term other : SrcItem) (ts : List JoinTerm),
    slist[k]? = some term → slist[k + 1]? = some other → joinPair term other = .ok ts →
      ∀ e ∈ ts, e.Binds cx slist term other

/-- A name has the column of that name of an item as its only candidate. -/
def Alone (cx : Ctx) (slist : List SrcItem) (e : Ref) (item : SrcItem) : Prop :=
  ∃ (t : Table) (f : Found), item.pTab = some t ∧ columnOf e.column (item.iCursor, t) = some f ∧
    e.candidates cx slist = [f]

def JoinTerm.Alone (cx : Ctx) (slist : List SrcItem) (term other : SrcItem) : JoinTerm → Prop
  | .on _ => True
  | .eq e1 e2 => Names.Alone cx slist e1 term ∧ Names.Alone cx slist e2 other

/-! ## Names -/

section
variable {cx : Ctx} {n : Nat} {fs : List FromItem} {elist : Option (List (Option Bytes))} {r : Ref}

/-- A table but for its name. -/
def nameless (it : Int × Table) : Int × Table := (it.1, { it.2 with zName := none })

theorem columnOf_nameless {its its' : List (Int × Table)} {col : Bytes}
    (h : its.map nameless = its'.map nameless) :
    its.filterMap (columnOf col) = its'.filterMap (columnOf col) := by
  have hcols : ∀ its : List (Int × Table), its.filterMap (columnOf col) =
      (its.map nameless).filterMap (columnOf col) := fun its => by
    rw [List.filterMap_map]
    rfl
  rw [hcols its, hcols its', h]

theorem rowidOf_nameless {its its' : List (Int × Table)} {col : Bytes} :
    its.map nameless = its'.map nameless →
    (match its with
      | [it] => if isRowId col then [rowidOf it] else []
      | _ => []) =
    (match its' with
      | [it] => if isRowId col then [rowidOf it] else []
      | _ => []) := by
  intro h
  have hrow : ∀ it it' : Int × Table, nameless it = nameless it' → rowidOf it = rowidOf it' := by
    intro it it' hit
    have hrow : rowidOf (nameless it) = rowidOf (nameless it') := by rw [hit]
    exact hrow
  rcases its with _ | ⟨it, _ | ⟨it2, its⟩⟩ <;> rcases its' with _ | ⟨it', _ | ⟨it2', its'⟩⟩ <;>
    try (simp at h; done)
  · rfl
  · obtain ⟨hit, -⟩ := List.cons.inj h
    dsimp only
    rw [hrow it it' hit]
  · rfl

/-- What a single name may mean does not depend on the names of the tables. -/
theorem candidates_id {slist slist' : List SrcItem} {col : Bytes}
    (h : (namedItems cx slist none none).map nameless = (namedItems cx slist' none none).map nameless) :
    (Ref.id col).candidates cx slist = (Ref.id col).candidates cx slist' := by
  have hpseudo : pseudoTable cx.trigStack none none = none := rfl
  unfold Ref.candidates candidates
  dsimp only [Ref.db, Ref.table, Ref.column, Option.map_none]
  simp only [hpseudo, Option.toList_none, List.append_nil, columnOf_nameless h]
  split
  · rfl
  · split
    · rfl
    · exact rowidOf_nameless h

theorem namedItems_written : (namedItems cx (srcList n fs) none none).map nameless =
    (namedItems cx (writtenList n fs) none none).map nameless := by
  have hsrc : ∀ f : FromItem, ∀ i : Int, ((f.toSrc i).pTab.bind fun t =>
      if named cx.aDb none none (f.toSrc i) t then some ((f.toSrc i).iCursor, t) else none).map nameless =
      ((f.written i).pTab.bind fun t =>
        if named cx.aDb none none (f.written i) t then some ((f.written i).iCursor, t) else none).map
          nameless := by
    intro f i
    unfold FromItem.toSrc FromItem.written
    cases f.pSelect <;> rfl
  unfold namedItems srcList writtenList
  rw [List.map_filterMap, List.map_filterMap, List.mapIdx_eq_zipIdx_map, List.mapIdx_eq_zipIdx_map,
    List.filterMap_map, List.filterMap_map]
  apply List.filterMap_congr
  intro fk _
  exact hsrc fk.1 (n + fk.2 : Nat)

theorem meaning_dot (hr : r.table ≠ none) {slist : List SrcItem} :
    meaning cx slist elist r =
      match r.candidates cx slist with
      | [f] => .bound f
      | _ => .error := by
  have hf : r.fallback elist = none := if_pos hr
  unfold meaning
  rw [hf]
  rcases r.candidates cx slist with _ | ⟨f, _ | ⟨g, fs⟩⟩ <;> rfl

theorem meaning_eq_iff : meaning cx (srcList n fs) elist r = meaning cx (writtenList n fs) elist r ↔
    ∀ f, r.candidates cx (srcList n fs) = [f] ↔ r.candidates cx (writtenList n fs) = [f] := by
  by_cases hr : r.table = none
  · have hid : ∃ col, r = .id col := by
      cases r with
      | id col => exact ⟨col, rfl⟩
      | dot _ _ => cases hr
      | dot3 _ _ _ => cases hr
    obtain ⟨col, rfl⟩ := hid
    have hc := @candidates_id cx _ _ col (@namedItems_written cx n fs)
    unfold meaning
    rw [hc]
    simp
  · rw [meaning_dot hr, meaning_dot hr]
    generalize r.candidates cx (srcList n fs) = as
    generalize r.candidates cx (writtenList n fs) = bs
    rcases as with _ | ⟨a, _ | ⟨a', as⟩⟩ <;> rcases bs with _ | ⟨b, _ | ⟨b', bs⟩⟩ <;> simp

/-- When a name means what it should. -/
theorem resolves_iff (hw : Wf cx n fs) : Resolves cx n fs elist r ↔
    (∀ f, r.candidates cx (srcList n fs) = [f] ↔ r.candidates cx (writtenList n fs) = [f]) ∧
      (r.candidates cx (srcList n fs) = [] ∧ r.fallback elist ≠ none ∨ r.Asks cx (srcList n fs)) := by
  rw [← @meaning_eq_iff cx n fs elist r]
  unfold Resolves
  by_cases hf : r.candidates cx (srcList n fs) = [] ∧ r.fallback elist ≠ none
  · obtain ⟨v, hv⟩ := Option.ne_none_iff_exists'.1 hf.2
    have hm : meaning cx (srcList n fs) elist r = v := by
      unfold meaning
      rw [hf.1, hv]
      rfl
    rw [resolveName_fallback hf.1 hv, Option.some_inj, hm]
    exact ⟨fun h => ⟨h, .inl hf⟩, fun h => h.1⟩
  · have hf' : r.candidates cx (srcList n fs) = [] → r.fallback elist = none := fun hc => by
      by_contra hn
      exact hf ⟨hc, hn⟩
    rw [resolveName_asked hf', ← asked_isSome hw]
    cases authRead cx (srcList n fs) (r.asked cx (srcList n fs)) with
    | none => simp [hf]
    | some _ => simp

/-- A name whose table is one of the items always gets to the authorizer. -/
theorem side_iff {e : Ref} {item : SrcItem} (hw : Wf cx n fs) (he : e.table ≠ none) :
    Side cx (srcList n fs) e item ↔ Alone cx (srcList n fs) e item := by
  have hf : e.fallback none = none := if_pos he
  unfold Side Alone
  rw [resolveName_asked fun _ => hf]
  constructor
  · rintro ⟨t, f, ht, hcol, hres⟩
    refine ⟨t, f, ht, hcol, ?_⟩
    obtain ⟨_, -, hm⟩ := Option.map_eq_some_iff.1 hres
    rw [meaning_dot he] at hm
    split at hm
    · cases hm
      assumption
    · cases hm
  · rintro ⟨t, f, ht, hcol, hc⟩
    refine ⟨t, f, ht, hcol, ?_⟩
    have hasks : e.Asks cx (srcList n fs) := by
      obtain ⟨it, hit, -⟩ := @of_mem_candidates cx e (srcList n fs) f (hc ▸ List.mem_singleton_self f)
      exact .inr (.inl (List.ne_nil_of_mem hit))
    obtain ⟨out, hout⟩ := Option.isSome_iff_exists.1 ((asked_isSome hw).2 hasks)
    rw [hout, meaning_dot he, hc]
    rfl

theorem joinsBind_iff (hw : Wf cx n fs) : JoinsBind cx (srcList n fs) ↔
    ∀ terms, processJoin (srcList n fs) = .ok terms → ∀ (k : Nat) (term other : SrcItem)
      (ts : List JoinTerm), (srcList n fs)[k]? = some term → (srcList n fs)[k + 1]? = some other →
        joinPair term other = .ok ts → ∀ e ∈ ts, e.Alone cx (srcList n fs) term other := by
  have hside : ∀ (term other : SrcItem) (ts : List JoinTerm), joinPair term other = .ok ts → ∀ e ∈ ts,
      (e.Binds cx (srcList n fs) term other ↔ e.Alone cx (srcList n fs) term other) := by
    intro term other ts hts e he
    cases e with
    | on _ => exact Iff.rfl
    | eq e1 e2 =>
      obtain ⟨h1, h2⟩ := joinPair_dot hts he
      exact and_congr (side_iff hw h1) (side_iff hw h2)
  constructor
  · intro h terms hterms k term other ts hk hk' hts e he
    exact (hside term other ts hts e he).1 (h terms hterms k term other ts hk hk' hts e he)
  · intro h terms hterms k term other ts hk hk' hts e he
    exact (hside term other ts hts e he).2 (h terms hterms k term other ts hk hk' hts e he)

/-- No item has the alias it was given; all go by the names of their tables. -/
theorem named_toSrc {f : FromItem} {i : Int} {t : Table} {q : Bytes} (ht : (f.toSrc i).pTab = some t) :
    named cx.aDb none (some q) (f.toSrc i) t = true ↔ ∃ z, t.zName = some z ∧ strcasecmp z q = true := by
  have halias : ∀ token, srcListAddAlias none token = none := fun token => rfl
  unfold FromItem.toSrc at ht ⊢
  rw [halias, ite_self] at ht ⊢
  cases hp : f.pSelect with
  | none =>
    rw [hp] at ht
    cases ht
    unfold named
    dsimp only
    cases f.table.zName with
    | none => simp
    | some z => simp
  | some address =>
    rw [hp] at ht
    cases ht
    simp [named]

/-- One element of a list is all that is left of it. -/
theorem filterMap_eq_singleton {α β : Type} {g : α → Option β} {xs : List α} {k : Nat} {a : α} {b : β}
    (hk : xs[k]? = some a) (hb : g a = some b) :
    xs.filterMap g = [b] ↔ ∀ (k' : Nat) (a' : α), k' ≠ k → xs[k']? = some a' → g a' = none := by
  obtain ⟨hlt, ha⟩ := List.getElem?_eq_some_iff.1 hk
  have hxs : xs.filterMap g = (xs.take k).filterMap g ++ b :: (xs.drop (k + 1)).filterMap g := by
    conv_lhs => rw [← List.take_append_drop k xs, List.drop_eq_getElem_cons hlt, ha]
    rw [List.filterMap_append, List.filterMap_cons_some hb]
  have hnil : xs.filterMap g = [b] ↔ (xs.take k).filterMap g = [] ∧
      (xs.drop (k + 1)).filterMap g = [] := by
    rw [hxs]
    generalize (xs.take k).filterMap g = as
    generalize (xs.drop (k + 1)).filterMap g = bs
    constructor
    · intro h
      have hlen := congrArg List.length h
      simp only [List.length_append, List.length_cons, List.length_nil] at hlen
      exact ⟨List.length_eq_zero_iff.1 (by omega), List.length_eq_zero_iff.1 (by omega)⟩
    · rintro ⟨rfl, rfl⟩
      rfl
  rw [hnil, List.filterMap_eq_nil_iff, List.filterMap_eq_nil_iff]
  constructor
  · rintro ⟨hpre, hpost⟩ k' a' hne hk'
    rcases Nat.lt_or_gt_of_ne hne with h | h
    · exact hpre a' (List.mem_of_getElem? (i := k') (by rw [List.getElem?_take, if_pos h, hk']))
    · refine hpost a' (List.mem_of_getElem? (i := k' - (k + 1)) ?_)
      rw [List.getElem?_drop, show k + 1 + (k' - (k + 1)) = k' by omega, hk']
  · intro h
    constructor
    · intro a' ha'
      obtain ⟨k', hk'⟩ := List.mem_iff_getElem?.1 ha'
      rw [List.getElem?_take] at hk'
      split at hk'
      · exact h k' a' (by omega) hk'
      · cases hk'
    · intro a' ha'
      obtain ⟨k', hk'⟩ := List.mem_iff_getElem?.1 ha'
      rw [List.getElem?_drop] at hk'
      exact h (k + 1 + k') a' (by omega) hk'

/-- A side of a term whose names have no quotes means its item exactly if no other item with a
table of that name has the column. -/
theorem alone_iff {k j : Nat} {item : SrcItem} {t : Table} {q z : Bytes}
    (hk : (srcList n fs)[k]? = some item) (ht : item.pTab = some t) (hname : t.zName = some q)
    (hj : columnIndex t z = some j) (hq : strUnquote q = q) (hz : strUnquote z = z) :
    Alone cx (srcList n fs) (.dot q z) item ↔
      ∀ (k' : Nat) (item' : SrcItem) (t' : Table) (q' : Bytes), k' ≠ k →
        (srcList n fs)[k']? = some item' → item'.pTab = some t' → t'.zName = some q' →
          strcasecmp q' q = true → columnIndex t' z = none := by
  let g : SrcItem → Option Found := fun item => (item.pTab.bind fun t =>
    if named cx.aDb none (some q) item t then some (item.iCursor, t) else none).bind (columnOf z)
  have hcols : (namedItems cx (srcList n fs) none (some q)).filterMap (columnOf z) =
      (srcList n fs).filterMap g := by
    unfold namedItems
    rw [List.filterMap_filterMap]
  have hnamed : ∀ (k' : Nat) (item' : SrcItem) (t' : Table), (srcList n fs)[k']? = some item' →
      item'.pTab = some t' → (named cx.aDb none (some q) item' t' = true ↔
        ∃ q', t'.zName = some q' ∧ strcasecmp q' q = true) := by
    intro k' item' t' hk' ht'
    obtain ⟨_, f, -, rfl⟩ := mem_srcList.1 (List.mem_of_getElem? hk')
    exact named_toSrc ht'
  have hcol : columnOf z (item.iCursor, t) = some (t.found item.iCursor j) := by
    unfold columnOf
    rw [hj]
    rfl
  have hg : g item = some (t.found item.iCursor j) := by
    have hn := (hnamed k item t hk ht).2 ⟨q, hname, by simp [strcasecmp]⟩
    dsimp only [g]
    rw [ht, Option.bind_some, if_pos hn]
    exact hcol
  have hcand : (Ref.dot q z).candidates cx (srcList n fs) = (srcList n fs).filterMap g := by
    have hne : (srcList n fs).filterMap g ≠ [] :=
      List.ne_nil_of_mem (List.mem_filterMap.2 ⟨item, List.mem_of_getElem? hk, hg⟩)
    change candidates cx (srcList n fs) none (some (strUnquote q)) (strUnquote z) = _
    rw [hq, hz]
    unfold candidates
    simp only [hcols]
    rw [if_pos hne]
  have halone : Alone cx (srcList n fs) (.dot q z) item ↔
      (srcList n fs).filterMap g = [t.found item.iCursor j] := by
    unfold Alone
    rw [hcand]
    constructor
    · rintro ⟨t', f, ht', hf, hc⟩
      rw [ht] at ht'
      cases ht'
      dsimp only [Ref.column] at hf
      rw [hcol] at hf
      cases hf
      exact hc
    · exact fun hc => ⟨t, _, ht, hcol, hc⟩
  rw [halone, filterMap_eq_singleton hk hg]
  constructor
  · intro h k' item' t' q' hne hk' ht' hq' hcmp
    have hnone := h k' item' hne hk'
    dsimp only [g] at hnone
    rw [ht', Option.bind_some, if_pos ((hnamed k' item' t' hk' ht').2 ⟨q', hq', hcmp⟩)] at hnone
    exact Option.map_eq_none_iff.1 hnone
  · intro h k' item' hne hk'
    dsimp only [g]
    cases ht' : item'.pTab with
    | none => rfl
    | some t' =>
      rw [Option.bind_some]
      split
      · rename_i hn
        obtain ⟨q', hq', hcmp⟩ := (hnamed k' item' t' hk' ht').1 hn
        exact Option.map_eq_none_iff.2 (h k' item' t' q' hne hk' ht' hq' hcmp)
      · rfl

/-- **Binding of names and of join terms.** A name binds to what it should, or is the error it
should be, exactly if the names of the tables single out the same candidate as the aliases do, and
the authorizer, where it is asked, can find a table; the terms of the joins bind to the columns of
the two items exactly if the names of their tables single these out. -/
theorem names_iff (hw : Wf cx n fs) :
    (∀ elist r, Resolves cx n fs elist r ↔
      (∀ f, r.candidates cx (srcList n fs) = [f] ↔ r.candidates cx (writtenList n fs) = [f]) ∧
        (r.candidates cx (srcList n fs) = [] ∧ r.fallback elist ≠ none ∨
          r.Asks cx (srcList n fs))) ∧
    (JoinsBind cx (srcList n fs) ↔ ∀ terms, processJoin (srcList n fs) = .ok terms →
      ∀ (k : Nat) (term other : SrcItem) (ts : List JoinTerm), (srcList n fs)[k]? = some term →
        (srcList n fs)[k + 1]? = some other → joinPair term other = .ok ts →
          ∀ e ∈ ts, e.Alone cx (srcList n fs) term other) :=
  ⟨fun _ _ => resolves_iff hw, joinsBind_iff hw⟩

end

/-- `t(x)`. -/
def tableT : Table := ⟨some (ascii "t"), 0, [⟨ascii "x", 0⟩], none⟩

/-- `FROM t AS a NATURAL JOIN t`. -/
def selfJoin : List FromItem :=
  [⟨tableT, none, ascii "a", true, false, none⟩, ⟨tableT, none, [], false, false, none⟩]

def mainDb : Ctx := ⟨[ascii "main", ascii "temp"], none, none⟩

theorem selfJoin_wf : Wf mainDb 0 selfJoin :=
  ⟨by
    intro f hf
    have ht : f.table = tableT := by
      rcases List.mem_cons.1 hf with rfl | hf
      · rfl
      · rw [List.mem_singleton.1 hf]
    rw [ht]
    exact ⟨by decide, nofun, by decide⟩, nofun⟩

/-- `SELECT x FROM t AS a NATURAL JOIN t` is ambiguous, as it should be. -/
theorem names_iff_id : Resolves mainDb 0 selfJoin none (.id (ascii "x")) :=
  ((names_iff selfJoin_wf).1 none (.id (ascii "x"))).2
    ⟨fun _ => Iff.rfl, .inr (.inl rfl)⟩

/-- `a.x` in it is no column, and the equality of the join is ambiguous. -/
theorem names_fail : ¬ (Resolves mainDb 0 selfJoin none (.dot (ascii "a") (ascii "x"))) ∧
    ¬ JoinsBind mainDb (srcList 0 selfJoin) := by
  constructor
  · unfold Resolves
    decide
  · intro h
    obtain ⟨⟨t, f, ht, hf, hres⟩, -⟩ := h _ rfl 0 _ _ _ rfl rfl rfl _ (List.mem_singleton_self _)
    cases ht
    cases hf
    revert hres
    decide

end Dbsql.L5.Names
