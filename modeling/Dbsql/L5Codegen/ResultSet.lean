import Dbsql.Core.Probe
import Dbsql.L5Codegen.Names
import Dbsql.L3Vdbe.Compare
/-!
# Naming the columns of a sub-select (cg_select.c:2908-2972)

`__select_result_set` names the columns of a sub-select or a view. A column that is written
`table.column` goes by its column, and where a column before it has this name, in whatever case, by
the first of `column_1`, `column_2`, … that none has. The scan of the columns before it starts over
with each new name, and counts on.

Results:
* `nameLoop_ends`: the scan of `i` names ends within `(i + 1) ^ 2` rounds.
* `selectResultSet_ends`: the columns get their names, and a made name is new.
-/
namespace Dbsql.L5.ResultSet
open Dbsql.L1 Dbsql.L3 Dbsql.Core.Brake Dbsql.Core.Probe
open Dbsql.L5.Names (strcasecmp strNappend)
open Dbsql.L5.MinMax (tolower)

/-! ## Expressions -/

/-- A `token_t` whose `z` is not null: `n` bytes of the text at `z`. -/
structure Token where
  z : Bytes
  n : Nat
  n_le : n ≤ z.length

/-- What the naming asks of an expression. -/
structure Expr where
  /-- `op == TK_DOT` -/
  dot : Bool
  /-- the token of the right operand, where there is an operand and a token -/
  pRight : Option Token
  span : Option Token

/-- An item of the list of result columns. -/
structure Item where
  zName : Option Bytes
  pExpr : Expr

/-- `token.z && token.z[0]`. -/
def written (token : Option Token) : Option Token := token.filter fun t => !t.z.isEmpty

/-- What `__str_nappend` puts into a string for a token. -/
def Token.text (t : Token) : Bytes := if t.n = 0 then t.z else t.z.take t.n

/-- `_%d`. -/
def suffix (cnt : Nat) : Bytes := ascii "_" ++ digits cnt

/-! ## The loop -/

/-- The inner loop (cg_select.c:2947-2958): the name of the column once `j` has reached the end. No
more than `rounds` names are looked at. -/
def nameLoop (column : List Bytes) (token : Token) : Nat → Nat → Nat → Bytes → Option Bytes
  | 0, _, _, _ => none
  | rounds + 1, j, cnt, zName =>
    match column[j]? with
    | none => some zName
    | some other =>
      if strcasecmp other zName then
        nameLoop column token rounds 0 (cnt + 1) (token.text ++ suffix (cnt + 1))
      else nameLoop column token rounds (j + 1) cnt zName

/-- The name of the next column (cg_select.c:2941-2966). -/
def columnName (rounds : Nat) (column : List Bytes) (item : Item) : Option Bytes :=
  match item.zName with
  | some zName => some zName
  | none =>
    match if item.pExpr.dot then written item.pExpr.pRight else none with
    | some token => nameLoop column token rounds 0 0 token.text
    | none =>
      match written item.pExpr.span with
      | some span => some span.text
      | none => some (ascii "column" ++ digits (column.length + 1))

/-- The names of the columns, with those that have theirs in front. -/
def nameColumns (rounds : Nat) : List Bytes → List Item → Option (List Bytes)
  | column, [] => some column
  | column, item :: items =>
    (columnName rounds column item).bind fun zName => nameColumns rounds (column ++ [zName]) items

/-- The columns of the table that `__select_result_set` makes. -/
def selectResultSet (rounds : Nat) (elist : List Item) : Option (List Bytes) :=
  nameColumns rounds [] elist

/-- The name is made from `table.column`. -/
def Item.made (item : Item) : Bool :=
  item.zName.isNone && item.pExpr.dot && (written item.pExpr.pRight).isSome

/-! ## `__str_nappend` -/

theorem piece_token (t : Token) : (if (t.n : Int) ≤ 0 then t.z else t.z.take t.n) = t.text := by
  simp only [Token.text, Int.natCast_nonpos_iff]

theorem suffix_ne_nil (cnt : Nat) : suffix cnt ≠ [] := by
  simp [suffix, digits_ne_nil]

theorem strNappend_token (r : Option Bytes) (t : Token) :
    strNappend (some r) [(t.z, t.n)] = some (some t.text) := by
  simp only [strNappend, Option.map_some, List.flatMap_cons, List.flatMap_nil, List.append_nil,
    Int.toNat_natCast, piece_token]

/-- With the text in `buf` behind the token. -/
theorem strNappend_suffix (r : Option Bytes) (t : Token) (cnt : Nat) :
    strNappend (some r) [(t.z, t.n), (suffix cnt, (suffix cnt).length)] =
      some (some (t.text ++ suffix cnt)) := by
  have hlen : ¬((suffix cnt).length : Int) ≤ 0 := by
    have := List.length_pos_iff.2 (suffix_ne_nil cnt)
    omega
  simp only [strNappend, Option.map_some, List.flatMap_cons, List.flatMap_nil, List.append_nil, if_neg hlen,
    Int.toNat_natCast, piece_token, List.take_length]

/-! ## The names tried -/

/-- The names in the order in which they are tried. -/
def candidate (token : Token) (cnt : Nat) : Bytes := token.text ++ if cnt = 0 then [] else suffix cnt

theorem tolower_digit {b : UInt8} (h : isdigit b = true) : tolower b = b := by
  simp only [isdigit, Bool.and_eq_true, decide_eq_true_eq] at h
  obtain ⟨-, h57⟩ := h
  have hb : ¬65 ≤ b := by
    simp only [UInt8.le_iff_toNat_le, UInt8.toNat_ofNat, Nat.reducePow, Nat.reduceMod] at h57 ⊢
    omega
  simp [tolower, hb]

theorem map_tolower_suffix (cnt : Nat) : (suffix cnt).map tolower = suffix cnt := by
  have hdigits : (digits cnt).map tolower = digits cnt := by
    refine (List.map_congr_left fun b hb => ?_).trans (List.map_id _)
    exact tolower_digit (isdigit_digits hb)
  rw [suffix, List.map_append, hdigits]
  rfl

theorem digits_inj {k m : Nat} (h : digits k = digits m) : k = m := by
  rw [← decFrom_digits k, h, decFrom_digits]

theorem suffix_inj {k m : Nat} (h : suffix k = suffix m) : k = m :=
  digits_inj (List.append_cancel_left h)

/-- No name is like two of those tried. -/
theorem apart_candidate (token : Token) : Apart strcasecmp (candidate token) := by
  intro other k m hk hm
  simp only [strcasecmp, decide_eq_true_eq, candidate, List.map_append] at hk hm
  have htail := List.append_cancel_left (hk.symm.trans hm)
  by_cases hk0 : k = 0 <;> by_cases hm0 : m = 0
  · rw [hk0, hm0]
  · simp [hk0, hm0, map_tolower_suffix, (suffix_ne_nil m).symm] at htail
  · simp [hk0, hm0, map_tolower_suffix, suffix_ne_nil k] at htail
  · simp only [hk0, hm0, if_false, map_tolower_suffix] at htail
    exact suffix_inj htail

/-- The loop is a search for a name that is free. -/
theorem nameLoop_eq_search (column : List Bytes) (token : Token) (rounds j cnt : Nat) :
    nameLoop column token rounds j cnt (candidate token cnt) =
      (search strcasecmp (candidate token) column rounds j cnt).map (candidate token) := by
  induction rounds generalizing j cnt with
  | zero => rfl
  | succ rounds ih =>
    rw [nameLoop, search]
    cases column[j]? with
    | none => rfl
    | some other =>
      have hnext : token.text ++ suffix (cnt + 1) = candidate token (cnt + 1) := by
        simp [candidate]
      dsimp only
      split
      · rw [hnext, ih]
      · rw [ih]

/-! ## The end of the naming -/

/-- `name` is like none of the names in `column`. -/
def NewTo (column : List Bytes) (name : Bytes) : Prop := ∀ other ∈ column, strcasecmp other name = false

/-- `name` is what `__str_nappend` makes of the token, or of the token and `_k`. -/
def NamedBy (token : Token) (name : Bytes) : Prop :=
  ∀ r, strNappend (some r) [(token.z, token.n)] = some (some name) ∨
    ∃ k, 0 < k ∧ strNappend (some r) [(token.z, token.n), (suffix k, (suffix k).length)] = some (some name)

theorem namedBy_candidate (token : Token) (k : Nat) : NamedBy token (candidate token k) := by
  intro r
  rcases Nat.eq_zero_or_pos k with rfl | hk
  · left
    simpa [candidate] using strNappend_token r token
  · right
    refine ⟨k, hk, ?_⟩
    rw [candidate, if_neg hk.ne']
    exact strNappend_suffix r token k

/-- The name an item gets behind the names in `column`: its own if it has one; one made from
`table.column` is new and names the column. -/
structure Fits (column : List Bytes) (item : Item) (name : Bytes) : Prop where
  own : ∀ zName, item.zName = some zName → name = zName
  new : item.made = true → NewTo column name
  token : item.made = true → ∃ token, written item.pExpr.pRight = some token ∧ NamedBy token name

theorem stepsLeft_zero (n : Nat) : stepsLeft n 0 0 + 1 = (n + 1) ^ 2 := by
  rw [stepsLeft, Nat.sub_zero]
  ring

/-- **The scan of the names before ends, with a new name.** -/
theorem nameLoop_ends (column : List Bytes) (token : Token) :
    Ends ((column.length + 1) ^ 2) (fun rounds => nameLoop column token rounds 0 0 token.text)
      fun name => NewTo column name ∧ NamedBy token name := by
  have hsearch := search_ends (apart_candidate token) (Tried.zero column) (Passed.zero 0)
  have hends := hsearch.map (g := candidate token) (S := fun name => NewTo column name ∧ NamedBy token name)
    fun k hk => ⟨hk.2, namedBy_candidate token k⟩
  have hcand : token.text = candidate token 0 := by
    simp [candidate]
  rw [stepsLeft_zero] at hends
  simp only [hcand, nameLoop_eq_search]
  exact hends

theorem columnName_ends (column : List Bytes) (item : Item) :
    Ends ((column.length + 1) ^ 2) (fun rounds => columnName rounds column item) (Fits column item) := by
  cases hz : item.zName with
  | some zName =>
    have hmade : item.made = false := by
      simp [Item.made, hz]
    simp only [columnName, hz]
    exact Ends.pure ⟨by simp [hz], by simp [hmade], by simp [hmade]⟩
  | none =>
    cases hr : (if item.pExpr.dot then written item.pExpr.pRight else none) with
    | some token =>
      have hright : written item.pExpr.pRight = some token := by
        cases hd : item.pExpr.dot with
        | false => simp [hd] at hr
        | true => simpa [hd] using hr
      simp only [columnName, hz, hr]
      exact (nameLoop_ends column token).imp fun zName hname =>
        ⟨by simp [hz], fun _ => hname.1, fun _ => ⟨token, hright, hname.2⟩⟩
    | none =>
      have hmade : item.made = false := by
        cases hd : item.pExpr.dot with
        | false => simp [Item.made, hd]
        | true =>
          rw [hd, if_pos rfl] at hr
          simp [Item.made, hr]
      simp only [columnName, hz, hr]
      split
      · exact Ends.pure ⟨by simp [hz], by simp [hmade], by simp [hmade]⟩
      · exact Ends.pure ⟨by simp [hz], by simp [hmade], by simp [hmade]⟩

/-- The names: one for each item, those in front as they are, and each fits its item. -/
structure Named (column : List Bytes) (items : List Item) (names : List Bytes) : Prop where
  length_eq : names.length = column.length + items.length
  front : ∀ i < column.length, names[i]? = column[i]?
  fits : ∀ i item name, items[i]? = some item → names[column.length + i]? = some name →
    Fits (names.take (column.length + i)) item name

theorem Named.nil (column : List Bytes) : Named column [] column where
  length_eq := rfl
  front := fun _ _ => rfl
  fits := by
    simp

theorem Named.cons {column names : List Bytes} {item : Item} {items : List Item} {zName : Bytes}
    (hfits : Fits column item zName) (h : Named (column ++ [zName]) items names) :
    Named column (item :: items) names := by
  have hlen : (column ++ [zName]).length = column.length + 1 := by
    simp
  have hfront : ∀ i < column.length, names[i]? = column[i]? := by
    intro i hi
    rw [h.front i (by omega), List.getElem?_append_left hi]
  refine ⟨?_, hfront, ?_⟩
  · rw [h.length_eq, hlen, List.length_cons]
    omega
  · intro i it name hit hname
    cases i with
    | zero =>
      obtain rfl : item = it := by simpa using hit
      have htake : names.take column.length = column := by
        apply List.ext_getElem?
        intro k
        rcases Nat.lt_or_ge k column.length with hk | hk
        · rw [List.getElem?_take_of_lt hk, hfront k hk]
        · rw [List.getElem?_take_eq_none hk, List.getElem?_eq_none hk]
      have hat : names[column.length]? = some zName := by
        rw [h.front _ (by omega)]
        simp
      have heq : zName = name := Option.some.inj (hat.symm.trans hname)
      rw [Nat.add_zero, htake, ← heq]
      exact hfits
    | succ i =>
      have hat : column.length + (i + 1) = (column ++ [zName]).length + i := by
        omega
      rw [hat] at hname ⊢
      exact h.fits i it name (by simpa using hit) hname

theorem nameColumns_ends (column : List Bytes) (items : List Item) :
    Ends ((column.length + items.length) ^ 2) (fun rounds => nameColumns rounds column items)
      (Named column items) := by
  induction items generalizing column with
  | nil => exact Ends.pure (Named.nil column)
  | cons item items ih =>
    have hlen : column.length + 1 ≤ column.length + (item :: items).length := by
      simp
    have hname := (columnName_ends column item).mono (Nat.pow_le_pow_left hlen 2)
    simp only [nameColumns]
    refine hname.bind fun zName hfits => ?_
    have hrest := (ih (column ++ [zName])).imp fun names h => Named.cons hfits h
    refine hrest.mono (le_of_eq ?_)
    simp
    ring

/-- **The naming of the columns ends, after the square of their number of rounds at most for each;
a column keeps the name it has, and a name made from `table.column` is that of the column, as it is
or with `_k`, and like none of the names before it.** -/
theorem selectResultSet_ends (elist : List Item) :
    Ends (elist.length ^ 2) (fun rounds => selectResultSet rounds elist) fun names =>
      names.length = elist.length ∧
        ∀ i item name, elist[i]? = some item → names[i]? = some name →
          (∀ zName, item.zName = some zName → name = zName) ∧
          (item.made = true → ∃ token, written item.pExpr.pRight = some token ∧ NamedBy token name) ∧
          (item.made = true → ∀ other ∈ names.take i, strcasecmp other name = false) := by
  have h := nameColumns_ends [] elist
  simp only [List.length_nil, Nat.zero_add] at h
  refine h.imp fun names hnamed => ⟨?_, ?_⟩
  · simpa using hnamed.length_eq
  · intro i item name hitem hname
    have hfits := hnamed.fits i item name hitem (by simpa using hname)
    simp only [List.length_nil, Nat.zero_add] at hfits
    exact ⟨hfits.own, hfits.token, hfits.new⟩

-- `a AS a_1, t.a, t.A`
example : selectResultSet 9
    [⟨some (ascii "a_1"), ⟨false, none, none⟩⟩, ⟨none, ⟨true, some ⟨ascii "a", 1, by decide⟩, none⟩⟩,
      ⟨none, ⟨true, some ⟨ascii "A", 1, by decide⟩, none⟩⟩] =
    some [ascii "a_1", ascii "a", ascii "A_2"] := by
  decide

end Dbsql.L5.ResultSet
