import Dbsql.L1Encoding.Mem
/-!
# A query's result as one array (api_table.c)

`__api_get_table` runs a query with a callback that appends what it gets to an array of strings: the
names of the columns, as long as no row has been counted, and the row, if there is one. An empty
result comes as a callback without a row. So the names are there once only where the first callback
has a row, or is the only one: an empty result before the first row puts the names in front again.

Element 0 of the array is hidden from the caller, who gets the address of element 1. It is to tell
`__api_free_table` where the array ends, but what is stored there is the address of the first string
moved by as many bytes as there are elements. The loop compares it with the addresses of the strings,
and moves the pointer that is then freed, which is never the start of the block.

Results:
* `getTable_runs`: the array never gets too small, and holds what the callbacks brought.
* `freeTable_released`: what is freed is not the block.
* `getTable_never`: the two together.
-/
namespace Dbsql.L6.GetTable
open Dbsql.L1

/-! ## `__get_table_cb` -/

/-- A call of the callback: no row is the null pointer, and a string may be one. -/
structure Callback where
  argv : Option (List (Option Bytes))
  colv : List (Option Bytes)
  length_eq : ∀ row ∈ argv, row.length = colv.length

def Callback.ncol (c : Callback) : Nat := c.colv.length

/-- An element of the array: the address of a string, and the string. -/
abbrev Entry : Type := Option (Nat × Bytes)

def Entry.addr (e : Entry) : Nat := (e.map (·.1)).getD 0

def Entry.text (e : Entry) : Option Bytes := e.map (·.2)

/-- Why a call does not go on. -/
inductive Stop
  | overrun
  | nomem
  | error (zErrMsg : Bytes)
  | failed (rc : Nat)

/-- `table_result_t`: `result` from element 1 on, and how many allocations there have been. The counters
are `u_int32_t`. -/
structure TableResult where
  result : List Entry
  num_alloc : Nat
  num_row : Nat
  num_col : Nat
  allocs : Nat

/-- The hidden element counts. -/
def TableResult.num_data (p : TableResult) : Nat := p.result.length + 1

section
-- what the allocations come to, one after the other
variable (alloc : Nat → Option Nat)

/-- `p->result[p->num_data++] = z`. -/
def TableResult.push (p : TableResult) (z : Entry) : Except Stop TableResult :=
  if p.num_data < p.num_alloc then .ok { p with result := p.result ++ [z] } else .error .overrun

/-- Space for `need` more elements (api_table.c:81-94). -/
def reserve (p : TableResult) (need : Nat) : Except Stop TableResult :=
  if p.num_alloc ≤ (p.num_data + need) % 2 ^ 32 then
    match alloc p.allocs with
    | none => .error .nomem
    | some _ => .ok { p with num_alloc := (p.num_alloc * 2 + need + 1) % 2 ^ 32, allocs := p.allocs + 1 }
  else .ok p

/-- The loops over the names and over the row. -/
def pushAll : TableResult → List (Option Bytes) → Except Stop TableResult
  | p, [] => .ok p
  | p, none :: zs => (p.push none).bind fun p => pushAll p zs
  | p, some z :: zs =>
    match alloc p.allocs with
    | none => .error .nomem
    | some a => ({ p with allocs := p.allocs + 1 }.push (some (a, z))).bind fun p => pushAll p zs

/-- The names of the columns, as long as no row has been counted (api_table.c:96-122). -/
def putNames (p : TableResult) (c : Callback) : Except Stop TableResult :=
  if p.num_row = 0 then pushAll alloc { p with num_col := c.ncol } c.colv
  else if p.num_col ≠ c.ncol then
    .error (.error (ascii "DBSQL->get_table() called with two or more " ++ ascii "incompatible queries"))
  else .ok p

/-- The row, if there is one (api_table.c:124-140). -/
def putRow (p : TableResult) (c : Callback) : Except Stop TableResult :=
  match c.argv with
  | none => .ok p
  | some row => (pushAll alloc p row).map fun p => { p with num_row := (p.num_row + 1) % 2 ^ 32 }

/-- How many elements a callback asks for. -/
def needs (p : TableResult) (c : Callback) : Nat :=
  if p.num_row = 0 ∧ c.argv.isSome then c.ncol * 2 else c.ncol

/-- `__get_table_cb` (api_table.c:61-141). -/
def getTableCb (p : TableResult) (c : Callback) : Except Stop TableResult := do
  let p ← reserve alloc p (needs p c)
  let p ← putNames alloc p c
  putRow alloc p c

/-! ## `__api_get_table` and `__api_free_table` -/

/-- What the caller gets, with the hidden element and the elements behind the last one. -/
structure Table where
  hidden : Nat
  entries : List Entry
  spare : List Nat
  nrows : Nat
  ncols : Nat

/-- The callbacks of a query that ends with `rc`, if none of them ends it. -/
def exec (rc : Nat) (cbs : List Callback) (p : TableResult) : Except Stop TableResult := do
  let p ← cbs.foldlM (getTableCb alloc) p
  if rc ≠ 0 then .error (.failed rc) else .ok p

/-- The array is cut to its size. What the element behind the last one holds is not known. -/
def fit (junk : Nat) (p : TableResult) : Except Stop (List Nat) :=
  if p.num_data < p.num_alloc then
    match alloc p.allocs with
    | none => .error .nomem
    | some _ => .ok [junk]
  else .ok []

/-- `__api_get_table` (api_table.c:163-238). -/
def getTable (junk rc : Nat) (cbs : List Callback) : Except Stop Table :=
  match alloc 0 with
  | none => .error .nomem
  | some _ => do
    let p ← exec alloc rc cbs ⟨[], 20, 0, 0, 1⟩
    let spare ← fit alloc junk p
    -- the address of the first string, moved by bytes
    let first := (p.result.map Entry.addr ++ spare).headD 0
    .ok ⟨first + p.num_data, p.result, spare, p.num_row, p.num_col⟩

end

/-- The memory of the array, from its hidden element on. -/
def Table.block (t : Table) : List Nat := t.hidden :: (t.entries.map Entry.addr ++ t.spare)

/-- The elements that were visited, and the one whose address is freed at the end. -/
structure Freed where
  visited : List Nat
  released : Nat
  deriving DecidableEq

/-- The loop, with at most `rounds` rounds. Reading behind the end of the block is a fault. -/
def freeLoop (block : List Nat) (last : Nat) : Nat → Nat → Option Freed
  | 0, _ => none
  | rounds + 1, i => block[i]?.bind fun a =>
    if a ≤ last then (freeLoop block last rounds (i + 1)).map fun f => { f with visited := i :: f.visited }
    else some ⟨[], i⟩

/-- `__api_free_table` (api_table.c:250-275); `results` is the address of element 1. -/
def freeTable (rounds : Nat) (block : List Nat) : Option Freed :=
  block[0]?.bind fun last => block[1]?.bind fun first =>
    if last ≠ first then freeLoop block last rounds 1 else some ⟨[], 1⟩

/-! ## What is asked of them -/

/-- The rows of a query. -/
def rows (cbs : List Callback) : List (List (Option Bytes)) := cbs.filterMap (·.argv)

/-- The names of the columns, from the first callback. -/
def header (cbs : List Callback) : List (Option Bytes) := (cbs.head?.map (·.colv)).getD []

/-- One row of names and then the rows. -/
structure Shaped (cbs : List Callback) (t : Table) : Prop where
  entries : t.entries.map Entry.text = header cbs ++ (rows cbs).flatten
  nrows : t.nrows = (rows cbs).length
  ncols : t.ncols = (header cbs).length

/-- The elements are visited, and the block is released. -/
def FreedWell (t : Table) : Prop :=
  ∃ rounds, freeTable rounds t.block = some ⟨List.range' 1 t.entries.length, 0⟩

/-- The first callback has a row, or is the only one. -/
def HeadedOnce (cbs : List Callback) : Prop := cbs.length ≤ 1 ∨ ∃ c ∈ cbs.head?, c.argv.isSome = true

instance (cbs : List Callback) : Decidable (HeadedOnce cbs) :=
  inferInstanceAs (Decidable (_ ∨ _))

/-! ## What is in the array -/

/-- What the callbacks append, from whether a row has been counted. -/
def emits : Bool → List Callback → List (Option Bytes)
  | _, [] => []
  | seen, c :: cbs => (if seen then [] else c.colv) ++ c.argv.getD [] ++ emits (seen || c.argv.isSome) cbs

def TableResult.texts (p : TableResult) : List (Option Bytes) := p.result.map Entry.text

section
variable {alloc : Nat → Option Nat} {p : TableResult} {need n : Nat} {cbs : List Callback} {c : Callback}

/-- The elements that were pushed; the counters of rows and columns are the same. -/
structure Pushed (p p' : TableResult) (zs : List (Option Bytes)) : Prop where
  texts : p'.texts = p.texts ++ zs
  num_row : p'.num_row = p.num_row
  num_col : p'.num_col = p.num_col

theorem length_texts (p : TableResult) : p.num_data = p.texts.length + 1 := by
  rw [TableResult.texts, List.length_map, TableResult.num_data]

theorem Pushed.num_data {p' : TableResult} {zs : List (Option Bytes)} (h : Pushed p p' zs) :
    p'.num_data = p.num_data + zs.length := by
  rw [length_texts, length_texts, h.texts, List.length_append]
  omega

theorem Pushed.append {p' p'' : TableResult} {zs zs' : List (Option Bytes)} (h : Pushed p p' zs)
    (h' : Pushed p' p'' zs') : Pushed p p'' (zs ++ zs') where
  texts := by
    rw [h'.texts, h.texts, List.append_assoc]
  num_row := h'.num_row.trans h.num_row
  num_col := h'.num_col.trans h.num_col

theorem pushAll_pushed (halloc : ∀ k, (alloc k).isSome = true) {zs : List (Option Bytes)}
    (hroom : p.num_data + zs.length ≤ p.num_alloc) :
    ∃ p', pushAll alloc p zs = .ok p' ∧ Pushed p p' zs ∧ p'.num_alloc = p.num_alloc := by
  induction zs generalizing p with
  | nil => exact ⟨p, rfl, ⟨by simp, rfl, rfl⟩, rfl⟩
  | cons z zs ih =>
    rw [List.length_cons] at hroom
    -- after one element there is room for the others
    have hone : ∀ (q : TableResult) (e : Entry), Pushed p q [] → q.num_alloc = p.num_alloc → e.text = z →
        ∃ p', (q.push e).bind (fun p => pushAll alloc p zs) = .ok p' ∧ Pushed p p' (z :: zs) ∧
          p'.num_alloc = p.num_alloc := by
      intro q e hq hnum_alloc he
      have hdata : q.num_data = p.num_data := hq.num_data
      have hpushed : Pushed q { q with result := q.result ++ [e] } [z] :=
        ⟨by simp [TableResult.texts, he], rfl, rfl⟩
      have hroom' : { q with result := q.result ++ [e] }.num_data + zs.length ≤ q.num_alloc := by
        rw [hpushed.num_data, List.length_singleton]
        omega
      obtain ⟨p', hp', hrest, hsame⟩ := ih (p := { q with result := q.result ++ [e] }) hroom'
      refine ⟨p', ?_, (hq.append hpushed).append hrest, hsame.trans hnum_alloc⟩
      rw [TableResult.push, if_pos (by omega)]
      exact hp'
    cases z with
    | none => exact hone p none ⟨by simp, rfl, rfl⟩ rfl rfl
    | some z =>
      obtain ⟨a, ha⟩ := Option.isSome_iff_exists.1 (halloc p.allocs)
      obtain ⟨p', hp', hrest⟩ := hone { p with allocs := p.allocs + 1 } (some (a, z))
        ⟨by simp [TableResult.texts], rfl, rfl⟩ rfl rfl
      exact ⟨p', by rw [pushAll, ha]; exact hp', hrest⟩

/-- **The array never gets too small.** -/
theorem reserve_room (need : Nat) (halloc : ∀ k, (alloc k).isSome = true) (hroom : p.num_data < p.num_alloc)
    (hsmall : 2 * p.num_data + 3 * need + 1 < 2 ^ 32) :
    ∃ p', reserve alloc p need = .ok p' ∧ p.num_data + need < p'.num_alloc ∧ Pushed p p' [] := by
  have hmod : (p.num_data + need) % 2 ^ 32 = p.num_data + need := Nat.mod_eq_of_lt (by omega)
  rw [reserve, hmod]
  split
  · rename_i hle
    obtain ⟨a, ha⟩ := Option.isSome_iff_exists.1 (halloc p.allocs)
    have hgrow : (p.num_alloc * 2 + need + 1) % 2 ^ 32 = p.num_alloc * 2 + need + 1 :=
      Nat.mod_eq_of_lt (by omega)
    rw [ha, hgrow]
    exact ⟨_, rfl, by dsimp only; omega, by simp [TableResult.texts], rfl, rfl⟩
  · rename_i hlt
    exact ⟨p, rfl, Nat.lt_of_not_le hlt, by simp, rfl, rfl⟩

/-- What a callback appends. -/
def names (p : TableResult) (c : Callback) : List (Option Bytes) := if p.num_row = 0 then c.colv else []

/-- A callback asks for as many elements as it appends. -/
theorem length_appended_le (p : TableResult) (c : Callback) :
    (names p c).length + (c.argv.getD []).length ≤ needs p c ∧ needs p c ≤ c.ncol * 2 := by
  have hn : c.ncol = c.colv.length := rfl
  cases hargv : c.argv with
  | none =>
    simp only [names, needs, hargv, Option.isSome_none, Bool.false_eq_true, and_false, if_false, Option.getD_none]
    split <;> simp <;> omega
  | some row =>
    have hlen : row.length = c.colv.length := c.length_eq row hargv
    simp only [names, needs, hargv, Option.isSome_some, and_true, Option.getD_some]
    split <;> simp <;> omega

theorem putNames_ok (halloc : ∀ k, (alloc k).isSome = true) (hcol : p.num_row ≠ 0 → p.num_col = c.ncol)
    (hroom : p.num_data + (names p c).length ≤ p.num_alloc) :
    ∃ p', putNames alloc p c = .ok p' ∧ p'.texts = p.texts ++ names p c ∧ p'.num_row = p.num_row ∧
      p'.num_col = c.ncol ∧ p'.num_alloc = p.num_alloc := by
  unfold names putNames at *
  split
  · rename_i h0
    rw [if_pos h0] at hroom
    obtain ⟨p', hp', hpush, hsame⟩ := pushAll_pushed (p := { p with num_col := c.ncol }) halloc hroom
    exact ⟨p', hp', hpush.texts, hpush.num_row, hpush.num_col, hsame⟩
  · rename_i h0
    rw [if_neg (not_not.2 (hcol h0))]
    exact ⟨p, rfl, by simp, rfl, hcol h0, rfl⟩

theorem putRow_ok (halloc : ∀ k, (alloc k).isSome = true) (hrow : p.num_row + 1 < 2 ^ 32)
    (hroom : p.num_data + (c.argv.getD []).length ≤ p.num_alloc) :
    ∃ p', putRow alloc p c = .ok p' ∧ p'.texts = p.texts ++ c.argv.getD [] ∧
      p'.num_row = p.num_row + (if c.argv.isSome then 1 else 0) ∧ p'.num_col = p.num_col ∧
        p'.num_alloc = p.num_alloc := by
  unfold putRow
  cases hargv : c.argv with
  | none => exact ⟨p, rfl, by simp, rfl, rfl, rfl⟩
  | some row =>
    rw [hargv, Option.getD_some] at hroom
    obtain ⟨p', hp', hpush, hsame⟩ := pushAll_pushed halloc hroom
    refine ⟨{ p' with num_row := (p'.num_row + 1) % 2 ^ 32 }, by simp [hp', Except.map], hpush.texts, ?_,
      hpush.num_col, hsame⟩
    simp only [hpush.num_row, Option.isSome_some, if_true]
    exact Nat.mod_eq_of_lt hrow

/-- What a callback does where there is memory. -/
structure Added (p p' : TableResult) (c : Callback) : Prop where
  room : p'.num_data < p'.num_alloc
  texts : p'.texts = p.texts ++ (names p c ++ c.argv.getD [])
  num_row : p'.num_row = p.num_row + (if c.argv.isSome then 1 else 0)
  num_col : p'.num_col = c.ncol

theorem getTableCb_added (halloc : ∀ k, (alloc k).isSome = true) (hroom : p.num_data < p.num_alloc)
    (hcol : p.num_row ≠ 0 → p.num_col = c.ncol) (hsmall : 2 * p.num_data + 6 * c.ncol + 1 < 2 ^ 32)
    (hrow : p.num_row + 1 < 2 ^ 32) : ∃ p', getTableCb alloc p c = .ok p' ∧ Added p p' c := by
  obtain ⟨hfit, hneeds⟩ := length_appended_le p c
  obtain ⟨p₁, h₁, hroom₁, hsame⟩ := reserve_room (needs p c) halloc hroom (by omega)
  have hdata₁ : p₁.num_data = p.num_data := hsame.num_data
  have hnames : names p₁ c = names p c := by
    rw [names, names, hsame.num_row]
  obtain ⟨p₂, h₂, htexts₂, hrow₂, hcol₂, halloc₂⟩ := putNames_ok (p := p₁) (c := c) halloc
    (by rw [hsame.num_row, hsame.num_col]; exact hcol) (by rw [hnames]; omega)
  have hdata₂ : p₂.num_data = p.num_data + (names p c).length := by
    rw [length_texts, htexts₂, List.length_append, hnames, ← hdata₁, length_texts p₁]
    omega
  have hrow₂' : p₂.num_row = p.num_row := hrow₂.trans hsame.num_row
  obtain ⟨p₃, h₃, htexts₃, hrow₃, hcol₃, halloc₃⟩ := putRow_ok (p := p₂) (c := c) halloc (by omega) (by omega)
  have hdata₃ : p₃.num_data = p₂.num_data + (c.argv.getD []).length := by
    rw [length_texts, htexts₃, List.length_append, length_texts p₂]
    omega
  have htexts : p₃.texts = p.texts ++ (names p c ++ c.argv.getD []) := by
    rw [htexts₃, htexts₂, hnames, hsame.texts, List.append_nil, List.append_assoc]
  refine ⟨p₃, ?_, by omega, htexts, hrow₃.trans (by rw [hrow₂']), hcol₃.trans hcol₂⟩
  simp only [getTableCb, bind, Except.bind, h₁, h₂, h₃]

/-- What all callbacks do where there is memory. -/
structure Filled (p p' : TableResult) (n : Nat) (cbs : List Callback) : Prop where
  room : p'.num_data < p'.num_alloc
  texts : p'.texts = p.texts ++ emits (decide (p.num_row ≠ 0)) cbs
  num_row : p'.num_row = p.num_row + (rows cbs).length
  num_col : cbs ≠ [] → p'.num_col = n

theorem length_rows_le (cbs : List Callback) : (rows cbs).length ≤ cbs.length := List.length_filterMap_le ..

theorem foldlM_filled (halloc : ∀ k, (alloc k).isSome = true) (hn : ∀ c ∈ cbs, c.ncol = n)
    (hroom : p.num_data < p.num_alloc) (hcol : p.num_row ≠ 0 → p.num_col = n)
    (hsmall : 2 * p.num_data + 4 * (n * cbs.length) + 6 * n + 1 < 2 ^ 32) (hrow : p.num_row + cbs.length < 2 ^ 32) :
    ∃ p', cbs.foldlM (getTableCb alloc) p = .ok p' ∧ Filled p p' n cbs := by
  induction cbs generalizing p with
  | nil => exact ⟨p, rfl, hroom, by simp [emits], by simp [rows], by simp⟩
  | cons c cbs ih =>
    have hc : c.ncol = n := hn c (List.mem_cons_self ..)
    rw [List.length_cons] at hsmall hrow
    rw [Nat.mul_succ] at hsmall
    obtain ⟨p₁, h₁, hadd⟩ := getTableCb_added (c := c) halloc hroom (by rw [hc]; exact hcol) (by rw [hc]; omega)
      (by omega)
    obtain ⟨hfit, hneeds⟩ := length_appended_le p c
    have hdata : p₁.num_data = p.num_data + ((names p c).length + (c.argv.getD []).length) := by
      rw [length_texts, hadd.texts, List.length_append, List.length_append, length_texts p]
      omega
    have hrow₁ : p₁.num_row ≤ p.num_row + 1 := by
      rw [hadd.num_row]
      split <;> omega
    obtain ⟨p', hrun, hfill⟩ := ih (p := p₁) (fun d hd => hn d (List.mem_cons_of_mem c hd)) hadd.room
      (fun _ => hadd.num_col.trans hc) (by rw [hc] at hneeds; omega) (by omega)
    refine ⟨p', by simp [List.foldlM_cons, h₁, hrun, bind, Except.bind], hfill.room, ?_, ?_, ?_⟩
    · have hseen : decide (p₁.num_row ≠ 0) = (decide (p.num_row ≠ 0) || c.argv.isSome) := by
        rw [hadd.num_row]
        cases c.argv <;> simp
      have hnames : (if decide (p.num_row ≠ 0) = true then [] else c.colv) = names p c := by
        simp [names]
      rw [hfill.texts, hadd.texts, hseen, emits, hnames, List.append_assoc]
    · rw [hfill.num_row, hadd.num_row]
      cases hargv : c.argv with
      | none => simp [rows, hargv]
      | some row =>
        simp [rows, hargv]
        omega
    · intro _
      cases cbs with
      | nil =>
        obtain rfl : p₁ = p' := by simpa [pure, Except.pure] using hrun
        exact hadd.num_col.trans hc
      | cons d cbs => exact hfill.num_col (List.cons_ne_nil d cbs)

/-! ## The shape of the array -/

/-- Once a row has been counted only rows are appended. -/
theorem emits_true (cbs : List Callback) : emits true cbs = (rows cbs).flatten := by
  induction cbs with
  | nil => rfl
  | cons c cbs ih =>
    rw [emits, Bool.true_or, ih]
    cases hargv : c.argv with
    | none => simp [rows, hargv]
    | some row => simp [rows, hargv]

/-- Before that the names are there as well. -/
theorem length_emits_false (hn : ∀ c ∈ cbs, c.ncol = n) (hne : cbs ≠ []) :
    n + (rows cbs).flatten.length ≤ (emits false cbs).length := by
  induction cbs with
  | nil => exact absurd rfl hne
  | cons c cbs ih =>
    have hc : c.colv.length = n := hn c (List.mem_cons_self ..)
    cases hargv : c.argv with
    | some row =>
      rw [emits, hargv, Option.isSome_some, Bool.or_true, emits_true]
      simp [rows, hargv, hc]
    | none =>
      have hrows : rows (c :: cbs) = rows cbs := by simp [rows, hargv]
      rw [emits, hargv, Option.isSome_none, Bool.or_false, hrows]
      cases cbs with
      | nil => simp [rows, emits, hc]
      | cons d cbs =>
        have hrest := ih (fun e he => hn e (List.mem_cons_of_mem c he)) (List.cons_ne_nil d cbs)
        simp only [Bool.false_eq_true, if_false, Option.getD_none, List.append_nil, List.length_append, hc]
        omega

/-- **The array has the names once exactly where the first callback has a row or is the only one.** -/
theorem emits_false_iff (hn : ∀ c ∈ cbs, c.ncol = n) (hpos : 0 < n) :
    emits false cbs = header cbs ++ (rows cbs).flatten ↔ HeadedOnce cbs := by
  cases cbs with
  | nil => simp [emits, header, rows, HeadedOnce]
  | cons c cbs =>
    cases hargv : c.argv with
    | some row =>
      refine iff_of_true ?_ (.inr ⟨c, rfl, by simp [hargv]⟩)
      rw [emits, hargv, Option.isSome_some, Bool.or_true, emits_true]
      simp [header, rows, hargv]
    | none =>
      cases cbs with
      | nil => simp [emits, header, rows, hargv, HeadedOnce]
      | cons d cbs =>
        refine iff_of_false (fun heq => ?_) ?_
        · -- two rows of names at least
          have hc : c.colv.length = n := hn c (List.mem_cons_self ..)
          have hrest := length_emits_false (fun e he => hn e (List.mem_cons_of_mem c he)) (List.cons_ne_nil d cbs)
          have hrows : rows (c :: d :: cbs) = rows (d :: cbs) := by simp [rows, hargv]
          have hlen := congrArg List.length heq
          rw [emits, hargv, Option.isSome_none, Bool.or_false, hrows] at hlen
          simp only [Bool.false_eq_true, if_false, Option.getD_none, List.append_nil, List.length_append, header,
            List.head?_cons, Option.map_some, Option.getD_some, hc] at hlen
          omega
        · simp [HeadedOnce, hargv]

/-- **What a query brings is in the array,** where there is memory. -/
theorem getTable_runs (halloc : ∀ k, (alloc k).isSome = true) (hn : ∀ c ∈ cbs, c.ncol = n)
    (hpos : 0 < n) (hsmall : n * (cbs.length + 3) < 2 ^ 30) (junk : Nat) :
    ∃ t, getTable alloc junk 0 cbs = .ok t ∧ t.entries.map Entry.text = emits false cbs ∧
      t.nrows = (rows cbs).length ∧ t.ncols = (header cbs).length := by
  have hmul : n * (cbs.length + 3) = n * cbs.length + n * 3 := Nat.mul_add ..
  have hlen : cbs.length ≤ n * cbs.length := Nat.le_mul_of_pos_left _ hpos
  obtain ⟨p, hrun, hfill⟩ := foldlM_filled (p := ⟨[], 20, 0, 0, 1⟩) halloc hn (by decide) (fun h => absurd rfl h)
    (by simp only [TableResult.num_data, List.length_nil]; omega) (by dsimp only; omega)
  obtain ⟨a, ha⟩ := Option.isSome_iff_exists.1 (halloc 0)
  obtain ⟨b, hb⟩ := Option.isSome_iff_exists.1 (halloc p.allocs)
  refine ⟨_, by simp only [getTable, ha, exec, hrun, fit, if_pos hfill.room, hb, bind, Except.bind, ne_eq,
    not_true_eq_false, if_false]; rfl, ?_, ?_, ?_⟩
  · have htexts := hfill.texts
    simpa [TableResult.texts] using htexts
  · simpa using hfill.num_row
  · cases cbs with
    | nil =>
      obtain rfl : (⟨[], 20, 0, 0, 1⟩ : TableResult) = p := by simpa [pure, Except.pure] using hrun
      rfl
    | cons c cbs =>
      have hc : c.colv.length = n := hn c (List.mem_cons_self ..)
      simpa [header, hc] using hfill.num_col (List.cons_ne_nil c cbs)

/-! ## Freeing the array -/

theorem freeLoop_released {block : List Nat} {last rounds i : Nat} {f : Freed}
    (h : freeLoop block last rounds i = some f) : i ≤ f.released := by
  induction rounds generalizing i f with
  | zero => cases h
  | succ rounds ih =>
    obtain ⟨a, -, h⟩ := Option.bind_eq_some_iff.1 h
    split at h
    · obtain ⟨f', hf', rfl⟩ := Option.map_eq_some_iff.1 h
      have hle := ih hf'
      exact Nat.le_of_succ_le hle
    · obtain rfl := Option.some.inj h
      exact Nat.le_refl i

/-- **What is freed at the end is not the block,** whatever the addresses are. -/
theorem freeTable_released {block : List Nat} {rounds : Nat} {f : Freed} (h : freeTable rounds block = some f) :
    1 ≤ f.released := by
  obtain ⟨last, -, h⟩ := Option.bind_eq_some_iff.1 h
  obtain ⟨first, -, h⟩ := Option.bind_eq_some_iff.1 h
  split at h
  · exact freeLoop_released h
  · obtain rfl := Option.some.inj h
    exact Nat.le_refl 1

theorem not_freedWell (t : Table) : ¬FreedWell t := by
  intro h
  obtain ⟨rounds, hfree⟩ := h
  exact absurd (freeTable_released hfree) (by simp)

/-- The query returns an array of the right shape that is freed as it should be. -/
def Meets (alloc : Nat → Option Nat) (junk rc : Nat) (cbs : List Callback) : Prop :=
  ∃ t, getTable alloc junk rc cbs = .ok t ∧ Shaped cbs t ∧ FreedWell t

/-- **No array is freed as it should be.** Its shape is right exactly where the first callback has a row
or is the only one. -/
theorem getTable_never (alloc : Nat → Option Nat) (junk rc : Nat) (cbs : List Callback) :
    ¬Meets alloc junk rc cbs ∧
      ∀ n, (∀ k, (alloc k).isSome = true) → (∀ c ∈ cbs, c.ncol = n) → 0 < n → n * (cbs.length + 3) < 2 ^ 30 →
        ∃ t, getTable alloc junk 0 cbs = .ok t ∧ (Shaped cbs t ↔ HeadedOnce cbs) := by
  refine ⟨fun h => ?_, fun n halloc hn hpos hsmall => ?_⟩
  · obtain ⟨t, -, -, hfreed⟩ := h
    exact not_freedWell t hfreed
  · obtain ⟨t, ht, hentries, hnrows, hncols⟩ := getTable_runs halloc hn hpos hsmall junk
    refine ⟨t, ht, ?_⟩
    rw [← emits_false_iff hn hpos, ← hentries]
    exact ⟨fun h => h.entries, fun h => ⟨h, hnrows, hncols⟩⟩

end

/-- An empty result with one column, and a row of a second query. -/
def emptyThenRow : List Callback :=
  [⟨none, [some (ascii "a")], by simp⟩, ⟨some [some (ascii "1")], [some (ascii "b")], by simp⟩]

/-- The array has the names of both. -/
example : ((getTable (fun k => some (64 * k)) 0 0 emptyThenRow).toOption.map fun t => t.entries.map Entry.text) =
    some [some (ascii "a"), some (ascii "b"), some (ascii "1")] := by
  decide

/-- It is neither of the right shape nor freed as it should be. -/
theorem getTable_fails : ¬∀ (alloc : Nat → Option Nat) (n : Nat) (cbs : List Callback), (∀ k, (alloc k).isSome = true) →
    (∀ c ∈ cbs, c.ncol = n) → Meets alloc 0 0 cbs := by
  intro h
  obtain ⟨t, ht, hshape, -⟩ := h (fun k => some (64 * k)) 1 emptyThenRow (fun _ => rfl) (by decide)
  have hthree : t.entries.map Entry.text = [some (ascii "a"), some (ascii "b"), some (ascii "1")] := by
    obtain rfl := Except.ok.inj ht
    rfl
  have htwo := hshape.entries
  rw [hthree] at htwo
  exact absurd htwo (by decide)

end Dbsql.L6.GetTable
