import Dbsql.Core.IndexChain
import Dbsql.L5Parse.Tokenize
/-!
# The table of keywords (sql_tokenize.c:41-205)

At its first call `__get_keyword_code` threads `sql_tokens_table` into 101 hash chains. A chain begins
in `ai_table` and goes on in the entries; its links are indices plus one, in a byte.

Results:
* `initTables_links`: the links are those of the library's `thread`.
* `getKeywordCode_iff`: whatever was called before, the code is that of the keyword that the word is
  but for case.
* `getKeywordCode_refines`: the scanner's look at its chains is such a call.
-/
namespace Dbsql.L5.Parse.Keywords
open Dbsql.L1 Dbsql.Core.IndexChain
open Dbsql.L2.HashTable (Valid canon cut hash_congr hashFn hashIgnoreCase strncasecmp strncasecmp_iff
  strUpperToLower_eq_zero)

/-! ## The code -/

/-- `keyword_t` (sql_tokenize.c:45-52). -/
structure Keyword where
  name : Bytes
  tokenType : Tk
  len : UInt8
  inext : UInt8
  deriving DecidableEq

/-- The static variables of `__get_keyword_code`. -/
structure Tables where
  sqlTokens : List Keyword
  ai : List UInt8
  needInit : Bool
  deriving DecidableEq

/-- `KEY_HASH_SIZE`. -/
def keyHashSize : Nat := 101

/-- The variables before the first call. -/
def tables₀ : Tables where
  sqlTokens := sqlTokensTable.map fun p => ⟨ascii p.1, p.2, 0, 0⟩
  ai := List.replicate keyHashSize 0
  needInit := true

/-- `__hash_ignore_case(z, n) % KEY_HASH_SIZE`. -/
def keyHash (z : Bytes) (n : CInt) : Nat := (hashIgnoreCase z n).toNat % keyHashSize

/-- The body of the loop that threads the table (sql_tokenize.c:187-195); `none` is an access outside
of a table. -/
def threadEntry (t : Tables) (i : Nat) : Option Tables :=
  match t.sqlTokens[i]? with
  | none => none
  | some p =>
    let len := UInt8.ofNat p.name.length
    let h := keyHash p.name (BitVec.ofNat 32 len.toNat)
    (t.ai[h]?).map fun head =>
      { t with
        sqlTokens := t.sqlTokens.set i { p with len, inext := head }
        ai := t.ai.set h (UInt8.ofNat (i + 1)) }

def initTables (t : Tables) : Option Tables :=
  if t.needInit then
    (List.range t.sqlTokens.length).foldlM threadEntry { t with needInit := false }
  else some t

/-- The loop over a chain (sql_tokenize.c:198-204); `none` if it has not ended after `fuel` entries, or
is outside of the table. -/
def walkChain (table : List Keyword) (z : Bytes) (n : CInt) : Nat → UInt8 → Option Tk
  | 0, i => if i = 0 then some .id else none
  | fuel + 1, i =>
    if i = 0 then some .id
    else
      match table[i.toNat - 1]? with
      | none => none
      | some p =>
        if (p.len.toNat : Int) = n.toInt ∧ strncasecmp p.name z n.toNat then some p.tokenType
        else walkChain table z n fuel p.inext

/-- `__get_keyword_code` (sql_tokenize.c:171-205): the tables it leaves and what it returns. -/
def getKeywordCode (fuel : Nat) (t : Tables) (z : Bytes) (n : CInt) : Option (Tables × Tk) :=
  match initTables t with
  | none => none
  | some t =>
    (t.ai[keyHash z n]?).bind fun i => (walkChain t.sqlTokens z n fuel i).map fun c => (t, c)

/-! ## The tables after the first call -/

/-- The hash of entry `i`. -/
def hashAt (i : Nat) : Nat :=
  match tables₀.sqlTokens[i]? with
  | none => 0
  | some p => keyHash p.name (BitVec.ofNat 32 p.name.length)

/-- The first `k` entries have been threaded. -/
structure Threaded (t : Tables) (k : Nat) : Prop where
  length : t.sqlTokens.length = tables₀.sqlTokens.length
  ai_length : t.ai.length = keyHashSize
  entry : ∀ i p, t.sqlTokens[i]? = some p → ∃ p₀, tables₀.sqlTokens[i]? = some p₀ ∧
    p.name = p₀.name ∧ p.tokenType = p₀.tokenType ∧
      (i < k → p.len.toNat = p.name.length ∧ p.inext.toNat = (thread hashAt k).next i)
  head : ∀ h i, t.ai[h]? = some i → i.toNat = (thread hashAt k).heads h

/-- The table is short and so are its names. -/
theorem tables₀_small : tables₀.sqlTokens.length = 100 ∧ ∀ p ∈ tables₀.sqlTokens, p.name.length < 256 := by
  constructor <;> decide +kernel

theorem toNat_ofNat_lt {n : Nat} (h : n < 256) : (UInt8.ofNat n).toNat = n := by
  rw [UInt8.toNat_ofNat']
  omega

theorem keyHash_lt (z : Bytes) (n : CInt) : keyHash z n < keyHashSize := Nat.mod_lt _ (by decide)

theorem threaded_zero : Threaded { tables₀ with needInit := false } 0 where
  length := rfl
  ai_length := List.length_replicate
  entry i p hp := ⟨p, hp, rfl, rfl, fun h => absurd h (Nat.not_lt_zero i)⟩
  head h i hi := by
    obtain rfl : i = 0 := List.eq_of_mem_replicate (List.mem_of_getElem? hi)
    rfl

/-- One entry is put at the front of its chain. -/
theorem Threaded.step {t : Tables} {k : Nat} (h : Threaded t k) (hk : k < tables₀.sqlTokens.length) :
    ∃ t', threadEntry t k = some t' ∧ Threaded t' (k + 1) ∧ t'.needInit = t.needInit := by
  obtain ⟨p, hp⟩ : ∃ p, t.sqlTokens[k]? = some p := ⟨_, List.getElem?_eq_getElem (h.length ▸ hk)⟩
  obtain ⟨p₀, hp₀, hname, htype, -⟩ := h.entry k p hp
  have hlen : (UInt8.ofNat p.name.length).toNat = p.name.length :=
    toNat_ofNat_lt (hname ▸ tables₀_small.2 p₀ (List.mem_of_getElem? hp₀))
  have hhash : keyHash p.name (BitVec.ofNat 32 (UInt8.ofNat p.name.length).toNat) = hashAt k := by
    rw [hlen, hashAt, hp₀, hname]
  have hlt : hashAt k < t.ai.length := by
    rw [h.ai_length, ← hhash]
    exact keyHash_lt _ _
  obtain ⟨head, hhead⟩ : ∃ head, t.ai[hashAt k]? = some head := ⟨_, List.getElem?_eq_getElem hlt⟩
  have hk' : k + 1 < 256 := by
    have := tables₀_small.1
    omega
  unfold threadEntry
  rw [hp]
  dsimp only
  rw [hhash, hhead]
  refine ⟨_, rfl, ⟨?_, ?_, ?_, ?_⟩, rfl⟩
  · rw [List.length_set, h.length]
  · rw [List.length_set, h.ai_length]
  · intro i q hq
    by_cases hi : i = k
    · subst hi
      rw [List.getElem?_set_self (h.length ▸ hk)] at hq
      cases hq
      refine ⟨p₀, hp₀, hname, htype, fun _ => ⟨hlen, ?_⟩⟩
      rw [h.head _ _ hhead]
      have hnext : (thread hashAt (i + 1)).next i = (thread hashAt i).heads (hashAt i) :=
        Function.update_self _ _ _
      exact hnext.symm
    · rw [List.getElem?_set_ne (Ne.symm hi)] at hq
      obtain ⟨q₀, hq₀, hn, ht, hold⟩ := h.entry i q hq
      refine ⟨q₀, hq₀, hn, ht, fun hik => ?_⟩
      obtain ⟨hl, hx⟩ := hold (by omega)
      have hnext : (thread hashAt (k + 1)).next i = (thread hashAt k).next i :=
        Function.update_of_ne hi _ _
      exact ⟨hl, hx.trans hnext.symm⟩
  · intro b i hi
    by_cases hb : b = hashAt k
    · subst hb
      rw [List.getElem?_set_self hlt] at hi
      cases hi
      rw [toNat_ofNat_lt hk']
      have hhead : (thread hashAt (k + 1)).heads (hashAt k) = k + 1 := Function.update_self _ _ _
      exact hhead.symm
    · rw [List.getElem?_set_ne (Ne.symm hb)] at hi
      rw [h.head b i hi]
      have hhead : (thread hashAt (k + 1)).heads b = (thread hashAt k).heads b :=
        Function.update_of_ne hb _ _
      exact hhead.symm

/-- The loop over the whole table. -/
theorem threaded_loop (n : Nat) (hn : n ≤ tables₀.sqlTokens.length) : ∃ t,
    (List.range n).foldlM threadEntry { tables₀ with needInit := false } = some t ∧ Threaded t n ∧
      t.needInit = false := by
  induction n with
  | zero => exact ⟨_, rfl, threaded_zero, rfl⟩
  | succ n ih =>
    obtain ⟨t, ht, h, hinit⟩ := ih (by omega)
    obtain ⟨t', ht', h', hinit'⟩ := h.step (by omega)
    refine ⟨t', ?_, h', hinit'.trans hinit⟩
    rw [List.range_succ, List.foldlM_append, ht]
    simp [ht']

/-- The tables at a call: as they are at the start, or threaded. -/
def Ready (t : Tables) : Prop :=
  t = tables₀ ∨ t.needInit = false ∧ Threaded t tables₀.sqlTokens.length

/-- **After the first call the tables are threaded, and stay so.** -/
theorem initTables_links {t : Tables} (h : Ready t) : ∃ t', initTables t = some t' ∧
    Threaded t' tables₀.sqlTokens.length ∧ Ready t' := by
  obtain rfl | ⟨hinit, h⟩ := h
  · obtain ⟨t, ht, h, hinit⟩ := threaded_loop _ le_rfl
    exact ⟨t, ht, h, .inr ⟨hinit, h⟩⟩
  · refine ⟨t, ?_, h, .inr ⟨hinit, h⟩⟩
    rw [initTables, hinit]
    rfl

/-! ## The walk -/

/-- The test of the loop over a chain. -/
def isKeyword (z : Bytes) (n : CInt) (i : Nat) : Bool :=
  match tables₀.sqlTokens[i]? with
  | none => false
  | some p => (p.name.length : Int) = n.toInt ∧ strncasecmp p.name z n.toNat

/-- The code of the entry that a walk finds. -/
def codeOf : Option Nat → Tk
  | none => .id
  | some i => ((tables₀.sqlTokens[i]?).map (·.tokenType)).getD .id

theorem walkChain_eq {t : Tables} (h : Threaded t tables₀.sqlTokens.length) (z : Bytes) (n : CInt)
    {is : List Nat} {i : UInt8} {a : Nat} (hc : Chain (thread hashAt tables₀.sqlTokens.length).next a is)
    (hi : i.toNat = a) (hlt : ∀ j ∈ is, j < tables₀.sqlTokens.length) (fuel : Nat) :
    walkChain t.sqlTokens z n fuel i =
      (walk (thread hashAt tables₀.sqlTokens.length).next (isKeyword z n) fuel a).map codeOf := by
  induction hc generalizing i fuel with
  | nil =>
    obtain rfl : i = 0 := UInt8.toNat_inj.1 hi
    cases fuel <;> rfl
  | @cons j js _ ih =>
    have hne : i ≠ 0 := by
      rintro rfl
      cases hi
    cases fuel with
    | zero =>
      rw [walkChain, if_neg hne]
      rfl
    | succ fuel =>
      have hj := hlt j List.mem_cons_self
      obtain ⟨p, hp⟩ : ∃ p, t.sqlTokens[j]? = some p := ⟨_, List.getElem?_eq_getElem (h.length ▸ hj)⟩
      obtain ⟨p₀, hp₀, hname, htype, hset⟩ := h.entry j p hp
      obtain ⟨hlen, hnext⟩ := hset hj
      rw [walkChain, if_neg hne, hi, Nat.add_sub_cancel, hp, walk]
      dsimp only
      have htest : (p.len.toNat : Int) = n.toInt ∧ strncasecmp p.name z n.toNat = true ↔
          isKeyword z n j = true := by
        rw [isKeyword, hp₀, hlen, hname]
        simp
      by_cases hk : isKeyword z n j = true
      · rw [if_pos (htest.2 hk), if_pos hk, Option.map_some, codeOf, hp₀, htype]
        rfl
      · rw [if_neg fun h => hk (htest.1 h), if_neg hk]
        exact ih hnext (fun k hk => hlt k (List.mem_cons_of_mem _ hk)) fuel

theorem cut_eq {w v : Bytes} (hv : 0 ∉ v) (h : cut w = v) : w = v := by
  induction w generalizing v with
  | nil => exact h
  | cons c w ih =>
    rw [cut] at h
    split at h
    · subst h
      exact absurd List.mem_cons_self hv
    · subst h
      rw [List.mem_cons, not_or] at hv
      rw [← ih hv.2 rfl]

/-- The first `n` bytes are the keyword, but for case. -/
def IsWord (z : Bytes) (n : CInt) (name : String) : Prop :=
  n.toInt = (ascii name).length ∧ fold (z.take n.toNat) = fold (ascii name)

theorem getElem?_tables₀ (i : Nat) : tables₀.sqlTokens[i]? =
    (sqlTokensTable[i]?).map fun p => ⟨ascii p.1, p.2, 0, 0⟩ := List.getElem?_map

theorem toNat_of_toInt {n : CInt} {l : Nat} (h : n.toInt = l) : n.toNat = l := by
  have := BitVec.toInt_eq_toNat_cond n
  have := n.isLt
  omega

/-- The test finds the word. -/
theorem isKeyword_iff {z : Bytes} {n : CInt} {i : Nat} {kw : String × Tk} (hi : sqlTokensTable[i]? = some kw) :
    isKeyword z n i = true ↔ IsWord z n kw.1 := by
  obtain ⟨-, -, h0⟩ := sqlTokensTable_names.1 kw (List.mem_of_getElem? hi)
  have hfold : 0 ∉ fold (ascii kw.1) := by
    simpa [fold, strUpperToLower_eq_zero] using h0
  rw [isKeyword, getElem?_tables₀, hi, Option.map_some]
  simp only [decide_eq_true_eq, strncasecmp_iff]
  rw [eq_comm]
  refine and_congr_right fun hlen => ?_
  rw [toNat_of_toInt hlen, List.take_length]
  change cut (fold (ascii kw.1)) = cut (fold (z.take _)) ↔ _
  rw [cut_fold h0, eq_comm]
  constructor
  · exact cut_eq hfold
  · intro h
    rw [h, cut_fold h0]

/-- The word is looked for in the chain of the keyword. -/
theorem hashAt_eq {z : Bytes} {n : CInt} {i : Nat} {kw : String × Tk} (hi : sqlTokensTable[i]? = some kw)
    (h : IsWord z n kw.1) : hashAt i = keyHash z n := by
  obtain ⟨hlen, hfold⟩ := h
  obtain ⟨hpos, -, h0⟩ := sqlTokensTable_names.1 kw (List.mem_of_getElem? hi)
  have hn := toNat_of_toInt hlen
  have hofNat : BitVec.ofNat 32 (ascii kw.1).length = n := by rw [← hn, BitVec.ofNat_toNat, BitVec.setWidth_eq]
  rw [hashAt, getElem?_tables₀, hi, Option.map_some]
  dsimp only
  rw [hofNat]
  have hv : Valid .string (ascii kw.1) n := by
    refine fun _ => ⟨?_, hn.le, fun hmem => h0 (List.mem_of_mem_take hmem)⟩
    rw [BitVec.slt_iff_toInt_lt, hlen]
    exact Int.natCast_pos.2 hpos
  have hcanon : canon .string (ascii kw.1) n = canon .string z n := by
    have htake : (ascii kw.1).take n.toNat = ascii kw.1 := by rw [hn, List.take_length]
    show (n, cut (fold ((ascii kw.1).take n.toNat))) = (n, cut (fold (z.take n.toNat)))
    rw [htake, hfold]
  have hh : hashIgnoreCase (ascii kw.1) n = hashIgnoreCase z n := hash_congr hv hcanon
  rw [keyHash, keyHash, hh]

/-- What a call finds in the threaded table. -/
def lookup (z : Bytes) (n : CInt) : Option Nat :=
  (bucket hashAt tables₀.sqlTokens.length (keyHash z n)).find? (isKeyword z n)

theorem lookup_some {z : Bytes} {n : CInt} {i : Nat} (h : lookup z n = some i) :
    ∃ kw, sqlTokensTable[i]? = some kw ∧ IsWord z n kw.1 := by
  have hmem := (mem_bucket hashAt).1 (List.mem_of_find?_eq_some h)
  have hlt : i < sqlTokensTable.length := by
    have hlen : tables₀.sqlTokens.length = sqlTokensTable.length := List.length_map _
    exact hlen ▸ hmem.1
  refine ⟨_, List.getElem?_eq_getElem hlt, ?_⟩
  exact (isKeyword_iff (List.getElem?_eq_getElem hlt)).1 (List.find?_some h)

theorem lookup_none {z : Bytes} {n : CInt} (h : lookup z n = none) {kw : String × Tk}
    (hkw : kw ∈ sqlTokensTable) : ¬IsWord z n kw.1 := by
  intro hword
  obtain ⟨i, hi⟩ := List.getElem?_of_mem hkw
  obtain ⟨hlt, -⟩ := List.getElem?_eq_some_iff.1 hi
  have hmem : i ∈ bucket hashAt tables₀.sqlTokens.length (keyHash z n) := by
    refine (mem_bucket hashAt).2 ⟨?_, hashAt_eq hi hword⟩
    rw [tables₀, List.length_map]
    exact hlt
  exact List.find?_eq_none.1 h i hmem ((isKeyword_iff hi).2 hword)

/-- One call. -/
theorem getKeywordCode_eq {t : Tables} (h : Ready t) (z : Bytes) (n : CInt) {fuel : Nat}
    (hf : tables₀.sqlTokens.length ≤ fuel) :
    ∃ t', getKeywordCode fuel t z n = some (t', codeOf (lookup z n)) ∧ Ready t' := by
  obtain ⟨t', ht', hthread, hready⟩ := initTables_links h
  refine ⟨t', ?_, hready⟩
  have hlt : keyHash z n < t'.ai.length := by
    rw [hthread.ai_length]
    exact keyHash_lt z n
  obtain ⟨head, hhead⟩ : ∃ head, t'.ai[keyHash z n]? = some head := ⟨_, List.getElem?_eq_getElem hlt⟩
  have hchain := chain_thread hashAt tables₀.sqlTokens.length (keyHash z n)
  have hwalk := walkChain_eq hthread z n hchain (hthread.head _ _ hhead)
    (fun j hj => ((mem_bucket hashAt).1 hj).1) fuel
  rw [walk_eq hchain _ ((length_bucket_le hashAt _ _).trans hf), Option.map_some] at hwalk
  rw [getKeywordCode, ht']
  dsimp only
  rw [hhead, Option.bind_some, hwalk, Option.map_some]
  rfl

/-- The code of a word: its keyword's, or that of an identifier. -/
theorem codeOf_lookup (z : Bytes) (n : CInt) (c : Tk) : codeOf (lookup z n) = c ↔
    (∃ kw ∈ sqlTokensTable, kw.2 = c ∧ IsWord z n kw.1) ∨
      c = .id ∧ ∀ kw ∈ sqlTokensTable, ¬IsWord z n kw.1 := by
  cases h : lookup z n with
  | none =>
    have hno : ∀ kw ∈ sqlTokensTable, ¬IsWord z n kw.1 := fun kw hkw => lookup_none h hkw
    constructor
    · rintro rfl
      exact .inr ⟨rfl, hno⟩
    · rintro (⟨kw, hkw, -, hword⟩ | ⟨rfl, -⟩)
      · exact absurd hword (hno kw hkw)
      · rfl
  | some i =>
    obtain ⟨kw, hi, hword⟩ := lookup_some h
    have hcode : codeOf (some i) = kw.2 := by rw [codeOf, getElem?_tables₀, hi]; rfl
    have hmem := List.mem_of_getElem? hi
    rw [hcode]
    constructor
    · rintro rfl
      exact .inl ⟨kw, hmem, rfl, hword⟩
    · rintro (⟨kw', hkw', rfl, hword'⟩ | ⟨-, hno⟩)
      · -- no two keywords are the same but for case
        have hsame := List.inj_on_of_nodup_map sqlTokensTable_names.2 hmem hkw'
          (hword.2.symm.trans hword'.2)
        rw [hsame]
      · exact absurd hword (hno kw hmem)

/-! ## Every call -/

/-- Calls one after the other. -/
def calls (fuel : Nat) (t : Tables) (words : List (Bytes × CInt)) : Option Tables :=
  words.foldlM (fun t w => (getKeywordCode fuel t w.1 w.2).map Prod.fst) t

theorem calls_ready {t : Tables} (h : Ready t) (words : List (Bytes × CInt)) {fuel : Nat}
    (hf : tables₀.sqlTokens.length ≤ fuel) : ∃ t', calls fuel t words = some t' ∧ Ready t' := by
  induction words generalizing t with
  | nil => exact ⟨t, rfl, h⟩
  | cons w words ih =>
    obtain ⟨t₁, hcall, h₁⟩ := getKeywordCode_eq h w.1 w.2 hf
    obtain ⟨t', hcalls, h'⟩ := ih h₁
    refine ⟨t', ?_, h'⟩
    rw [calls, List.foldlM_cons, hcall]
    exact hcalls

/-- **Whatever was called before, a call ends inside of the tables; it returns the code of the keyword
that the first `n` bytes are but for case, and that of an identifier if they are none.** -/
theorem getKeywordCode_iff (words : List (Bytes × CInt)) (z : Bytes) (n : CInt) (fuel : Nat)
    (hf : tables₀.sqlTokens.length ≤ fuel) : ∃ t t' code, calls fuel tables₀ words = some t ∧
      getKeywordCode fuel t z n = some (t', code) ∧
      ∀ c, code = c ↔ (∃ kw ∈ sqlTokensTable, kw.2 = c ∧ IsWord z n kw.1) ∨
        c = .id ∧ ∀ kw ∈ sqlTokensTable, ¬IsWord z n kw.1 := by
  obtain ⟨t, hcalls, hready⟩ := calls_ready (.inl rfl) words hf
  obtain ⟨t', hcall, -⟩ := getKeywordCode_eq hready z n hf
  exact ⟨t, t', _, hcalls, hcall, codeOf_lookup z n⟩

theorem getKeywordCode_iff_select : ∃ t t' code, calls 100 tables₀ [(ascii "GROUP", 5)] = some t ∧
    getKeywordCode 100 t (ascii "Select*") 6 = some (t', code) ∧
    ∀ c, code = c ↔ (∃ kw ∈ sqlTokensTable, kw.2 = c ∧ IsWord (ascii "Select*") 6 kw.1) ∨
      c = .id ∧ ∀ kw ∈ sqlTokensTable, ¬IsWord (ascii "Select*") 6 kw.1 :=
  getKeywordCode_iff _ _ _ _ tables₀_small.1.le

/-- The scanner's look at the chain is such a call. -/
theorem getKeywordCode_refines {t : Tables} (h : Ready t) {z : Bytes} {n : Nat} (hn : n < 2 ^ 31)
    (hle : n ≤ z.length) (hz : 0 ∉ z.take n) {fuel : Nat} (hf : tables₀.sqlTokens.length ≤ fuel) :
    ∃ t', getKeywordCode fuel t z (BitVec.ofNat 32 n) = some (t', Parse.getKeywordCode z n) := by
  obtain ⟨t', hcall, -⟩ := getKeywordCode_eq h z (BitVec.ofNat 32 n) hf
  have hnat : (BitVec.ofNat 32 n).toNat = n := by
    rw [BitVec.toNat_ofNat]
    omega
  have hword : ∀ kw : String × Tk, IsWord z (BitVec.ofNat 32 n) kw.1 ↔ fold (ascii kw.1) = fold (z.take n) := by
    intro kw
    rw [IsWord, BitVec.toInt_eq_toNat_of_lt (by omega), hnat, eq_comm (a := fold (ascii kw.1))]
    refine and_iff_right_of_imp fun hfold => ?_
    have hlen := congrArg List.length hfold
    rw [fold, fold, List.length_map, List.length_map, List.length_take] at hlen
    omega
  have hcode : codeOf (lookup z (BitVec.ofNat 32 n)) = Parse.getKeywordCode z n := by
    rw [codeOf_lookup, Parse.getKeywordCode_eq hle hz]
    simp only [hword]
    cases hfind : sqlTokensTable.find? fun p => fold (ascii p.1) = fold (z.take n) with
    | some p => exact .inl ⟨p, List.mem_of_find?_eq_some hfind, rfl, by simpa using List.find?_some hfind⟩
    | none => exact .inr ⟨rfl, fun kw hkw => by simpa using List.find?_eq_none.1 hfind kw hkw⟩
  rw [hcall, hcode]
  exact ⟨t', rfl⟩

end Dbsql.L5.Parse.Keywords
