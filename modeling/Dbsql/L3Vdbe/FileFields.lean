import Dbsql.L3Vdbe.FileLines
/-!
# The fields of a line (vdbe.c:4287-4342)

`OP_FileRead` cuts the line in `zLine` into fields in place: `azField` gets a pointer to the start of
each field, and a field without its escapes is not longer than it was.

Two pointers are left wrong. A line that ends in a field of some text has set no pointer behind that
field, and the loop that sets the others to 0 starts one too late. A NULL field at the end of the line
moves on by the length of a delimiter that is not there, and what is then read are the bytes behind
the line.

Results:
* `copyLoop_text`: the inner loop puts the field without its escapes in its place.
* `splitLine_iff`: exactly when every field is the text of the line that it should be.
-/
namespace Dbsql.L3
open Dbsql.Core Dbsql.L1

namespace FileRead

/-! ## The code -/

/-- An entry of `azField`: 0, byte `k` of `zLine`, or what an earlier line or the allocator left. -/
inductive Ptr
  | null
  | line (k : Nat)
  | old (a : Nat)
  deriving DecidableEq, Repr

/-- Byte `k` of `zLine`. -/
def byte (mem : Bytes) (k : Nat) : UInt8 := mem.getD k 0

/-- The C string at byte `k`. -/
def cstr (mem : Bytes) (k : Nat) : Bytes := (mem.drop k).takeWhile (· ≠ 0)

/-- What stands for a byte behind a backslash. -/
def escape (tx : UInt8) : UInt8 :=
  if tx = 98 then 8
  else if tx = 102 then 12
  else if tx = 110 then 10
  else if tx = 114 then 13
  else if tx = 116 then 9
  else if tx = 118 then 11
  else tx

/-- The field is `\N`. -/
def isNull (delim mem : Bytes) (z : Nat) : Bool :=
  byte mem z = backslash && byte mem (z + 1) = 78 &&
    (byte mem (z + 2) = 0 || delim.isPrefixOf (mem.drop (z + 2)))

theorem lt_length_of_byte {mem : Bytes} {k : Nat} (h : byte mem k ≠ 0) : k < mem.length := by
  by_contra hk
  exact h (by simp [byte, not_lt.1 hk])

/-- The inner loop (vdbe.c:4308-4329) for the field at `z`: `zLine`, `from` and `to` after it. -/
def copyLoop (delim : Bytes) (z : Nat) (mem : Bytes) (src dst : Nat) : Bytes × Nat × Nat :=
  if byte mem (z + src) = 0 then (mem, src, dst)
  else if byte mem (z + src) = backslash ∧ byte mem (z + src + 1) ≠ 0 then
    copyLoop delim z (mem.set (z + dst) (escape (byte mem (z + src + 1)))) (src + 2) (dst + 1)
  else if byte mem (z + src) = delim.headD 0 ∧ delim.isPrefixOf (mem.drop (z + src)) then (mem, src, dst)
  else copyLoop delim z (mem.set (z + dst) (byte mem (z + src))) (src + 1) (dst + 1)
termination_by mem.length - (z + src)
decreasing_by
  all_goals
    have := lt_length_of_byte ‹¬byte mem (z + src) = 0›
    rw [List.length_set]
    omega

/-- The pointer to the next field, where one more is wanted (vdbe.c:4304, 4333). -/
def pointTo (nField i z : Nat) (az : List Ptr) : List Ptr := if i < nField then az.set i (.line z) else az

/-- The outer loop (vdbe.c:4296-4338): `i`, `zLine` and `azField` after it. -/
def splitLoop (delim : Bytes) (nField i z : Nat) (mem : Bytes) (az : List Ptr) : Nat × Bytes × List Ptr :=
  if byte mem z = 0 ∨ nField < i then (i, mem, az)
  else if isNull delim mem z then
    splitLoop delim nField (i + 1) (z + (2 + delim.length)) mem
      (pointTo nField i (z + (2 + delim.length)) (az.set (i - 1) .null))
  else
    let r := copyLoop delim z mem 0 0
    if byte r.1 (z + r.2.1) = 0 then (i + 1, r.1.set (z + r.2.2) 0, az)
    else splitLoop delim nField (i + 1) (z + (r.2.1 + delim.length)) (r.1.set (z + r.2.2) 0)
      (pointTo nField i (z + (r.2.1 + delim.length)) az)
termination_by nField + 1 - i
decreasing_by all_goals omega

/-- The loop at the end (vdbe.c:4339-4341). -/
def nullFrom (i : Nat) (az : List Ptr) : List Ptr := az.mapIdx fun k p => if i ≤ k then .null else p

/-- The splitting of the line at the start of `zLine` into `azField`, which has an entry for each of
the `nField` fields. -/
def splitLine (delim mem : Bytes) (az : List Ptr) : Bytes × List Ptr :=
  let r := splitLoop delim az.length 1 0 mem (az.set 0 (.line 0))
  (r.2.1, nullFrom r.1 r.2.2)

/-! ## The fields of a text -/

/-- The text of the first field, up to the first delimiter that is not escaped, and the text behind
that delimiter. -/
def cutField (delim : Bytes) : Bytes → Bytes × Option Bytes
  | [] => ([], none)
  | [c] => if delim = [c] then ([], some []) else ([c], none)
  | c :: d :: z =>
    if c = backslash then (c :: d :: (cutField delim z).1, (cutField delim z).2)
    else if delim.isPrefixOf (c :: d :: z) then ([], some ((c :: d :: z).drop delim.length))
    else (c :: (cutField delim (d :: z)).1, (cutField delim (d :: z)).2)

/-- The text without its escapes. -/
def decode : Bytes → Bytes
  | [] => []
  | [c] => [c]
  | c :: d :: z => if c = backslash then escape d :: decode z else c :: decode (d :: z)

def nullMark : Bytes := [backslash, 78]

/-- The value of a field, with none for NULL. -/
def fieldValue (raw : Bytes) : Option Bytes := if raw = nullMark then none else some (decode raw)

/-- The value of field `k` of the text; a field that is not there is NULL. -/
def fieldAt (delim text : Bytes) : Nat → Option Bytes
  | 0 => fieldValue (cutField delim text).1
  | k + 1 => (cutField delim text).2.bind fun rest => fieldAt delim rest k

/-- What `OP_FileColumn` finds at the pointer is the value, and it is part of the first `n` bytes. -/
def FieldOk (mem : Bytes) (n : Nat) : Option Ptr → Option Bytes → Prop
  | some .null, none => True
  | some (.line k), some z => cstr mem k = z ∧ k + z.length ≤ n
  | _, _ => False

/-- `j` times a NULL field, each with the delimiter that stands or does not stand behind it. -/
def NullFields (delim : Bytes) : Nat → Bytes → Prop
  | 0, _ => True
  | j + 1, z => isNull delim z 0 ∧ NullFields delim j (z.drop (2 + delim.length))

/-- The fields that `text` should have are found, where `old` is what `azField` has behind the pointer to
its first and `stale` what `zLine` has behind the line. -/
def Splittable (delim stale : Bytes) : List Ptr → Bytes → Prop
  | [], text => nullMark ++ delim <+: text → (cutField delim text).1 = nullMark
  | p :: old, text =>
    (nullMark ++ delim <+: text → (cutField delim text).1 = nullMark) ∧
      match (cutField delim text).2 with
      | some rest => Splittable delim stale old rest
      | none =>
        text = [] ∨
          if text = nullMark then NullFields delim (old.length + 1) (stale.drop (delim.length - 1))
          else p = .null

/-! ## Bytes of the buffer -/

theorem byte_eq {mem p z : Bytes} {c : UInt8} {k : Nat} (hm : mem = p ++ c :: z) (hk : k = p.length) :
    byte mem k = c := by
  subst hm hk
  simp [byte]

theorem byte_append {mem p z : Bytes} {k : Nat} (hm : mem = p ++ z) (hk : k = p.length) (j : Nat) :
    byte mem (k + j) = byte z j := by
  subst hm hk
  simp [byte, List.getD_eq_getElem?_getD, List.getElem?_append_right]

theorem drop_eq {mem p z : Bytes} {k : Nat} (hm : mem = p ++ z) (hk : k = p.length) : mem.drop k = z := by
  subst hm hk
  simp

/-- One write in the middle. -/
theorem set_eq {mem p z : Bytes} {c e : UInt8} {k : Nat} (hm : mem = p ++ c :: z) (hk : k = p.length) :
    mem.set k e = p ++ e :: z := by
  subst hm hk
  simp

theorem cstr_eq {mem p z w : Bytes} {k : Nat} (hm : mem = p ++ (z ++ 0 :: w)) (hk : k = p.length)
    (h0 : 0 ∉ z) : cstr mem k = z := by
  rw [cstr, drop_eq hm hk, List.takeWhile_append_of_pos fun c hc => by simpa using ne_of_mem_of_not_mem hc h0]
  simp

/-- A text without NUL stops before the terminator. -/
theorem prefix_append_zero {delim z w : Bytes} (h0 : 0 ∉ delim) : delim <+: z ++ 0 :: w ↔ delim <+: z := by
  refine ⟨fun h => ?_, fun h => h.trans (List.prefix_append _ _)⟩
  induction z generalizing delim with
  | nil =>
    rcases delim with _ | ⟨c, delim⟩
    · exact List.nil_prefix
    · have hc := (List.cons_prefix_cons.1 h).1
      simp [hc] at h0
  | cons d z ih =>
    rcases delim with _ | ⟨c, delim⟩
    · exact List.nil_prefix
    · rw [List.cons_append] at h
      obtain ⟨rfl, ht⟩ := List.cons_prefix_cons.1 h
      exact List.cons_prefix_cons.2 ⟨rfl, ih (fun e => h0 (List.mem_cons_of_mem _ e)) ht⟩

/-- One write at the start of the gap, when a byte behind it has been read. -/
theorem set_shift {mem p gap y : Bytes} {c : UInt8} {k : Nat} (hm : mem = p ++ (gap ++ c :: y))
    (hk : k = p.length) (e : UInt8) :
    ∃ gap', mem.set k e = (p ++ [e]) ++ (gap' ++ y) ∧ gap'.length = gap.length := by
  rcases gap with _ | ⟨g, gap⟩
  · exact ⟨[], by rw [hm, List.nil_append, set_eq rfl hk]; simp, rfl⟩
  · exact ⟨gap ++ [c], by rw [hm, List.cons_append, set_eq rfl hk]; simp, by simp⟩

/-! ## The inner loop -/

theorem decode_cons {c : UInt8} (hc : c ≠ backslash) (z : Bytes) : decode (c :: z) = c :: decode z := by
  cases z <;> simp [decode, hc]

theorem escape_ne_zero {c : UInt8} (hc : c ≠ 0) : escape c ≠ 0 := by
  unfold escape
  split_ifs <;> first | decide | exact hc

theorem zero_notMem_decode {z : Bytes} (h : 0 ∉ z) : 0 ∉ decode z := by
  fun_induction decode z with
  | case1 => exact h
  | case2 => exact h
  | case3 d z ih =>
    simp only [List.mem_cons, not_or] at h ⊢
    exact ⟨(escape_ne_zero (Ne.symm h.2.1)).symm, ih h.2.2⟩
  | case4 c d z hc ih =>
    simp only [List.mem_cons, not_or] at h ⊢
    exact ⟨h.1, ih (by simpa using h.2)⟩

/-- The delimiter at a place of the line. -/
theorem delim_at {delim mem p z w : Bytes} {k : Nat} (hd : delim ≠ []) (hd0 : 0 ∉ delim)
    (hm : mem = p ++ (z ++ 0 :: w)) (hk : k = p.length) :
    (byte mem k = delim.headD 0 ∧ delim.isPrefixOf (mem.drop k) = true) ↔ delim <+: z := by
  obtain ⟨d, ds, rfl⟩ := List.exists_cons_of_ne_nil hd
  rw [drop_eq hm hk, List.isPrefixOf_iff_prefix, prefix_append_zero hd0, List.headD_cons]
  refine ⟨fun h => h.2, fun h => ⟨?_, h⟩⟩
  obtain ⟨y, rfl⟩ := h
  exact byte_eq hm hk

theorem copyLoop_stop {delim mem p w : Bytes} {z src dst : Nat} (hm : mem = p ++ 0 :: w)
    (hz : z + src = p.length) : copyLoop delim z mem src dst = (mem, src, dst) := by
  rw [copyLoop, byte_eq hm hz]
  rfl

/-- A delimiter ends the field. -/
theorem copyLoop_delim {delim mem p y w : Bytes} {c : UInt8} {z src dst : Nat} (hd : delim ≠ [])
    (hd0 : 0 ∉ delim) (hm : mem = p ++ (c :: y ++ 0 :: w)) (hz : z + src = p.length) (h0 : 0 ∉ c :: y)
    (hp : delim <+: c :: y) (hc : c = backslash → y = []) :
    copyLoop delim z mem src dst = (mem, src, dst) := by
  have hbyte : byte mem (z + src) = c := byte_eq hm hz
  have hnext : ¬(byte mem (z + src) = backslash ∧ byte mem (z + src + 1) ≠ 0) := by
    rintro ⟨hb, hn⟩
    obtain rfl := hc (hbyte ▸ hb)
    exact hn (by rw [byte_append hm hz]; rfl)
  rw [copyLoop, if_neg (by rw [hbyte]; rintro rfl; simp at h0), if_neg hnext,
    if_pos ((delim_at hd hd0 hm hz).2 hp)]

/-- A byte for itself. -/
theorem copyLoop_char {delim mem p y w : Bytes} {c : UInt8} {z src dst : Nat} (hd : delim ≠ [])
    (hd0 : 0 ∉ delim) (hm : mem = p ++ (c :: y ++ 0 :: w)) (hz : z + src = p.length) (h0 : 0 ∉ c :: y)
    (hp : ¬delim <+: c :: y) (hc : c = backslash → y = []) :
    copyLoop delim z mem src dst = copyLoop delim z (mem.set (z + dst) c) (src + 1) (dst + 1) := by
  have hbyte : byte mem (z + src) = c := byte_eq hm hz
  have hnext : ¬(byte mem (z + src) = backslash ∧ byte mem (z + src + 1) ≠ 0) := by
    rintro ⟨hb, hn⟩
    obtain rfl := hc (hbyte ▸ hb)
    exact hn (by rw [byte_append hm hz]; rfl)
  rw [copyLoop, if_neg (by rw [hbyte]; rintro rfl; simp at h0), if_neg hnext,
    if_neg fun e => hp ((delim_at hd hd0 hm hz).1 e), hbyte]

/-- A pair for what it stands for. -/
theorem copyLoop_pair {delim mem p w : Bytes} {d : UInt8} {z src dst : Nat}
    (hm : mem = p ++ backslash :: d :: w) (hz : z + src = p.length) (hd : d ≠ 0) :
    copyLoop delim z mem src dst = copyLoop delim z (mem.set (z + dst) (escape d)) (src + 2) (dst + 1) := by
  have hbyte : byte mem (z + src) = backslash := byte_eq hm hz
  have hnext : byte mem (z + src + 1) = d := by
    rw [byte_append hm hz]
    rfl
  rw [copyLoop, if_neg (by rw [hbyte]; decide), if_pos ⟨hbyte, hnext ▸ hd⟩, hnext]

/-- The text of a field, without its escapes and moved to the start of what was read. -/
theorem copyLoop_text {delim : Bytes} (hd : delim ≠ []) (hd0 : 0 ∉ delim) {text : Bytes} (h0 : 0 ∉ text)
    {mem p gap w : Bytes} {z src dst : Nat} (hm : mem = p ++ (gap ++ (text ++ 0 :: w)))
    (hz : z + dst = p.length) (hs : src = dst + gap.length) :
    ∃ gap', copyLoop delim z mem src dst =
        (p ++ (decode (cutField delim text).1 ++
            (gap' ++ (text.drop (cutField delim text).1.length ++ 0 :: w))),
          src + (cutField delim text).1.length, dst + (decode (cutField delim text).1).length) ∧
      gap'.length + (decode (cutField delim text).1).length =
        gap.length + (cutField delim text).1.length := by
  have hsrc : z + src = (p ++ gap).length := by
    rw [List.length_append]
    omega
  have hmem : mem = (p ++ gap) ++ (text ++ 0 :: w) := by rw [hm, List.append_assoc]
  fun_induction cutField delim text generalizing mem p gap src dst with
  | case1 => exact ⟨gap, by rw [copyLoop_stop hmem hsrc, hm]; rfl, rfl⟩
  | case2 c he =>
    refine ⟨gap, ?_, rfl⟩
    rw [copyLoop_delim hd hd0 hmem hsrc h0 (he ▸ List.prefix_rfl) fun _ => rfl, hm]
    rfl
  | case3 c hne =>
    have hp : ¬delim <+: [c] := by
      rw [List.prefix_cons_iff]
      rintro (rfl | ⟨t, rfl, ht⟩)
      · exact hd rfl
      · exact hne (by rw [List.prefix_nil.1 ht])
    rw [copyLoop_char hd hd0 hmem hsrc h0 hp fun _ => rfl]
    obtain ⟨gap', hset, hlen⟩ := set_shift hm hz c
    refine ⟨gap', ?_, by simp [decode, hlen]⟩
    rw [hset, copyLoop_stop (p := p ++ [c] ++ gap') (w := w) (by simp) (by simp; omega)]
    simp [decode]
  | case4 d y ih =>
    simp only [List.mem_cons, not_or] at h0
    rw [copyLoop_pair hmem hsrc (Ne.symm h0.2.1)]
    have hpair : mem = p ++ ((gap ++ [backslash]) ++ d :: (y ++ 0 :: w)) := by simpa using hm
    obtain ⟨gap', hset, hlen⟩ := set_shift hpair hz (escape d)
    rw [List.length_append, List.length_singleton] at hlen
    have hz' : z + (dst + 1) = (p ++ [escape d]).length := by simp; omega
    have hsrc' : z + (src + 2) = (p ++ [escape d] ++ gap').length := by simp; omega
    obtain ⟨gap'', hcopy, hlen'⟩ := ih h0.2.2 hset hz' (by omega) hsrc' (by rw [hset]; simp)
    refine ⟨gap'', ?_, by simp [decode]; omega⟩
    rw [hcopy]
    simp [decode]
    omega
  | case5 c d y hc hp =>
    refine ⟨gap, ?_, rfl⟩
    rw [copyLoop_delim hd hd0 hmem hsrc h0 (List.isPrefixOf_iff_prefix.1 hp) fun e => absurd e hc, hm]
    rfl
  | case6 c d y hc hp ih =>
    rw [copyLoop_char hd hd0 hmem hsrc h0 (fun e => hp (List.isPrefixOf_iff_prefix.2 e)) fun e => absurd e hc]
    obtain ⟨gap', hset, hlen⟩ := set_shift hm hz c
    have hz' : z + (dst + 1) = (p ++ [c]).length := by simp; omega
    have hsrc' : z + (src + 1) = (p ++ [c] ++ gap').length := by simp; omega
    obtain ⟨gap'', hcopy, hlen'⟩ := ih (fun e => h0 (List.mem_cons_of_mem _ e)) hset hz' (by omega) hsrc'
      (by rw [hset]; simp)
    refine ⟨gap'', ?_, by simp [decode_cons hc]; omega⟩
    rw [hcopy]
    simp [decode_cons hc]
    omega

theorem copyLoop_take (delim : Bytes) (z : Nat) (mem : Bytes) (src dst : Nat) :
    (copyLoop delim z mem src dst).1.take z = mem.take z := by
  fun_induction copyLoop delim z mem src dst with
  | case1 => rfl
  | case2 mem src dst h0 hb ih => rw [ih, List.take_set_of_le (by omega)]
  | case3 => rfl
  | case4 mem src dst h0 hb hd ih => rw [ih, List.take_set_of_le (by omega)]

/-! ## The fields of a text -/

theorem cutField_none {delim text : Bytes} (h : (cutField delim text).2 = none) :
    (cutField delim text).1 = text := by
  fun_induction cutField delim text with
  | case1 => rfl
  | case2 => cases h
  | case3 => rfl
  | case4 d z ih => rw [ih h]
  | case5 => cases h
  | case6 c d z hc hp ih => rw [ih h]

theorem cutField_some {delim text rest : Bytes} (h : (cutField delim text).2 = some rest) :
    text = (cutField delim text).1 ++ (delim ++ rest) := by
  fun_induction cutField delim text with
  | case1 => cases h
  | case2 c hd =>
    obtain rfl := Option.some.inj h
    simp [hd]
  | case3 => cases h
  | case4 d z ih => simpa using ih h
  | case5 c d z hc hp =>
    obtain rfl := Option.some.inj h
    obtain ⟨y, hy⟩ := List.isPrefixOf_iff_prefix.1 hp
    simp [← hy]
  | case6 c d z hc hp ih => simpa using ih h

/-- A field that starts with the mark, up to a delimiter or the end. -/
theorem isNull_iff {delim mem p text w : Bytes} {z : Nat} (hd0 : 0 ∉ delim) (h0 : 0 ∉ text)
    (hm : mem = p ++ (text ++ 0 :: w)) (hz : z = p.length) :
    isNull delim mem z = true ↔ text = nullMark ∨ nullMark ++ delim <+: text := by
  have hb : ∀ j, byte mem (z + j) = byte (text ++ 0 :: w) j := byte_append hm hz
  have hdrop : mem.drop (z + 2) = (text ++ 0 :: w).drop 2 := by
    rw [← List.drop_drop, drop_eq hm hz]
  rw [isNull, show byte mem z = byte (text ++ 0 :: w) 0 from hb 0, hb 1, hb 2, hdrop]
  rcases text with _ | ⟨c, _ | ⟨d, text⟩⟩
  · simp [byte, nullMark, Ne.symm backslash_ne_zero]
  · simp [byte, nullMark]
  · have hnul : byte (c :: d :: text ++ 0 :: w) 2 = 0 ↔ text = [] := by
      rcases text with _ | ⟨e, text⟩
      · simp [byte]
      · simp only [List.mem_cons, not_or] at h0
        simpa [byte] using Ne.symm h0.2.2.1
    simp only [Bool.and_eq_true, Bool.or_eq_true, decide_eq_true_eq, hnul, List.isPrefixOf_iff_prefix]
    simp only [byte, List.cons_append, List.getD_cons_zero, List.getD_cons_succ, List.drop_succ_cons,
      List.drop_zero, prefix_append_zero hd0, nullMark, List.cons.injEq, List.nil_append,
      List.cons_prefix_cons]
    grind

theorem isNull_drop (delim mem : Bytes) (z : Nat) : isNull delim (mem.drop z) 0 = isNull delim mem z := by
  simp [isNull, byte, List.getD_eq_getElem?_getD, List.getElem?_drop]

/-! ## The outer loop -/

theorem take_eq {y y' : Bytes} {z k : Nat} (hk : z ≤ k) (h : y.take k = y'.take k) : y.take z = y'.take z := by
  simpa [List.take_take, min_eq_left hk] using congrArg (List.take z) h

theorem exists_append_of_take {y q : Bytes} {k : Nat} (h : y.take k = q) : ∃ m, y = q ++ m :=
  ⟨y.drop k, by rw [← h, List.take_append_drop]⟩

theorem splitLoop_take (delim : Bytes) (nField i z : Nat) (mem : Bytes) (az : List Ptr) :
    (splitLoop delim nField i z mem az).2.1.take z = mem.take z := by
  fun_induction splitLoop delim nField i z mem az with
  | case1 => rfl
  | case2 i z mem az h hn ih => exact take_eq (by omega) ih
  | case3 i z mem az h hn r he => rw [List.take_set_of_le (by omega), copyLoop_take]
  | case4 i z mem az h hn r he ih =>
    rw [take_eq (by omega) ih, List.take_set_of_le (by omega), copyLoop_take]

theorem drop_pointTo (nField i z : Nat) (az : List Ptr) : (pointTo nField i z az).drop (i + 1) = az.drop (i + 1) := by
  unfold pointTo
  split
  · exact List.drop_set_of_lt (by omega)
  · rfl

theorem length_pointTo (nField i z : Nat) (az : List Ptr) : (pointTo nField i z az).length = az.length := by
  unfold pointTo
  split <;> simp

theorem pointTo_passed {nField i z j : Nat} (az : List Ptr) (hj : j < i) :
    (pointTo nField i z az)[j]? = az[j]? := by
  unfold pointTo
  split
  · exact List.getElem?_set_ne (by omega)
  · rfl

theorem pointTo_get {nField i z : Nat} {az : List Ptr} (hlen : az.length = nField) (hi : i < nField) :
    (pointTo nField i z az)[i]? = some (.line z) := by
  rw [pointTo, if_pos hi, List.getElem?_set_self (by omega)]

theorem splitLoop_frame (delim : Bytes) (nField i z : Nat) (mem : Bytes) (az : List Ptr) :
    i ≤ (splitLoop delim nField i z mem az).1 ∧
      (splitLoop delim nField i z mem az).2.2.length = az.length ∧
      ∀ j, j + 1 < i → (splitLoop delim nField i z mem az).2.2[j]? = az[j]? := by
  fun_induction splitLoop delim nField i z mem az with
  | case1 => exact ⟨le_rfl, rfl, fun _ _ => rfl⟩
  | case2 i z mem az h hn ih =>
    obtain ⟨hi, hlen, hj⟩ := ih
    refine ⟨by omega, by rw [hlen, length_pointTo, List.length_set], fun j hlt => ?_⟩
    rw [hj j (by omega), pointTo_passed _ (by omega), List.getElem?_set_ne (by omega)]
  | case3 => exact ⟨by omega, rfl, fun _ _ => rfl⟩
  | case4 i z mem az h hn r he ih =>
    obtain ⟨hi, hlen, hj⟩ := ih
    refine ⟨by omega, by rw [hlen, length_pointTo], fun j hlt => ?_⟩
    rw [hj j (by omega), pointTo_passed _ (by omega)]

theorem nullFrom_get (i : Nat) (az : List Ptr) (j : Nat) :
    (nullFrom i az)[j]? = az[j]?.map fun p => if i ≤ j then .null else p := by
  simp [nullFrom]

theorem nullFrom_passed {i j : Nat} (az : List Ptr) (h : j < i) : (nullFrom i az)[j]? = az[j]? := by
  rw [nullFrom_get]
  cases az[j]? with
  | none => rfl
  | some p => rw [Option.map_some, if_neg (by omega)]

/-- What `azField` has for a field that was passed stays. -/
theorem splitLoop_passed {delim : Bytes} {nField i z : Nat} {mem : Bytes} {az : List Ptr} {j : Nat}
    (hj : j + 1 < i) :
    (nullFrom (splitLoop delim nField i z mem az).1 (splitLoop delim nField i z mem az).2.2)[j]? = az[j]? := by
  obtain ⟨hi, -, hget⟩ := splitLoop_frame delim nField i z mem az
  rw [nullFrom_passed _ (by omega), hget j hj]

section Steps
variable {delim mem : Bytes} {nField k z : Nat} {az : List Ptr}

theorem splitLoop_nul (h : byte mem z = 0) : splitLoop delim nField k z mem az = (k, mem, az) := by
  rw [splitLoop, if_pos (.inl h)]

theorem byte_of_isNull (h : isNull delim mem z = true) : byte mem z ≠ 0 := by
  simp only [isNull, Bool.and_eq_true, decide_eq_true_eq] at h
  rw [h.1.1]
  decide

/-- A NULL field. -/
theorem splitLoop_null (hk : k < nField) (h : isNull delim mem z = true) :
    splitLoop delim nField (k + 1) z mem az =
      splitLoop delim nField (k + 2) (z + (2 + delim.length)) mem
        (pointTo nField (k + 1) (z + (2 + delim.length)) (az.set k .null)) := by
  rw [splitLoop, if_neg (by simp only [byte_of_isNull h, false_or]; omega), if_pos h]
  rfl

/-- The pointer to a field that is not NULL stays. -/
theorem splitLoop_kept (h : isNull delim mem z ≠ true) :
    (nullFrom (splitLoop delim nField (k + 1) z mem az).1
      (splitLoop delim nField (k + 1) z mem az).2.2)[k]? = az[k]? := by
  rw [splitLoop]
  split
  · exact nullFrom_passed _ (by omega)
  dsimp only
  split
  · exact nullFrom_passed _ (by omega)
  · rw [splitLoop_passed (by omega), pointTo_passed _ (by omega)]

section Text
variable {p text w : Bytes} (hd : delim ≠ []) (hd0 : 0 ∉ delim) (h0 : 0 ∉ text) (hk : k < nField)
  (hm : mem = p ++ (text ++ 0 :: w)) (hz : z = p.length) (ht : text ≠ [])
  (hnull : isNull delim mem z ≠ true)
include hd hd0 h0 hk hm hz ht hnull

/-- The line ends with the field. -/
theorem splitLoop_last (az : List Ptr) (hc : (cutField delim text).2 = none) :
    ∃ m, splitLoop delim nField (k + 1) z mem az = (k + 2, p ++ (decode text ++ 0 :: m), az) := by
  have hstart : mem = p ++ ([] ++ (text ++ 0 :: w)) := hm
  obtain ⟨gap, hcopy, hlen⟩ := copyLoop_text hd hd0 h0 hstart (show z + 0 = p.length from hz)
    (rfl : 0 = 0 + 0)
  simp only [cutField_none hc, List.drop_length, List.nil_append, List.length_nil, Nat.zero_add] at hcopy hlen
  have hb : byte mem z ≠ 0 := by
    obtain ⟨c, y, rfl⟩ := List.exists_cons_of_ne_nil ht
    rw [byte_eq hm hz]
    rintro rfl
    simp at h0
  have hend : byte (p ++ (decode text ++ (gap ++ 0 :: w))) (z + text.length) = 0 :=
    byte_eq (p := p ++ (decode text ++ gap)) (z := w) (by simp) (by simp; omega)
  obtain ⟨c, m, hcm⟩ : ∃ c m, gap ++ 0 :: w = c :: m := List.exists_cons_of_ne_nil (by simp)
  rw [splitLoop, if_neg (by simp only [hb, false_or]; omega), if_neg hnull, hcopy]
  dsimp only
  rw [if_pos hend, hcm]
  have hset : (p ++ (decode text ++ c :: m)).set (z + (decode text).length) 0 = p ++ decode text ++ 0 :: m :=
    set_eq (c := c) (by simp) (by simp [hz])
  exact ⟨m, by rw [hset, List.append_assoc]⟩

/-- Another field follows. -/
theorem splitLoop_text (az : List Ptr) {rest : Bytes} (hc : (cutField delim text).2 = some rest) :
    ∃ g, z + ((cutField delim text).1.length + delim.length) =
        (p ++ (decode (cutField delim text).1 ++ 0 :: g)).length ∧
      splitLoop delim nField (k + 1) z mem az =
        splitLoop delim nField (k + 2) (z + ((cutField delim text).1.length + delim.length))
          (p ++ (decode (cutField delim text).1 ++ 0 :: g) ++ (rest ++ 0 :: w))
          (pointTo nField (k + 1) (z + ((cutField delim text).1.length + delim.length)) az) := by
  have hstart : mem = p ++ ([] ++ (text ++ 0 :: w)) := hm
  obtain ⟨gap, hcopy, hlen⟩ := copyLoop_text hd hd0 h0 hstart (show z + 0 = p.length from hz)
    (rfl : 0 = 0 + 0)
  have hdrop : text.drop (cutField delim text).1.length = delim ++ rest := drop_eq (cutField_some hc) rfl
  simp only [hdrop, List.length_nil, Nat.zero_add] at hcopy hlen
  have hb : byte mem z ≠ 0 := by
    obtain ⟨c, y, rfl⟩ := List.exists_cons_of_ne_nil ht
    rw [byte_eq hm hz]
    rintro rfl
    simp at h0
  generalize cutField delim text = r at *
  obtain ⟨d, ds, rfl⟩ := List.exists_cons_of_ne_nil hd
  have hend : byte (p ++ (decode r.1 ++ (gap ++ (d :: ds ++ rest ++ 0 :: w)))) (z + r.1.length) = d :=
    byte_eq (p := p ++ (decode r.1 ++ gap)) (z := ds ++ rest ++ 0 :: w) (by simp) (by simp; omega)
  obtain ⟨c, g, hcg⟩ : ∃ c g, gap ++ d :: ds = c :: g := List.exists_cons_of_ne_nil (by simp)
  have hglen := congrArg List.length hcg
  have hset : (p ++ (decode r.1 ++ (gap ++ (d :: ds ++ rest ++ 0 :: w)))).set (z + (decode r.1).length) 0 =
      p ++ decode r.1 ++ 0 :: (g ++ (rest ++ 0 :: w)) := by
    refine set_eq (c := c) ?_ (by simp [hz])
    rw [← List.cons_append, ← hcg]
    simp
  refine ⟨g, ?_, ?_⟩
  · simp only [List.length_append, List.length_cons] at hglen ⊢
    omega
  · rw [splitLoop, if_neg (by simp only [hb, false_or]; omega), if_neg hnull, hcopy]
    dsimp only
    rw [hend, if_neg (by rintro rfl; simp at hd0), hset]
    simp

end Text

end Steps

/-- Behind the line: every field is NULL exactly when there are as many marks. -/
theorem splitLoop_stale (delim mem : Bytes) {nField : Nat} (n : Nat) {k z : Nat} (az : List Ptr)
    (hn : nField = k + n) (hlen : az.length = nField) (hat : k < nField → az[k]? = some (.line z)) :
    (∀ j, k ≤ j → j < nField → (nullFrom (splitLoop delim nField (k + 1) z mem az).1
        (splitLoop delim nField (k + 1) z mem az).2.2)[j]? = some .null) ↔
      NullFields delim n (mem.drop z) := by
  induction n generalizing k z az with
  | zero => exact iff_of_true (fun j _ _ => by omega) trivial
  | succ n ih =>
    rw [NullFields, isNull_drop]
    by_cases h : isNull delim mem z = true
    · have hset : (az.set k .null).length = nField := by rw [List.length_set, hlen]
      rw [splitLoop_null (by omega) h, List.drop_drop,
        ← ih (pointTo nField (k + 1) (z + (2 + delim.length)) (az.set k .null)) (by omega)
          (by rw [length_pointTo, hset]) (pointTo_get hset)]
      refine ⟨fun e => ⟨h, fun j hk hj => e j (by omega) hj⟩, fun e j hk hj => ?_⟩
      rcases eq_or_lt_of_le hk with rfl | hk
      · rw [splitLoop_passed (by omega), pointTo_passed _ (by omega), List.getElem?_set_self (by omega)]
      · exact e.2 j hk hj
    · refine iff_of_false (fun e => ?_) fun e => h e.1
      have hk := e k le_rfl (by omega)
      rw [splitLoop_kept h, hat (by omega)] at hk
      cases hk

/-! ## The line -/

theorem decode_length (z : Bytes) : (decode z).length ≤ z.length := by
  fun_induction decode z with
  | case1 => simp
  | case2 => simp
  | case3 d z ih => simp; omega
  | case4 c d z hc ih => simpa using ih

theorem cutField_length (delim text : Bytes) : (cutField delim text).1.length ≤ text.length := by
  cases h : (cutField delim text).2 with
  | none => rw [cutField_none h]
  | some rest =>
    have := congrArg List.length (cutField_some h)
    rw [List.length_append] at this
    omega

theorem zero_notMem_cutField (delim : Bytes) {text : Bytes} (h0 : 0 ∉ text) : 0 ∉ (cutField delim text).1 := by
  cases h : (cutField delim text).2 with
  | none => rwa [cutField_none h]
  | some rest =>
    rw [cutField_some h] at h0
    exact fun e => h0 (List.mem_append_left _ e)

theorem cutField_nullMark (delim : Bytes) : cutField delim nullMark = (nullMark, none) := rfl

/-- A field of the mark alone. -/
theorem isNull_of_cutField {delim text : Bytes} (h : (cutField delim text).1 = nullMark) :
    text = nullMark ∨ nullMark ++ delim <+: text := by
  cases hc : (cutField delim text).2 with
  | none => exact .inl (cutField_none hc ▸ h)
  | some rest =>
    refine .inr ⟨rest, ?_⟩
    rw [cutField_some hc, h, List.append_assoc]

section Line
variable {delim mem p text w : Bytes} {nField k z : Nat} {az : List Ptr} (hd : delim ≠ []) (hd0 : 0 ∉ delim)
  (h0 : 0 ∉ text) (hk : k < nField) (hm : mem = p ++ (text ++ 0 :: w)) (hz : z = p.length)
include hd hd0 h0 hk hm hz

/-- The text of a first field that is not NULL. -/
theorem cstr_splitLoop (hnull : isNull delim mem z ≠ true) :
    cstr (splitLoop delim nField (k + 1) z mem az).2.1 z = decode (cutField delim text).1 := by
  by_cases ht : text = []
  · subst ht
    rw [splitLoop_nul (byte_eq hm hz)]
    exact cstr_eq hm hz (by simp [cutField, decode])
  have hdec := zero_notMem_decode (zero_notMem_cutField delim h0)
  cases hc : (cutField delim text).2 with
  | none =>
    obtain ⟨m, hloop⟩ := splitLoop_last hd hd0 h0 hk hm hz ht hnull az hc
    rw [hloop, cutField_none hc]
    rw [cutField_none hc] at hdec
    exact cstr_eq rfl hz hdec
  | some rest =>
    obtain ⟨g, hg, hloop⟩ := splitLoop_text hd hd0 h0 hk hm hz ht hnull az hc
    rw [hloop]
    have htake := splitLoop_take delim nField (k + 2) (z + ((cutField delim text).1.length + delim.length))
      (p ++ (decode (cutField delim text).1 ++ 0 :: g) ++ (rest ++ 0 :: w))
      (pointTo nField (k + 1) (z + ((cutField delim text).1.length + delim.length)) az)
    rw [hg, List.take_left, ← hg] at htake
    obtain ⟨m, hmem⟩ := exists_append_of_take htake
    exact cstr_eq (w := g ++ m) (by rw [hmem]; simp) hz hdec

/-- The first field: it is right unless it starts with the mark and a delimiter that is part of it. -/
theorem splitLoop_first (hlen : az.length = nField) (hat : az[k]? = some (.line z)) :
    FieldOk (splitLoop delim nField (k + 1) z mem az).2.1 (p.length + text.length)
        (nullFrom (splitLoop delim nField (k + 1) z mem az).1
          (splitLoop delim nField (k + 1) z mem az).2.2)[k]? (fieldValue (cutField delim text).1) ↔
      (nullMark ++ delim <+: text → (cutField delim text).1 = nullMark) := by
  by_cases hnull : isNull delim mem z = true
  · have hset : (az.set k .null)[k]? = some .null := List.getElem?_set_self (by omega)
    rw [splitLoop_null hk hnull, splitLoop_passed (by omega), pointTo_passed _ (by omega), hset]
    have hor := (isNull_iff hd0 h0 hm hz).1 hnull
    by_cases hraw : (cutField delim text).1 = nullMark
    · simp [hraw, fieldValue, FieldOk]
    · have hp := hor.resolve_left fun e => hraw (by rw [e, cutField_nullMark])
      simp [hraw, hp, fieldValue, FieldOk]
  · have hraw : (cutField delim text).1 ≠ nullMark := fun e =>
      hnull ((isNull_iff hd0 h0 hm hz).2 (isNull_of_cutField e))
    have hp : ¬nullMark ++ delim <+: text := fun e => hnull ((isNull_iff hd0 h0 hm hz).2 (.inr e))
    rw [splitLoop_kept hnull, hat, fieldValue, if_neg hraw]
    refine iff_of_true ⟨?_, ?_⟩ fun e => absurd e hp
    · exact cstr_splitLoop hd hd0 h0 hk hm hz hnull
    · have := decode_length (cutField delim text).1
      have := cutField_length delim text
      omega

end Line

theorem forall_from {k n : Nat} (hk : k < n) (P : Nat → Prop) :
    (∀ j, k ≤ j → j < n → P j) ↔ P k ∧ ∀ j, k + 1 ≤ j → j < n → P j := by
  refine ⟨fun h => ⟨h k le_rfl hk, fun j hj hn => h j (by omega) hn⟩, fun h j hj hn => ?_⟩
  rcases eq_or_lt_of_le hj with rfl | hj
  · exact h.1
  · exact h.2 j hj hn

theorem fieldOk_none {mem : Bytes} {n : Nat} {x : Option Ptr} : FieldOk mem n x none ↔ x = some .null := by
  rcases x with _ | _ | _ | _ <;> simp [FieldOk]

/-- Behind a field that ends its line every field is NULL. -/
theorem fieldOk_behind {delim text mem : Bytes} {n j k : Nat} {x : Option Ptr}
    (hc : (cutField delim text).2 = none) (hj : k + 1 ≤ j) :
    FieldOk mem n x (fieldAt delim text (j - k)) ↔ x = some .null := by
  rw [show j - k = (j - (k + 1)) + 1 by omega, fieldAt, hc, Option.bind_none, fieldOk_none]

/-- Behind a mark that ends its line the loop goes on with what the line before has left. -/
theorem splitLoop_markEnd {delim w mem p : Bytes} {nField k z n : Nat} {az : List Ptr} (hd : delim ≠ [])
    (hn : nField = k + 1 + n) (hlen : az.length = nField) (hm : mem = p ++ (nullMark ++ 0 :: w))
    (hz : z = p.length) (hnull : isNull delim mem z = true) :
    (∀ j, k + 1 ≤ j → j < nField → (nullFrom (splitLoop delim nField (k + 1) z mem az).1
        (splitLoop delim nField (k + 1) z mem az).2.2)[j]? = some .null) ↔
      NullFields delim n (w.drop (delim.length - 1)) := by
  have hk : k < nField := by omega
  have hset : (az.set k .null).length = nField := by rw [List.length_set, hlen]
  have hend : mem.drop (z + 3) = w :=
    drop_eq (p := p ++ nullMark ++ [0]) (by rw [hm]; simp) (by simp [hz, nullMark])
  have hbehind : mem.drop (z + (2 + delim.length)) = w.drop (delim.length - 1) := by
    have := List.length_pos_iff.2 hd
    rw [show z + (2 + delim.length) = z + 3 + (delim.length - 1) by omega, ← List.drop_drop, hend]
  rw [splitLoop_null hk hnull, ← hbehind]
  exact splitLoop_stale delim mem n _ hn (by rw [length_pointTo, hset]) (pointTo_get hset)

/-- Behind the last field of a line only the pointer to the next one is kept. -/
theorem nullFrom_last {nField k : Nat} {az : List Ptr} (hlen : az.length = nField) (hk : k + 1 < nField) :
    (∀ j, k + 1 ≤ j → j < nField → (nullFrom (k + 2) az)[j]? = some .null) ↔
      az[k + 1]? = some .null := by
  rw [forall_from hk, nullFrom_passed _ (by omega)]
  refine and_iff_left fun j hj hn => ?_
  rw [nullFrom_get, List.getElem?_eq_getElem (by omega), Option.map_some, if_pos hj]

/-- The fields from one on. -/
theorem splitLoop_iff {delim w : Bytes} {nField : Nat} (hd : delim ≠ []) (hd0 : 0 ∉ delim) (old : List Ptr) :
    ∀ (mem p : Bytes) (az : List Ptr) {k z : Nat} {text : Bytes}, 0 ∉ text → k < nField → az.length = nField →
      az[k]? = some (.line z) → az.drop (k + 1) = old → mem = p ++ (text ++ 0 :: w) → z = p.length →
      ((∀ j, k ≤ j → j < nField →
          FieldOk (splitLoop delim nField (k + 1) z mem az).2.1 (p.length + text.length)
            (nullFrom (splitLoop delim nField (k + 1) z mem az).1
              (splitLoop delim nField (k + 1) z mem az).2.2)[j]? (fieldAt delim text (j - k))) ↔
        Splittable delim w old text) := by
  induction old with
  | nil =>
    intro mem p az k z text h0 hk hlen hat hold hm hz
    have hlast : nField = k + 1 := by
      have := congrArg List.length hold
      rw [List.length_drop, List.length_nil] at this
      omega
    rw [forall_from hk, Nat.sub_self, fieldAt, splitLoop_first hd hd0 h0 hk hm hz hlen hat, Splittable]
    exact and_iff_left fun j _ _ => by omega
  | cons ptr old ih =>
    intro mem p az k z text h0 hk hlen hat hold hm hz
    have hcount : nField = k + 1 + (old.length + 1) := by
      have := congrArg List.length hold
      rw [List.length_drop, List.length_cons] at this
      omega
    have hk1 : k + 1 < nField := by omega
    have hptr : az[k + 1]? = some ptr := by
      rw [← List.head?_drop, hold, List.head?_cons]
    have hdrop : az.drop (k + 2) = old := by simpa using congrArg List.tail hold
    have hfield : ∀ j, k + 1 ≤ j → fieldAt delim text (j - k) =
        (cutField delim text).2.bind fun rest => fieldAt delim rest (j - (k + 1)) := by
      intro j hj
      rw [show j - k = (j - (k + 1)) + 1 by omega, fieldAt]
    rw [forall_from hk, Nat.sub_self, fieldAt, splitLoop_first hd hd0 h0 hk hm hz hlen hat, Splittable]
    refine and_congr_right fun hmark => ?_
    by_cases hnull : isNull delim mem z = true
    · rcases (isNull_iff hd0 h0 hm hz).1 hnull with rfl | hp
      · -- the mark is at the end of the line
        have hc : (cutField delim nullMark).2 = none := by rw [cutField_nullMark]
        simp only [hc, if_true, show nullMark ≠ [] by decide, false_or,
          ← splitLoop_markEnd hd hcount hlen hm hz hnull]
        exact forall_congr' fun j => forall_congr' fun hj => forall_congr' fun _ => fieldOk_behind hc hj
      · -- a delimiter stands behind the mark
        have hset : (az.set k .null).length = nField := by rw [List.length_set, hlen]
        have hraw := hmark hp
        rw [splitLoop_null hk hnull]
        cases hc : (cutField delim text).2 with
        | none =>
          have hle := hp.length_le
          have hpos := List.length_pos_iff.2 hd
          rw [cutField_none hc] at hraw
          rw [hraw, List.length_append] at hle
          omega
        | some rest =>
          have htext := cutField_some hc
          rw [hraw] at htext
          have hrest : 0 ∉ rest := fun e => h0 (by rw [htext]; simp [e])
          have hrec := ih mem (p ++ (nullMark ++ delim)) _ hrest hk1
            (by rw [length_pointTo, hset]) (pointTo_get (z := z + (2 + delim.length)) hset hk1)
            (by rw [drop_pointTo, List.drop_set_of_lt (by omega), hdrop]) (by rw [hm, htext]; simp)
            (by simp [hz, nullMark]; omega)
          refine Iff.trans ?_ hrec
          refine forall_congr' fun j => forall_congr' fun hj => forall_congr' fun _ => ?_
          rw [hfield j hj, hc, Option.bind_some, htext]
          simp only [List.length_append, Nat.add_assoc]
    · by_cases ht : text = []
      · subst ht
        rw [splitLoop_nul (byte_eq hm hz)]
        refine iff_of_true (fun j hj hn => ?_) (.inl rfl)
        rw [hfield j hj, nullFrom_get, List.getElem?_eq_getElem (hlen ▸ hn), Option.map_some, if_pos hj]
        trivial
      cases hc : (cutField delim text).2 with
      | none =>
        have hne : text ≠ nullMark := fun e => hnull ((isNull_iff hd0 h0 hm hz).2 (.inl e))
        obtain ⟨m, hloop⟩ := splitLoop_last hd hd0 h0 hk hm hz ht hnull az hc
        simp only [hloop, ht, if_neg hne, false_or]
        rw [← Option.some_inj, ← hptr, ← nullFrom_last hlen hk1]
        exact forall_congr' fun j => forall_congr' fun hj => forall_congr' fun _ => fieldOk_behind hc hj
      | some rest =>
        obtain ⟨g, hg, hloop⟩ := splitLoop_text hd hd0 h0 hk hm hz ht hnull az hc
        have htext := congrArg List.length (cutField_some hc)
        have hrest : 0 ∉ rest := fun e => h0 (cutField_some hc ▸ by simp [e])
        have hrec := ih _ _ _ hrest hk1 (by rw [length_pointTo, hlen]) (pointTo_get hlen hk1)
          (by rw [drop_pointTo, hdrop]) rfl hg
        rw [hloop]
        refine Iff.trans ?_ hrec
        refine forall_congr' fun j => forall_congr' fun hj => forall_congr' fun _ => ?_
        rw [hfield j hj, hc, Option.bind_some, ← hg]
        rw [List.length_append, List.length_append] at htext
        rw [show p.length + text.length = z + ((cutField delim text).1.length + delim.length) + rest.length by
          omega]

/-- **The fields of a line.** `first` and `old` are the entries of `azField` before the line is split. -/
theorem splitLine_iff {delim line : Bytes} (hd : delim ≠ []) (hd0 : 0 ∉ delim) (h0 : 0 ∉ line)
    (stale : Bytes) (first : Ptr) (old : List Ptr) :
    (∀ k < old.length + 1, FieldOk (splitLine delim (line ++ 0 :: stale) (first :: old)).1 line.length
        (splitLine delim (line ++ 0 :: stale) (first :: old)).2[k]? (fieldAt delim line k)) ↔
      Splittable delim stale old line := by
  have hline := splitLoop_iff hd hd0 old (line ++ 0 :: stale) [] (.line 0 :: old) h0
    (Nat.zero_lt_succ _) rfl rfl rfl rfl rfl
  simpa [splitLine] using hline

/-- `a` and `b` with a tab between. -/
theorem splitLine_iff_tab :
    FieldOk (splitLine [9] ([97, 9, 98] ++ 0 :: []) [.null, .null]).1 3
        (splitLine [9] ([97, 9, 98] ++ 0 :: []) [.null, .null]).2[0]? (fieldAt [9] [97, 9, 98] 0) ∧
      FieldOk (splitLine [9] ([97, 9, 98] ++ 0 :: []) [.null, .null]).1 3
        (splitLine [9] ([97, 9, 98] ++ 0 :: []) [.null, .null]).2[1]? (fieldAt [9] [97, 9, 98] 1) := by
  have hfields := (@splitLine_iff [9] [97, 9, 98] (by decide) (by decide) (by decide) [] .null
    [.null]).2 ⟨by decide, show nullMark ++ [9] <+: [98] → _ by decide⟩
  exact ⟨hfields 0 (by decide), hfields 1 (by decide)⟩

/-- A line `c` behind a line of `a` and `b`: its second field is still the `b`. -/
theorem splitLine_fails : ¬∀ (delim line stale : Bytes) (first : Ptr) (old : List Ptr),
    delim ≠ [] → 0 ∉ delim → 0 ∉ line → ∀ k < old.length + 1,
      FieldOk (splitLine delim (line ++ 0 :: stale) (first :: old)).1 line.length
        (splitLine delim (line ++ 0 :: stale) (first :: old)).2[k]? (fieldAt delim line k) := by
  intro h
  have h1 := h [9] [99] [98, 0] (.line 0) [.line 2] (by decide) (by decide) (by decide) 1 (by decide)
  have hmem : [99] ++ 0 :: [98, 0] = [] ++ ([99] ++ 0 :: ([98, 0] : Bytes)) := rfl
  have hnull : isNull [9] ([99] ++ 0 :: [98, 0]) 0 ≠ true := by decide
  obtain ⟨m, hloop⟩ := splitLoop_last (by decide) (by decide) (by decide) (Nat.zero_lt_succ 1) hmem rfl
    (by decide) hnull [.line 0, .line 2] rfl
  have hsplit : splitLine [9] ([99] ++ 0 :: [98, 0]) [.line 0, .line 2] =
      ([] ++ (decode [99] ++ 0 :: m), nullFrom 2 [.line 0, .line 2]) := by
    rw [splitLine]
    simp only [List.set_cons_zero, List.length_cons, List.length_nil]
    rw [show splitLoop [9] 2 1 0 ([99] ++ 0 :: [98, 0]) [.line 0, .line 2] = _ from hloop]
  rw [hsplit] at h1
  exact h1

end FileRead
end Dbsql.L3
