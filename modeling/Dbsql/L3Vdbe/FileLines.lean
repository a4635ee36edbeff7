import Dbsql.Core.EscLines
import Dbsql.L1Encoding.Memcmp
import Mathlib.Algebra.Order.Ring.Int
/-!
# Reading the lines of a file (vdbe.c:461-483, 4237-4286)

`OP_FileRead` puts a line together from what `__fgets` reads at once: as much as the line buffer has
room for, and nothing behind a newline. A newline behind a backslash is part of the line.

A backslash that ends what is read at once is not paired with what the next `__fgets` reads. It is
overwritten by it, so a line loses a backslash there, and one that escapes its newline is cut in
two. Also a NUL ends what is read at once, and an empty line ends the input.

Results:
* `assemble_of_wholeReads`, `assemble_ne`: what a read of the file loses of one line.
* `readLines_iff`: exactly when the lines are those of the whole content.
-/
namespace Dbsql.L3
open Dbsql.Core Dbsql.L1

namespace FileRead

/-! ## The code -/

abbrev LF : UInt8 := 10
abbrev CR : UInt8 := 13
abbrev backslash : UInt8 := 92

@[simp] theorem LF_ne_zero : LF ≠ 0 := by decide
@[simp] theorem LF_ne_CR : LF ≠ CR := by decide
@[simp] theorem LF_ne_backslash : LF ≠ backslash := by decide
@[simp] theorem backslash_ne_zero : backslash ≠ 0 := by decide

/-- `__fgets` (vdbe.c:461-483) with `len - 1` for the argument: `zBuf` without its NUL, and what is
left of the file. It returns 0 when it has read nothing. -/
@[grind =] def fgets : Nat → Bytes → Bytes × Bytes
  | 0, inp => ([], inp)
  | _ + 1, [] => ([], [])
  | len + 1, c :: inp =>
    if c = CR then ([LF], if inp.head? = some LF then inp.tail else inp)
    else if c = LF then ([LF], inp)
    else (c :: (fgets len inp).1, (fgets len inp).2)

/-- The size of `zLine` with room for 200 bytes behind the first `n`. None is allocated where
`nLineAlloc` leaves the range of an int. -/
def lineAlloc (nLineAlloc n : Nat) : Option Nat :=
  if nLineAlloc < n + 200 then
    if nLineAlloc * 2 + 300 < 2 ^ 31 then some (nLineAlloc * 2 + 300) else none
  else some nLineAlloc

/-- The loop over what was read (vdbe.c:4266-4279): the bytes that `n` passes, and `eol`. -/
@[grind =] def scan : Bytes → Bytes × Bool
  | [] => ([], false)
  | c :: z =>
    if c = 0 then ([], false)
    else if c = backslash then
      match z with
      | [] => ([], false)
      | d :: z => if d = 0 then ([], false) else (c :: d :: (scan z).1, (scan z).2)
    else if c = LF then ([], true)
    else (c :: (scan z).1, (scan z).2)

/-- A line in `zLine`, the size of the buffer then and what is left of the file. -/
structure Line where
  z : Bytes
  nLineAlloc : Nat
  rest : Bytes
  deriving DecidableEq, Repr

theorem fgets_length (len : Nat) (inp : Bytes) :
    (fgets len inp).2.length ≤ inp.length ∧
      ((fgets len inp).1 ≠ [] → (fgets len inp).2.length < inp.length) := by
  induction len generalizing inp with
  | zero => simp [fgets]
  | succ len ih =>
    rcases inp with _ | ⟨c, inp⟩
    · simp [fgets]
    · have hl := (ih inp).1
      grind [fgets]

/-- The loop of `OP_FileRead` (vdbe.c:4253-4281) from byte `n` of the line on. -/
@[grind =] def assemble (nLineAlloc n : Nat) (inp : Bytes) : Option Line :=
  match lineAlloc nLineAlloc n with
  | none => none
  | some a =>
    if (fgets (a - n - 1) inp).1 = [] then some ⟨[], a, (fgets (a - n - 1) inp).2⟩
    else if (scan (fgets (a - n - 1) inp).1).2 then
      some ⟨(scan (fgets (a - n - 1) inp).1).1, a, (fgets (a - n - 1) inp).2⟩
    else
      (assemble a (n + (scan (fgets (a - n - 1) inp).1).1.length) (fgets (a - n - 1) inp).2).map fun l =>
        ⟨(scan (fgets (a - n - 1) inp).1).1 ++ l.z, l.nLineAlloc, l.rest⟩
termination_by inp.length
decreasing_by exact (fgets_length _ _).2 ‹_›

theorem assemble_rest (nLineAlloc n : Nat) (inp : Bytes) (l : Line)
    (h : assemble nLineAlloc n inp = some l) :
    l.rest.length ≤ inp.length ∧ (l.z ≠ [] → l.rest.length < inp.length) := by
  fun_induction assemble nLineAlloc n inp generalizing l with
  | case1 => simp at h
  | case2 nLineAlloc n inp a ha he =>
    obtain rfl := Option.some.inj h
    exact ⟨(fgets_length _ _).1, fun e => absurd rfl e⟩
  | case3 nLineAlloc n inp a ha hne he =>
    obtain rfl := Option.some.inj h
    exact ⟨(fgets_length _ _).1, fun _ => (fgets_length _ _).2 hne⟩
  | case4 nLineAlloc n inp a ha hne he ih =>
    obtain ⟨l', hl', rfl⟩ := Option.map_eq_some_iff.1 h
    have hlt := (fgets_length _ _).2 hne
    exact ⟨(ih l' hl').1.trans hlt.le, fun _ => (ih l' hl').1.trans_lt hlt⟩

/-- The line at which the input ends. -/
def endMark : Bytes := [backslash, 46]

/-- The lines that the `OP_FileRead`s of a run leave in `zLine`, up to the one that jumps to P2 (vdbe.c
:4282-4286); none for the jump to `no_mem`. -/
def readLines (nLineAlloc : Nat) (inp : Bytes) : Option (List Bytes) :=
  match _h : assemble nLineAlloc 0 inp with
  | none => none
  | some l =>
    if l.z = [] ∨ l.z = endMark then some []
    else (readLines l.nLineAlloc l.rest).map (l.z :: ·)
termination_by inp.length
decreasing_by exact (assemble_rest _ _ _ _ _h).2 fun e => ‹¬(l.z = [] ∨ l.z = endMark)› (Or.inl e)

theorem readLines_eq (nLineAlloc : Nat) (inp : Bytes) :
    readLines nLineAlloc inp = (assemble nLineAlloc 0 inp).bind fun l =>
      if l.z = [] ∨ l.z = endMark then some []
      else (readLines l.nLineAlloc l.rest).map (l.z :: ·) := by
  rw [readLines]
  split
  · next h => rw [h]; rfl
  · next h => rw [h]; rfl

/-! ## The content as a text -/

/-- The content with LF for each end of a physical line; `cr` where a CR stands before. -/
@[grind =] def eols : Bool → Bytes → Bytes
  | _, [] => []
  | cr, c :: inp =>
    if c = LF ∧ cr then eols false inp
    else if c = CR then LF :: eols true inp
    else c :: eols false inp

/-- The size of the line buffer when the line at the start of `text` has been read from byte `n` on, if
nothing is lost: nothing that is read at once has a NUL or ends in an odd number of backslashes. -/
@[grind =] def wholeReads (nLineAlloc n : Nat) (text : Bytes) : Option Nat :=
  match lineAlloc nLineAlloc n with
  | none => none
  | some a =>
    if EscLines.piece LF (a - n - 1) text = [] then some a
    else if 0 ∈ EscLines.piece LF (a - n - 1) text ∨
        EscLines.odd backslash false (EscLines.piece LF (a - n - 1) text) then none
    else if EscLines.EndsLine backslash LF (EscLines.piece LF (a - n - 1) text) then some a
    else wholeReads a (n + (EscLines.piece LF (a - n - 1) text).length)
      (text.drop (EscLines.piece LF (a - n - 1) text).length)
termination_by text.length
decreasing_by
  have hne := List.length_pos_iff.2 ‹¬EscLines.piece LF (a - n - 1) text = []›
  have hle := congrArg List.length (EscLines.piece_append_drop LF (a - n - 1) text)
  rw [List.length_append] at hle
  omega

/-- Every line up to the end mark is read whole and has a byte. -/
def Readable (nLineAlloc : Nat) (text : Bytes) : Prop :=
  if text = [] then True
  else
    match wholeReads nLineAlloc 0 text with
    | none => False
    | some a =>
      (EscLines.cut backslash LF false text).1 ≠ [] ∧
        ((EscLines.cut backslash LF false text).1 = endMark ∨
          Readable a (EscLines.cut backslash LF false text).2)
termination_by text.length
decreasing_by exact EscLines.cut_length _ _ ‹_›

theorem eols_true (inp : Bytes) :
    eols true inp = eols false (if inp.head? = some LF then inp.tail else inp) := by
  rcases inp with _ | ⟨c, inp⟩
  · rfl
  · by_cases hc : c = LF
    · simp [eols, hc]
    · simp [eols, hc]

/-- What is read at once is a piece of the text. -/
theorem fgets_eq (len : Nat) (inp : Bytes) :
    (fgets len inp).1 = EscLines.piece LF len (eols false inp) ∧
      eols false (fgets len inp).2 =
        (eols false inp).drop (EscLines.piece LF len (eols false inp)).length := by
  induction len generalizing inp with
  | zero => simp [fgets, EscLines.piece]
  | succ len ih =>
    rcases inp with _ | ⟨c, inp⟩
    · simp [fgets, eols, EscLines.piece]
    · by_cases hcr : c = CR
      · simp [fgets, eols, EscLines.piece, hcr, eols_true]
      · by_cases hlf : c = LF
        · subst hlf
          simp [fgets, eols, EscLines.piece]
        · simp [fgets, eols, EscLines.piece, hcr, hlf, ih inp]

/-! ## What is kept of a piece -/

theorem scan_LF (z : Bytes) : scan (LF :: z) = ([], true) := by
  rw [scan.eq_def]
  simp

theorem scan_pair {d : UInt8} (hd : d ≠ 0) (z : Bytes) :
    scan (backslash :: d :: z) = (backslash :: d :: (scan z).1, (scan z).2) := by
  rw [scan.eq_def]
  simp [hd]

theorem scan_cons {c : UInt8} (h0 : c ≠ 0) (hb : c ≠ backslash) (hl : c ≠ LF) (z : Bytes) :
    scan (c :: z) = (c :: (scan z).1, (scan z).2) := by
  rw [scan.eq_def]
  simp [h0, hb, hl]

theorem scan_append {q : Bytes} (h0 : 0 ∉ q) (hm : LF ∉ q) (ho : EscLines.odd backslash false q = false)
    (t : Bytes) : scan (q ++ t) = (q ++ (scan t).1, (scan t).2) := by
  fun_induction scan q with
  | case1 => rfl
  | case2 => simp at h0
  | case3 => simp at ho
  | case4 => simp at h0
  | case5 d z hd hb ih =>
    simp only [List.mem_cons, not_or] at h0 hm
    have hz := ih h0.2.2 hm.2.2 (by simpa using ho)
    rw [List.cons_append, List.cons_append, scan_pair hd, hz]
    rfl
  | case6 => simp at hm
  | case7 c z hc hb hl ih =>
    simp only [List.mem_cons, not_or] at h0 hm
    have hz := ih h0.2 hm.2 (by simpa [hb] using ho)
    rw [List.cons_append, scan_cons hc hb hl, hz]
    rfl

theorem zero_notMem_scan (p : Bytes) : 0 ∉ (scan p).1 := by
  fun_induction scan p with
  | case1 => simp
  | case2 => simp
  | case3 => simp
  | case4 => simp
  | case5 d z hd hb ih => simp [ih, Ne.symm hd, Ne.symm hb]
  | case6 => simp
  | case7 c z hc hb hl ih => simp [ih, Ne.symm hc]

theorem odd_true {q : Bytes} (h : EscLines.odd backslash false q = true) :
    ∃ q', q = q' ++ [backslash] ∧ EscLines.odd backslash false q' = false := by
  rcases List.eq_nil_or_concat q with rfl | ⟨q', c, rfl⟩
  · simp at h
  · simp only [List.concat_eq_append, EscLines.odd_append, EscLines.odd_cons, EscLines.odd_nil,
      Bool.and_eq_true, decide_eq_true_eq, Bool.not_eq_true'] at h
    exact ⟨q', by simp [h.1], h.2⟩

/-- A backslash at the end is lost. -/
theorem scan_odd {p : Bytes} (h0 : 0 ∉ p) (hm : LF ∉ p) (ho : EscLines.odd backslash false p = true) :
    ∃ q, p = q ++ [backslash] ∧ scan p = (q, false) := by
  obtain ⟨q, rfl, hq⟩ := odd_true ho
  simp only [List.mem_append, not_or] at h0 hm
  exact ⟨q, rfl, by simp [scan_append h0.1 hm.1 hq, scan]⟩

section Piece
variable {len : Nat} {text : Bytes} (h0 : 0 ∉ EscLines.piece LF len text)
include h0

theorem scan_piece_end (he : EscLines.EndsLine backslash LF (EscLines.piece LF len text)) :
    scan (EscLines.piece LF len text) = ((EscLines.piece LF len text).dropLast, true) := by
  rcases EscLines.piece_cases LF len text with hm | ⟨q, hq, hm⟩
  · exact absurd he (EscLines.not_endsLine hm)
  · rw [hq, EscLines.endsLine_append_mark] at he
    rw [hq] at h0 ⊢
    rw [scan_append (fun e => h0 (List.mem_append_left _ e)) hm he]
    simp [scan]

theorem scan_piece (he : ¬EscLines.EndsLine backslash LF (EscLines.piece LF len text))
    (ho : EscLines.odd backslash false (EscLines.piece LF len text) = false) :
    scan (EscLines.piece LF len text) = (EscLines.piece LF len text, false) := by
  rcases EscLines.piece_cases LF len text with hm | ⟨q, hq, hm⟩
  · simpa [scan] using scan_append h0 hm ho []
  · rw [hq, EscLines.endsLine_append_mark, Bool.not_eq_false] at he
    obtain ⟨q', rfl, hq'⟩ := odd_true he
    rw [hq] at h0 ⊢
    simp only [List.mem_append, not_or] at h0 hm
    rw [List.append_assoc, scan_append h0.1.1 hm.1 hq']
    simp [scan]

theorem scan_piece_odd (ho : EscLines.odd backslash false (EscLines.piece LF len text) = true) :
    ∃ q, EscLines.piece LF len text = q ++ [backslash] ∧ scan (EscLines.piece LF len text) = (q, false) := by
  rcases EscLines.piece_cases LF len text with hm | ⟨q, hq, hm⟩
  · exact scan_odd h0 hm ho
  · rw [hq] at ho
    simp at ho

end Piece

/-! ## One line -/

theorem lineAlloc_room {nLineAlloc n a : Nat} (h : lineAlloc nLineAlloc n = some a) (hn : n ≤ nLineAlloc) :
    n + 200 ≤ a := by
  grind [lineAlloc]

/-- One read of a line that ends it. -/
theorem assemble_end {nLineAlloc n a : Nat} {inp : Bytes} (ha : lineAlloc nLineAlloc n = some a) {q : Bytes}
    (hne : EscLines.piece LF (a - n - 1) (eols false inp) ≠ [])
    (hs : scan (EscLines.piece LF (a - n - 1) (eols false inp)) = (q, true)) :
    assemble nLineAlloc n inp = some ⟨q, a, (fgets (a - n - 1) inp).2⟩ := by
  rw [← (fgets_eq _ _).1] at hne hs
  rw [assemble, ha]
  simp [hne, hs]

/-- One read of a line, and the others. -/
theorem assemble_next {nLineAlloc n a : Nat} {inp : Bytes} (ha : lineAlloc nLineAlloc n = some a) {q : Bytes}
    (hne : EscLines.piece LF (a - n - 1) (eols false inp) ≠ [])
    (hs : scan (EscLines.piece LF (a - n - 1) (eols false inp)) = (q, false)) :
    assemble nLineAlloc n inp = (assemble a (n + q.length) (fgets (a - n - 1) inp).2).map fun l =>
      ⟨q ++ l.z, l.nLineAlloc, l.rest⟩ := by
  rw [← (fgets_eq _ _).1] at hne hs
  rw [assemble, ha]
  simp [hne, hs]

theorem assemble_eof {nLineAlloc n a : Nat} {inp : Bytes} (ha : lineAlloc nLineAlloc n = some a)
    (he : EscLines.piece LF (a - n - 1) (eols false inp) = []) :
    assemble nLineAlloc n inp = some ⟨[], a, (fgets (a - n - 1) inp).2⟩ := by
  rw [← (fgets_eq _ _).1] at he
  rw [assemble, ha]
  simp [he]

/-- A line of which nothing is lost. -/
theorem assemble_of_wholeReads {nLineAlloc n a : Nat} {inp : Bytes} (hn : n ≤ nLineAlloc)
    (h : wholeReads nLineAlloc n (eols false inp) = some a) :
    ∃ rest, assemble nLineAlloc n inp =
        some ⟨(EscLines.cut backslash LF false (eols false inp)).1, a, rest⟩ ∧
      eols false rest = (EscLines.cut backslash LF false (eols false inp)).2 := by
  generalize htext : eols false inp = text at h
  fun_induction wholeReads nLineAlloc n text generalizing inp with
  | case1 => cases h
  | case2 nLineAlloc n text a' ha hp =>
    subst htext
    obtain rfl := Option.some.inj h
    have hroom := lineAlloc_room ha hn
    have hnil : eols false inp = [] := EscLines.piece_eq_nil (by omega) hp
    refine ⟨(fgets (a' - n - 1) inp).2, ?_, ?_⟩
    · rw [assemble_eof ha hp, hnil]
      rfl
    · rw [(fgets_eq _ _).2, hnil]
      simp [EscLines.cut]
  | case3 => cases h
  | case4 nLineAlloc n text a' ha hp hl he =>
    subst htext
    obtain rfl := Option.some.inj h
    simp only [not_or, Bool.not_eq_true] at hl
    rw [EscLines.cut_piece_end he, assemble_end ha hp (scan_piece_end hl.1 he)]
    exact ⟨_, rfl, (fgets_eq _ _).2⟩
  | case5 nLineAlloc n text a' ha hp hl he ih =>
    subst htext
    simp only [not_or, Bool.not_eq_true] at hl
    have hroom := lineAlloc_room ha hn
    have hlen := EscLines.piece_length LF (a' - n - 1) (eols false inp)
    obtain ⟨rest, hrest, htext⟩ := ih (by omega) (fgets_eq (a' - n - 1) inp).2 h
    rw [EscLines.cut_piece (by decide) he, hl.2, assemble_next ha hp (scan_piece hl.1 he hl.2), hrest]
    exact ⟨rest, rfl, htext⟩

/-- No line has a NUL. -/
theorem zero_notMem_assemble {nLineAlloc n : Nat} {inp : Bytes} {l : Line}
    (h : assemble nLineAlloc n inp = some l) : 0 ∉ l.z := by
  fun_induction assemble nLineAlloc n inp generalizing l with
  | case1 => cases h
  | case2 nLineAlloc n inp a ha he =>
    obtain rfl := Option.some.inj h
    simp
  | case3 nLineAlloc n inp a ha hne he =>
    obtain rfl := Option.some.inj h
    exact zero_notMem_scan _
  | case4 nLineAlloc n inp a ha hne he ih =>
    obtain ⟨l', hl', rfl⟩ := Option.map_eq_some_iff.1 h
    simpa using ⟨zero_notMem_scan _, ih hl'⟩

/-! What follows a lost backslash cannot make up for it: there are no more backslashes at the start of
what is read then than in the file. -/

theorem not_prefix_append {i j m : Nat} {z : Bytes} (hi : i ≤ m) (hm : m ≤ j)
    (h : ¬List.replicate (j - m + 1) backslash <+: z) :
    ¬List.replicate (j + 1) backslash <+: List.replicate i backslash ++ z := by
  rw [show j + 1 = i + ((j - m + 1) + (m - i)) by omega, List.replicate_add i,
    List.prefix_append_right_inj, List.replicate_add]
  exact fun e => h ((List.prefix_append _ _).trans e)

theorem scan_replicate (m : Nat) :
    scan (List.replicate m backslash) = (List.replicate (2 * (m / 2)) backslash, false) := by
  induction m using Nat.twoStepInduction with
  | zero => rfl
  | one => rfl
  | more m ih _ =>
    rw [List.replicate_succ, List.replicate_succ, scan_pair (by decide), ih,
      show 2 * ((m + 2) / 2) = 2 * (m / 2) + 2 by omega, List.replicate_succ, List.replicate_succ]

theorem scan_replicate_append {x : UInt8} (hx : x ≠ backslash) (h0 : x ≠ 0) (p t : Bytes) (j : Nat) :
    ¬List.replicate (j + 1) backslash <+: (scan (List.replicate j backslash ++ x :: p)).1 ++
      (if (scan (List.replicate j backslash ++ x :: p)).2 then [] else t) := by
  induction j using Nat.twoStepInduction with
  | zero =>
    by_cases hl : x = LF
    · simp [hl, scan_LF]
    · simp [scan_cons h0 hx hl, Ne.symm hx]
  | one => simp [scan_pair h0, Ne.symm hx, List.replicate_succ]
  | more j ih _ =>
    have hs : List.replicate (j + 2) backslash ++ x :: p =
        backslash :: backslash :: (List.replicate j backslash ++ x :: p) := rfl
    rw [hs, scan_pair (by decide), List.replicate_succ, List.replicate_succ]
    simpa using ih

/-- A read that stops in the backslashes at the start of the text takes some of them, another goes on
behind them. -/
theorem piece_replicate_append (k j : Nat) (z : Bytes) :
    (∃ m ≤ j, EscLines.piece LF k (List.replicate j backslash ++ z) = List.replicate m backslash) ∨
    ∃ x y p, z = x :: y ∧
      EscLines.piece LF k (List.replicate j backslash ++ z) = List.replicate j backslash ++ x :: p := by
  have hm : LF ∉ List.replicate j backslash := by simp
  rcases le_or_gt k j with hk | hk
  · refine .inl ⟨k, hk, ?_⟩
    rw [EscLines.piece_append_of_lt hm (by simpa using hk), List.take_replicate, min_eq_left hk]
  · rw [EscLines.piece_append hm (by simpa using hk.le), List.length_replicate]
    rcases z with _ | ⟨x, y⟩
    · refine .inl ⟨j, le_rfl, ?_⟩
      cases k - j <;> simp [EscLines.piece]
    · refine .inr ⟨x, y, ?_⟩
      obtain ⟨i, hi⟩ := Nat.exists_eq_add_of_lt (Nat.sub_pos_of_lt hk)
      rw [hi, Nat.zero_add, EscLines.piece]
      split
      · exact ⟨[], rfl, rfl⟩
      · exact ⟨_, rfl, rfl⟩

theorem assemble_leading {j nLineAlloc n : Nat} {inp z : Bytes} {l : Line}
    (htext : eols false inp = List.replicate j backslash ++ z) (hz : z.head? ≠ some backslash)
    (h0 : z.head? ≠ some 0) (h : assemble nLineAlloc n inp = some l) :
    ¬List.replicate (j + 1) backslash <+: l.z := by
  fun_induction assemble nLineAlloc n inp generalizing j l with
  | case1 => cases h
  | case2 nLineAlloc n inp a ha he =>
    obtain rfl := Option.some.inj h
    simp
  | case3 nLineAlloc n inp a ha hne he =>
    obtain rfl := Option.some.inj h
    rw [(fgets_eq _ _).1, htext] at he ⊢
    rcases piece_replicate_append (a - n - 1) j z with ⟨m, hm, hp⟩ | ⟨x, y, p, rfl, hp⟩
    · rw [hp, scan_replicate] at he
      cases he
    · rw [hp] at he ⊢
      simpa [he] using scan_replicate_append (by simpa using hz) (by simpa using h0) p [] j
  | case4 nLineAlloc n inp a ha hne he ih =>
    obtain ⟨l', hl', rfl⟩ := Option.map_eq_some_iff.1 h
    have hrest := (fgets_eq (a - n - 1) inp).2
    rw [(fgets_eq _ _).1, htext] at he ⊢
    rw [htext] at hrest
    rcases piece_replicate_append (a - n - 1) j z with ⟨m, hm, hp⟩ | ⟨x, y, p, rfl, hp⟩
    · rw [hp, scan_replicate]
      rw [hp, List.length_replicate, List.drop_append_of_le_length (by simpa using hm),
        List.drop_replicate] at hrest
      exact not_prefix_append (by omega) hm (ih hrest hl')
    · rw [hp] at he ⊢
      have hp' := scan_replicate_append (by simpa using hz) (by simpa using h0) p l'.z j
      rwa [if_neg he] at hp'

/-- The backslashes at the start of a line. -/
theorem cut_replicate_append (j : Nat) (z : Bytes) (o : Bool) : ∃ w,
    (EscLines.cut backslash LF o (List.replicate j backslash ++ z)).1 = List.replicate j backslash ++ w ∧
      (z.head? = some 0 → 0 ∈ w) := by
  rw [EscLines.cut_append (by simp)]
  refine ⟨_, rfl, fun hz => ?_⟩
  rcases z with _ | ⟨x, z⟩
  · simp at hz
  · obtain rfl := Option.some.inj hz
    simp [EscLines.cut, Ne.symm LF_ne_zero]

theorem exists_replicate_append (z : Bytes) :
    ∃ j y, z = List.replicate j backslash ++ y ∧ y.head? ≠ some backslash := by
  induction z with
  | nil => exact ⟨0, [], rfl, by simp⟩
  | cons c z ih =>
    by_cases hc : c = backslash
    · obtain ⟨j, y, hj, hy⟩ := ih
      exact ⟨j + 1, y, by rw [hc, hj]; rfl, hy⟩
    · exact ⟨0, c :: z, rfl, by simpa using hc⟩

/-- A line of which something is lost. -/
theorem assemble_ne {nLineAlloc n : Nat} {inp : Bytes} {l : Line}
    (h : wholeReads nLineAlloc n (eols false inp) = none) (hl : assemble nLineAlloc n inp = some l) :
    l.z ≠ (EscLines.cut backslash LF false (eols false inp)).1 := by
  generalize htext : eols false inp = text at h
  fun_induction wholeReads nLineAlloc n text generalizing inp l with
  | case1 nLineAlloc n text ha =>
    rw [assemble, ha] at hl
    cases hl
  | case2 => cases h
  | case3 nLineAlloc n text a' ha hp hor =>
    subst htext
    intro heq
    by_cases h0 : 0 ∈ EscLines.piece LF (a' - n - 1) (eols false inp)
    · exact zero_notMem_assemble hl (heq ▸ EscLines.mem_cut_of_mem_piece (by decide) h0 false)
    · have ho := hor.resolve_left h0
      obtain ⟨q, hq, hs⟩ := scan_piece_odd h0 ho
      have he : ¬EscLines.EndsLine backslash LF (EscLines.piece LF (a' - n - 1) (eols false inp)) := by
        simp [hq, EscLines.EndsLine, Ne.symm LF_ne_backslash]
      rw [assemble_next ha hp hs] at hl
      obtain ⟨l', hl', rfl⟩ := Option.map_eq_some_iff.1 hl
      obtain ⟨j, y, hj, hy⟩ := exists_replicate_append (eols false (fgets (a' - n - 1) inp).2)
      obtain ⟨w, hw, hw0⟩ := cut_replicate_append j y true
      rw [EscLines.cut_piece (by decide) he, ho, ← (fgets_eq _ _).2, hj, hw, hq] at heq
      have hz : l'.z = List.replicate (j + 1) backslash ++ w := by
        simpa [List.replicate_succ] using heq
      by_cases hy0 : y.head? = some 0
      · exact zero_notMem_assemble hl' (hz ▸ List.mem_append_right _ (hw0 hy0))
      · exact assemble_leading hj hy hy0 hl' (hz ▸ List.prefix_append _ _)
  | case4 => cases h
  | case5 nLineAlloc n text a' ha hp hor he ih =>
    subst htext
    simp only [not_or, Bool.not_eq_true] at hor
    rw [assemble_next ha hp (scan_piece hor.1 he hor.2)] at hl
    obtain ⟨l', hl', rfl⟩ := Option.map_eq_some_iff.1 hl
    rw [EscLines.cut_piece (by decide) he, hor.2]
    simpa using ih hl' (fgets_eq _ _).2 h

/-! ## The file -/

theorem lineAlloc_small (nLineAlloc : Nat) {n : Nat} (hn : n < 200) : ∃ a, lineAlloc nLineAlloc n = some (a + 200) := by
  rw [lineAlloc]
  split
  · rw [if_pos (by omega)]
    exact ⟨nLineAlloc * 2 + 100, rfl⟩
  · exact ⟨nLineAlloc - 200, by congr 1; omega⟩

/-- The text of an end mark. -/
theorem cut_endMark {text : Bytes} (h : (EscLines.cut backslash LF false text).1 = endMark) :
    ∃ t, text = backslash :: 46 :: t ∧ (t = [] ∨ ∃ t', t = LF :: t') := by
  rcases text with _ | ⟨c, text⟩
  · simp [EscLines.cut, endMark] at h
  rw [EscLines.cut] at h
  split at h
  · simp [endMark] at h
  simp only [endMark, List.cons.injEq] at h
  obtain ⟨rfl, h⟩ := h
  rcases text with _ | ⟨d, text⟩
  · simp [EscLines.cut] at h
  rw [EscLines.cut, if_neg (by simp)] at h
  simp only [decide_true, Bool.not_false, Bool.and_true, Bool.not_true, Bool.and_false, List.cons.injEq] at h
  obtain ⟨rfl, h⟩ := h
  refine ⟨text, rfl, ?_⟩
  rcases text with _ | ⟨e, text⟩
  · exact .inl rfl
  · rw [EscLines.cut] at h
    split at h
    · next he => exact .inr ⟨text, by rw [he.1]⟩
    · simp at h

/-- Nothing of an end mark is lost. -/
theorem wholeReads_endMark (nLineAlloc : Nat) {text : Bytes}
    (h : (EscLines.cut backslash LF false text).1 = endMark) : wholeReads nLineAlloc 0 text ≠ none := by
  obtain ⟨t, rfl, ht⟩ := cut_endMark h
  obtain ⟨a, ha⟩ := lineAlloc_small nLineAlloc (n := 0) (by decide)
  have hsize : a + 200 - 0 - 1 = (a + 196) + 1 + 1 + 1 := by omega
  rw [wholeReads, ha]
  simp only [hsize]
  rcases ht with rfl | ⟨t, rfl⟩
  · have hp : EscLines.piece LF ((a + 196) + 1 + 1 + 1) [backslash, 46] = [backslash, 46] := rfl
    obtain ⟨a', ha'⟩ := lineAlloc_small (a + 200) (n := 0 + [backslash, 46].length) (by decide)
    simp only [hp]
    rw [if_neg (by decide), if_neg (by decide), if_neg (by decide), wholeReads, ha']
    simp [EscLines.piece]
  · have hp : EscLines.piece LF ((a + 196) + 1 + 1 + 1) (backslash :: 46 :: LF :: t) = [backslash, 46, LF] := by
      simp [EscLines.piece, Ne.symm LF_ne_backslash, show (46 : UInt8) ≠ LF by decide]
    simp only [hp]
    rw [if_neg (by decide), if_neg (by decide), if_pos (by decide)]
    simp

/-- The lines are those of the whole content, cut at the newlines that do not stand behind an odd
number of backslashes, exactly when nothing of a line is lost and none is empty. -/
theorem readLines_iff (nLineAlloc : Nat) (inp : Bytes) :
    readLines nLineAlloc inp =
        some ((EscLines.lines backslash LF false [] (eols false inp)).takeWhile (· ≠ endMark)) ↔
      Readable nLineAlloc (eols false inp) := by
  generalize htext : eols false inp = text
  fun_induction Readable nLineAlloc text generalizing inp with
  | case1 nLineAlloc =>
    obtain ⟨a, ha⟩ := lineAlloc_small nLineAlloc (n := 0) (by decide)
    rw [readLines_eq, assemble_eof ha (by rw [htext]; rfl)]
    simp [EscLines.lines]
  | case2 nLineAlloc text hne hw =>
    subst htext
    rw [readLines_eq, EscLines.lines_eq _ _ _ (.inr hne), List.nil_append]
    have hmark : (EscLines.cut backslash LF false (eols false inp)).1 ≠ endMark :=
      fun e => wholeReads_endMark nLineAlloc e hw
    rw [List.takeWhile_cons_of_pos (by simpa using hmark)]
    cases hl : assemble nLineAlloc 0 inp with
    | none => simp
    | some l =>
      have hz := assemble_ne hw hl
      simp only [Option.bind_some, iff_false]
      split
      · simp
      · intro e
        obtain ⟨ls, -, he⟩ := Option.map_eq_some_iff.1 e
        exact hz (List.cons.inj he).1
  | case3 nLineAlloc text hne a hw ih =>
    subst htext
    obtain ⟨rest, hl, hrest⟩ := assemble_of_wholeReads (Nat.zero_le _) hw
    rw [readLines_eq, hl, EscLines.lines_eq _ _ _ (.inr hne), List.nil_append, Option.bind_some]
    by_cases hmark : (EscLines.cut backslash LF false (eols false inp)).1 = endMark
    · simp [hmark, endMark]
    · rw [List.takeWhile_cons_of_pos (by simpa using hmark)]
      by_cases hnil : (EscLines.cut backslash LF false (eols false inp)).1 = []
      · simp [hnil]
      · simp [hnil, hmark, ← ih rest hrest]

/-- A backslash that is the last byte of the first read, and its newline the first of the next. -/
theorem readLines_fails : ¬∀ inp, readLines 0 inp =
    some ((EscLines.lines backslash LF false [] (eols false inp)).takeWhile (· ≠ endMark)) := by
  intro h
  have hread : (fgets (300 - 0 - 1) (List.replicate 298 97 ++ [backslash, LF, 98])).2 = [LF, 98] := by
    decide +kernel
  have hnext : assemble 300 (0 + (List.replicate 298 (97 : UInt8)).length) [LF, 98] =
      some ⟨[], 900, [98]⟩ := by
    rw [List.length_replicate, assemble]
    rfl
  have hline : assemble 0 0 (List.replicate 298 97 ++ [backslash, LF, 98]) =
      some ⟨List.replicate 298 97 ++ [], 900, [98]⟩ := by
    rw [assemble_next (a := 300) (q := List.replicate 298 97) rfl (by decide +kernel) (by decide +kernel),
      hread, hnext]
    rfl
  have hcut : (EscLines.lines backslash LF false [] (eols false
      (List.replicate 298 97 ++ [backslash, LF, 98]))).takeWhile (· ≠ endMark) =
      [List.replicate 298 97 ++ [backslash, LF, 98]] := by decide +kernel
  have hfile := h (List.replicate 298 97 ++ [backslash, LF, 98])
  rw [readLines_eq, hline, hcut, Option.bind_some, if_neg (by decide +kernel)] at hfile
  obtain ⟨ls, -, he⟩ := Option.map_eq_some_iff.1 hfile
  have hlen := congrArg List.length (List.cons.inj he).1
  rw [List.length_append, List.length_append, List.length_replicate] at hlen
  exact absurd hlen (by decide)

end FileRead
end Dbsql.L3
