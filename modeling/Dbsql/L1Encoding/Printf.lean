import Dbsql.L1Encoding.RealText
/-!
# `__et_printf` and `xvprintf` (clib/xvprintf.c:172-819)

`__et_printf` hands the text of a format to the function `func`, in pieces. `bufpt` and `length` say
where the text of the conversion is and how long it is: they stay from one conversion to the next,
and so does the buffer, which holds the text of the conversions that make one. What `bufpt` points
to may be gone when it is read; a byte that is read from such a place, or from where nothing was
written, is `none`.

`func` is `__mout`, which appends (`out`, `Sink.mout_pieces`). A format that asks for an argument of
another type than the next one, a write outside the buffer and a store through a null pointer end
the run (`Stop`).

`Parts` divides a format that has only letters of the table into its literal characters and its
conversions with their arguments.

Results:
* `convert_emits`: from any state a conversion hands over its own text.
* `etPrintf_quotes_iff`: a format is rendered part by part exactly when its texts for SQL fit.
* `etPrintf_counts`: what is handed over is counted.
* `xvprintf_parts`: the string of a format.
-/
namespace Dbsql.L1.Printf
open Dbsql.L1

/-! ## Texts -/

/-- The `do` loop of the digits, which are put in front of those that are there. -/
def radixDigits (cset : Bytes) (base : Nat) : Nat → Nat → Bytes → Bytes
  | 0, _, text => text
  | n + 1, v, text =>
    let text := cset.getD (v % base) 0 :: text
    if 0 < v / base then radixDigits cset base n (v / base) text else text

/-- `Zero pad`. -/
def zeroPad (precision : Int) (text : Bytes) : Bytes :=
  List.replicate (int32 (precision - text.length)).toNat 48 ++ text

/-- `Add "0" or "0x"`: the letters of `prefix`, each put in front. -/
def pushPre (pre text : Bytes) : Bytes :=
  if pre ≠ [] ∧ peek text ≠ peek pre then pre.reverse ++ text else text

/-- The text of an integer (xvprintf.c:344-411). -/
def radixText (sp : Spec) (info : EtInfo) (longvalue : BitVec 64) : Bytes :=
  let alternateform := sp.alternateform && !(longvalue = 0 && info.base = 8)
  let neg := info.signed && longvalue.slt 0
  let sign := if info.signed then signOf sp neg else []
  let longvalue := if neg then -longvalue else longvalue
  let least := int32 (sp.width - sign.length)
  let precision := if sp.zeropad ∧ sp.precision < least then least else sp.precision
  -- a `long` has at most 64 digits
  let digits := radixDigits info.charset info.base 64 longvalue.toNat []
  let text := sign ++ zeroPad precision digits
  if alternateform then pushPre info.pre text else text

/-- `if (precision >= 0 && precision < length) length = precision`. -/
def cut (sp : Spec) (length : Int) : Int :=
  if 0 ≤ sp.precision ∧ sp.precision < length then sp.precision else length

/-- The second pass of `%q`: each quote twice. -/
def copyEscaped : Bytes → Bytes
  | [] => []
  | c :: z => if c = 39 then c :: c :: copyEscaped z else c :: copyEscaped z

/-- The text of `%q` and `%Q`. -/
def escaped (info : EtInfo) (z : Option Bytes) : Bytes :=
  let isnull := z.isNone
  let arg := z.getD (if info.type = .sqlEscape2 then ascii "NULL" else ascii "(NULL)")
  let quote := if !isnull ∧ info.type = .sqlEscape2 then [39] else []
  quote ++ copyEscaped arg ++ quote

/-- The first pass: `n`. -/
def escapedSize (info : EtInfo) (z : Option Bytes) : Nat :=
  let isnull := z.isNone
  let arg := z.getD (if info.type = .sqlEscape2 then ascii "NULL" else ascii "(NULL)")
  arg.count 39 + (arg.length + 1 + if !isnull ∧ info.type = .sqlEscape2 then 2 else 0)

/-- The character of `%c`, as often as the precision says. -/
def charText (sp : Spec) (i : CInt) : Bytes :=
  List.replicate (if 0 ≤ sp.precision then sp.precision.toNat else 1) (UInt8.ofNat i.toNat)

/-! ## The state -/

/-- What `bufpt` points to: a place in the format, in the buffer or in a string, or memory that has
been freed. -/
inductive Ptr
  | null
  | fmt (z : Bytes)
  | buf (i : Nat)
  | str (z : Bytes)
  | freed
  deriving DecidableEq, Repr

/-- The variables that last from one conversion to the next, the text that was handed over, and the
integers that `%n` stored. -/
structure St where
  bufpt : Ptr := .null
  length : Int := 0
  count : Int := 0
  errorflag : Bool := false
  buf : List (Option UInt8) := List.replicate 1024 none
  out : List (Option UInt8) := []
  stored : List Int := []
  deriving DecidableEq, Repr

/-- What ends a run before the end of the format. -/
inductive Stop
  /-- `va_arg` of a type that the next argument does not have -/
  | badArg
  /-- a write outside the buffer -/
  | outside
  /-- a read of `charset[0]` where there is none -/
  | noCharset
  /-- `__dbsql_calloc` stores its result through `extra`, which is null -/
  | nullStore
  /-- `return -1` when there is no memory -/
  | noMemory (st : St)
  deriving DecidableEq, Repr

/-- `length` bytes from `bufpt`. -/
def St.read (st : St) (n : Nat) : List (Option UInt8) :=
  match st.bufpt with
  | .null | .freed => List.replicate n none
  | .fmt z | .str z => ((z ++ [0]).map some ++ List.replicate n none).take n
  | .buf i => (st.buf.drop i ++ List.replicate n none).take n

/-- `(*func)(arg, …)`, and the bytes are counted. -/
def St.emit (st : St) (text : List (Option UInt8)) : St :=
  { st with out := st.out ++ text, count := int32 (st.count + text.length) }

/-- `text` is written into the buffer from `i` on, and `bufpt` set to it. Up to `written` the buffer
was written too. -/
def St.put (st : St) (i : Nat) (text : Bytes) (written : Nat) : Except Stop St :=
  if i + written ≤ 1024 then
    .ok { st with
      buf := st.buf.take i ++ text.map some ++ List.replicate (written - text.length) none ++
        st.buf.drop (i + max written text.length)
      bufpt := .buf i }
  else .error .outside

/-- `__et_printf` has two loops that hand over spaces, 120 at a time. -/
def spaces (nspace : Nat) : List (Option UInt8) :=
  if h : 120 ≤ nspace then List.replicate 120 (some 32) ++ spaces (nspace - 120)
  else List.replicate nspace (some 32)
termination_by nspace

/-! ## One conversion -/

/-- The type of the argument that a conversion takes. -/
def Arg.suits (sp : Spec) (info : EtInfo) : Arg → Bool
  | .int _ => info.type = .radix && !sp.long || info.type = .charX
  | .long _ => info.type = .radix && sp.long
  | .double _ => info.type = .float || info.type = .exp || info.type = .generic
  | .str _ => info.type = .string || info.type = .dynString || info.type = .sqlEscape ||
      info.type = .sqlEscape2
  | .intPtr => info.type = .size

/-- The argument of a conversion; `%%` has none. -/
def takeArg (sp : Spec) (info : EtInfo) (args : List Arg) : Option (Option Arg × List Arg) :=
  if info.type = .percent then some (none, args)
  else
    match args with
    | a :: args => if a.suits sp info then some (some a, args) else none
    | [] => none

/-- The `unsigned long` that an integer argument becomes. -/
def longvalue : Arg → BitVec 64
  | .long l => l
  | .int i => i.signExtend 64
  | _ => 0

/-- `bufpt` and `length` after a conversion of a `double`. -/
def St.real (st : St) : RealOut → Except Stop St
  | .nan => .ok { st with bufpt := .str (ascii "NaN"), length := 3 }
  | .noCharset => .error .noCharset
  | .text z written => (st.put 0 z written).map ({ · with length := z.length })

section
variable {L : Type} (m : RealMachine L) (enomem : Bool)

/-- The `switch` on the type: `bufpt`, `length` and the buffer for the argument `a`. -/
def convert (sp : Spec) (info : EtInfo) (a : Option Arg) (st : St) : Except Stop St :=
  match info.type, a with
  | .radix, some a =>
    let text := radixText sp info (longvalue a)
    if 1024 < text.length then .error .outside
    else (st.put (1024 - text.length) text text.length).map ({ · with length := text.length })
  | .float, some (.double r) | .exp, some (.double r) | .generic, some (.double r) =>
    st.real (realText m sp info r)
  | .size, some .intPtr => .ok { st with stored := st.stored ++ [st.count], length := 0 }
  | .percent, _ => (st.put 0 [37] 1).map ({ · with length := 1 })
  | .charX, some (.int i) =>
    (st.put 0 (charText sp i) (max 1 (charText sp i).length)).map
      ({ · with length := if 0 ≤ sp.precision then sp.precision else 1 })
  | .string, some (.str z) | .dynString, some (.str z) =>
    let z := z.getD []
    .ok { st with bufpt := .str z, length := cut sp (int32 z.length) }
  | .sqlEscape, some (.str z) | .sqlEscape2, some (.str z) =>
    if 1024 < int32 (escapedSize info z) then .error (if enomem then .noMemory st else .nullStore)
    else
      let text := escaped info z
      (st.put 0 text (text.length + 1)).map ({ · with length := cut sp (int32 text.length) })
  | _, _ => .error .badArg

/-- The spaces of one side. -/
def St.pad (st : St) (width : Int) : St :=
  let nspace := int32 (width - st.length)
  if 0 < nspace then st.emit (spaces nspace.toNat) else st

/-- The output that all conversions share (xvprintf.c:712-748). -/
def St.tail (st : St) (leftjustify : Bool) (width : Int) : St :=
  let st := if leftjustify then st else st.pad width
  let st := if 0 < st.length then st.emit (st.read st.length.toNat) else st
  if leftjustify then st.pad width else st

/-- `%n` sets the width to 0. -/
def widthOf (sp : Spec) (info : EtInfo) : Int := if info.type = .size then 0 else sp.width

/-- The string of `%z` is freed. -/
def St.free (st : St) (info : EtInfo) (a : Option Arg) : St :=
  match info.type, a with
  | .dynString, some (.str (some _)) => { st with bufpt := .freed }
  | _, _ => st

/-- `etERROR` (xvprintf.c:697-706): `func` is given the constant `%` and one or two bytes of it. -/
def St.unknown (st : St) (c : UInt8) : St :=
  let st := { st with buf := (st.buf.set 0 (some 37)).set 1 (some c), errorflag := false }
  st.emit (if c ≠ 0 then [some 37, some 0] else [some 37])

/-! ## The loop -/

/-- `return errorflag ? -1 : count`, with what was handed over and stored. -/
structure Result where
  ret : Int
  out : List (Option UInt8)
  stored : List Int
  deriving DecidableEq, Repr

def St.finish (st : St) : Result :=
  ⟨if st.errorflag then -1 else st.count, st.out, st.stored⟩

/-- The characters before a `%` or the end. -/
def St.literal (st : St) (z : Bytes) : St :=
  let text := z.takeWhile (· ≠ 37)
  if text = [] then st else { st with bufpt := .fmt z }.emit (text.map some)

/-- The loop over the format; every round takes at least one character of it. -/
def loop : Nat → Bytes → List Arg → St → Except Stop Result
  | 0, _, _, st => .ok st.finish
  | n + 1, z, args, st =>
    let st := st.literal z
    match z.dropWhile (· ≠ 37) with
    | [] => .ok st.finish
    | [_] => .ok ({ st with errorflag := true }.emit [some 37]).finish
    | _ :: z =>
      match readSpec z args with
      | none => .error .badArg
      | some (sp, z, args) =>
        match infoOf (peek z) with
        | none => loop n z.tail args ((st.unknown (peek z)).tail sp.leftjustify sp.width)
        | some info =>
          match takeArg sp info args with
          | none => .error .badArg
          | some (a, args) =>
            match convert m enomem sp info a st with
            | .error e => .error e
            | .ok st =>
              loop n z.tail args ((st.tail sp.leftjustify (widthOf sp info)).free info a)

/-- `__et_printf`. -/
def etPrintf (fmt : Bytes) (args : List Arg) : Except Stop Result :=
  loop m enomem (fmt.length + 1) fmt args {}

end

/-! ## Parts of a format -/

/-- A character of the format, a conversion with its argument, or a `%` with nothing behind it. -/
inductive Part
  | lit (c : UInt8)
  | conv (sp : Spec) (info : EtInfo) (a : Option Arg)
  | lone
  deriving DecidableEq, Repr

/-- The parts of a format for these arguments. -/
inductive Parts : Bytes → List Arg → List Part → Prop
  | nil (args : List Arg) : Parts [] args []
  | lone (args : List Arg) : Parts [37] args [.lone]
  | lit {c : UInt8} {z : Bytes} {args : List Arg} {ps : List Part} : c ≠ 37 → Parts z args ps →
      Parts (c :: z) args (.lit c :: ps)
  | conv {z z' : Bytes} {args args' args'' : List Arg} {sp : Spec} {info : EtInfo} {a : Option Arg}
      {ps : List Part} : z ≠ [] → readSpec z args = some (sp, z', args') →
      infoOf (peek z') = some info → takeArg sp info args' = some (a, args'') →
      Parts z'.tail args'' ps → Parts (37 :: z) args (.conv sp info a :: ps)

/-- A text in its field. -/
def Spec.field (sp : Spec) (text : Bytes) : Bytes :=
  let fill := List.replicate (sp.width - text.length).toNat 32
  if sp.leftjustify then text ++ fill else fill ++ text

/-- A text up to the precision. -/
def Spec.limit (sp : Spec) (z : Bytes) : Bytes :=
  if 0 ≤ sp.precision then z.take sp.precision.toNat else z

/-- A text for SQL: every quote twice; `%Q` puts it in quotes, and knows NULL. -/
def quoted (info : EtInfo) : Option Bytes → Bytes
  | none => if info.type = .sqlEscape2 then ascii "NULL" else ascii "(NULL)"
  | some z =>
    let doubled := z.flatMap fun c => if c = 39 then [39, 39] else [c]
    if info.type = .sqlEscape2 then 39 :: doubled ++ [39] else doubled

/-- The text of a conversion of a `double`. -/
def RealOut.shown : RealOut → Bytes
  | .nan => ascii "NaN"
  | .noCharset => []
  | .text z _ => z

/-- What `%n` stores after `n` characters. -/
def Part.stored (n : Nat) : Part → List Int
  | .conv _ info _ => if info.type = .size then [int32 n] else []
  | _ => []

section
variable {L : Type} (m : RealMachine L)

/-- The text of a conversion, without its field. -/
def convText (sp : Spec) (info : EtInfo) (a : Option Arg) : Bytes :=
  match info.type, a with
  | .radix, some a => radixText sp info (longvalue a)
  | .float, some (.double r) | .exp, some (.double r) | .generic, some (.double r) =>
    (realText m sp info r).shown
  | .percent, _ => [37]
  | .charX, some (.int i) => charText sp i
  | .string, some (.str z) | .dynString, some (.str z) => sp.limit (z.getD [])
  | .sqlEscape, some (.str z) | .sqlEscape2, some (.str z) => sp.limit (quoted info z)
  | _, _ => []

/-- The text of a part; `%n` has none. -/
def Part.text : Part → Bytes
  | .lit c => [c]
  | .conv sp info a => if info.type = .size then [] else sp.field (convText m sp info a)
  | .lone => [37]

/-- What the `%n`s among the parts store, after `n` characters. -/
def storedBy : Nat → List Part → List Int
  | _, [] => []
  | n, p :: ps => p.stored n ++ storedBy (n + (p.text m).length) ps

/-- What is asked of `__et_printf`. -/
def rendering (ps : List Part) : Result :=
  let text := ps.flatMap (Part.text m)
  ⟨if .lone ∈ ps then -1 else int32 text.length, text.map some, storedBy m 0 ps⟩

/-- The numbers of the specification are in range, a string has a length, and a text of `%f` is in
fixed notation. -/
def Part.InRange : Part → Prop
  | .conv sp info a => 0 ≤ sp.width ∧ -1 ≤ sp.precision ∧
      (∀ z, a = some (.str (some z)) → z.length < 2 ^ 31) ∧
      ∀ r, a = some (.double r) → realText m sp info r ≠ .noCharset
  | _ => True

/-- A text for SQL fits the buffer. -/
def Part.EscapeFits : Part → Prop
  | .conv _ info (some (.str z)) =>
    info.type = .sqlEscape ∨ info.type = .sqlEscape2 → escapedSize info z ≤ 1024
  | _ => True

end

/-! ## Small facts -/

theorem int32_add (x y : Int) : int32 (int32 x + y) = int32 (x + y) := Int.bmod_add_bmod

theorem spaces_eq (n : Nat) : spaces n = List.replicate n (some 32) := by
  induction n using Nat.strongRecOn with
  | _ n ih =>
    unfold spaces
    split
    · rename_i h
      rw [ih (n - 120) (by omega), List.replicate_append_replicate]
      congr 1
      omega
    · rfl

theorem copyEscaped_eq (z : Bytes) :
    copyEscaped z = z.flatMap fun c => if c = 39 then [39, 39] else [c] := by
  induction z with
  | nil => rfl
  | cons c z ih =>
    rw [copyEscaped, List.flatMap_cons, ih]
    split
    · rename_i h
      rw [h]
      rfl
    · rfl

theorem copyEscaped_length (z : Bytes) : (copyEscaped z).length = z.count 39 + z.length := by
  induction z with
  | nil => rfl
  | cons c z ih =>
    rw [copyEscaped, List.count_cons, List.length_cons]
    by_cases h : c = 39
    · rw [if_pos h, List.length_cons, List.length_cons, ih, if_pos (by simp [h])]
      omega
    · rw [if_neg h, List.length_cons, ih, if_neg (by simp [h])]
      omega

/-- The two passes agree. -/
theorem escaped_length (info : EtInfo) (z : Option Bytes) :
    (escaped info z).length + 1 = escapedSize info z := by
  unfold escaped escapedSize
  dsimp only
  simp only [List.length_append, copyEscaped_length]
  split
  · rw [List.length_singleton]
    omega
  · rw [List.length_nil]
    omega

theorem escaped_eq (info : EtInfo) (z : Option Bytes) : escaped info z = quoted info z := by
  cases z with
  | none =>
    unfold escaped quoted
    by_cases h : info.type = .sqlEscape2
    · simp only [if_pos h]
      rfl
    · simp only [if_neg h]
      rfl
  | some z =>
    unfold escaped quoted
    dsimp only
    rw [← copyEscaped_eq]
    by_cases h : info.type = .sqlEscape2
    · simp [h]
    · simp [h]

/-! ## One conversion -/

section
variable {L : Type} {m : RealMachine L} {enomem : Bool} {sp : Spec} {info : EtInfo} {a : Option Arg}
  {st : St}

/-- Between conversions: nothing is known of `bufpt` and `length`. -/
structure St.Ok (st : St) : Prop where
  buf : st.buf.length = 1024
  count : st.count = int32 st.out.length
  noerror : st.errorflag = false

/-- After the `switch`: the text is where `bufpt` points, and nothing was handed over. -/
structure Made (st st' : St) (text : Bytes) (stored : List Int) : Prop where
  ok : st'.Ok
  length : st'.length = text.length
  short : text.length < 2 ^ 31
  read : st'.read text.length = text.map some
  out : st'.out = st.out
  stored : st'.stored = st.stored ++ stored

/-- The buffer after a text was put into it. -/
theorem put_ok (hst : st.Ok) {i : Nat} {text : Bytes} {written : Nat} (hle : text.length ≤ written)
    (hfit : i + written ≤ 1024) (n : Nat) (hn : n ≤ text.length) :
    ∃ st', (st.put i text written).map ({ · with length := (n : Int) }) = .ok st' ∧
      Made st st' (text.take n) [] := by
  unfold St.put
  rw [if_pos hfit]
  refine ⟨_, rfl, ?_⟩
  have hbuf := hst.buf
  constructor
  · refine ⟨?_, hst.count, hst.noerror⟩
    simp only [List.length_append, List.length_take, List.length_map, List.length_replicate,
      List.length_drop]
    omega
  · rw [List.length_take, Nat.min_eq_left hn]
  · rw [List.length_take]
    omega
  · have htake : (st.buf.take i).length = i := by
      rw [List.length_take]
      omega
    rw [List.length_take, Nat.min_eq_left hn]
    unfold St.read
    dsimp only
    rw [List.append_assoc, List.append_assoc, List.drop_append_of_le_length htake.ge,
      List.drop_of_length_le htake.le, List.nil_append, List.append_assoc,
      List.take_append_of_le_length (by rw [List.length_map]; exact hn), List.map_take]
  · rfl
  · exact (List.append_nil _).symm

/-! ### Lengths -/

theorem radixDigits_length (cset : Bytes) (base : Nat) (n v : Nat) (text : Bytes) :
    (radixDigits cset base n v text).length ≤ n + text.length := by
  induction n generalizing v text with
  | zero => exact Nat.le_add_left _ _
  | succ n ih =>
    unfold radixDigits
    dsimp only
    split
    · have := ih (v / base) (cset.getD (v % base) 0 :: text)
      rw [List.length_cons] at this
      omega
    · rw [List.length_cons]
      omega

theorem infoOf_mem {c : UInt8} (h : infoOf c = some info) : info ∈ fmtinfo :=
  List.mem_of_find?_eq_some h

theorem pre_length (h : info ∈ fmtinfo) : info.pre.length ≤ 2 := by
  have hall : ∀ info ∈ fmtinfo, info.pre.length ≤ 2 := by decide +kernel
  exact hall info h

theorem pushPre_length (pre text : Bytes) :
    (pushPre pre text).length ≤ pre.length + text.length := by
  unfold pushPre
  split
  · rw [List.length_append, List.length_reverse]
  · exact Nat.le_add_left _ _

/-- An integer fits the buffer. -/
theorem radixText_length (hw : 0 ≤ sp.width) (hw' : sp.width ≤ 1014) (hp : -1 ≤ sp.precision)
    (hp' : sp.precision ≤ 984) (hinfo : info ∈ fmtinfo) (v : BitVec 64) :
    (radixText sp info v).length ≤ 1024 := by
  have hpre := pre_length hinfo
  unfold radixText
  dsimp only
  generalize (if (info.signed && v.slt 0) = true then -v else v) = v'
  have hsign : (if info.signed = true then signOf sp (info.signed && v.slt 0) else []).length ≤
      1 := by
    split
    · exact signOf_length sp _
    · exact Nat.zero_le 1
  generalize (if info.signed = true then signOf sp (info.signed && v.slt 0) else []) =
    sign at hsign ⊢
  have hleast : int32 (sp.width - sign.length) = sp.width - sign.length :=
    int32_of (by omega) (by omega)
  have hdigits := radixDigits_length info.charset info.base 64 v'.toNat []
  rw [List.length_nil, Nat.add_zero] at hdigits
  generalize radixDigits info.charset info.base 64 v'.toNat [] = digits at hdigits ⊢
  have htext : ∀ p : Int, -1 ≤ p → p ≤ 1014 → (sign ++ zeroPad p digits).length ≤ 1015 := by
    intro p h0 h1
    unfold zeroPad
    rw [int32_of (by omega) (by omega)]
    simp only [List.length_append, List.length_replicate]
    omega
  have hprec := htext (if sp.zeropad = true ∧ sp.precision < int32 (sp.width - sign.length) then
    int32 (sp.width - sign.length) else sp.precision) (by split <;> omega) (by split <;> omega)
  generalize (sign ++ zeroPad
    (if sp.zeropad = true ∧ sp.precision < int32 (sp.width - sign.length) then
    int32 (sp.width - sign.length) else sp.precision) digits) = text at hprec ⊢
  have hpush := pushPre_length info.pre text
  split
  · omega
  · omega

theorem take_limit (sp : Spec) (z : Bytes) : z.take (sp.limit z).length = sp.limit z := by
  unfold Spec.limit
  split
  · rw [List.length_take, List.take_eq_take_iff]
    omega
  · exact List.take_of_length_le (Nat.le_refl _)

theorem cut_limit (sp : Spec) {z : Bytes} (h : z.length < 2 ^ 31) :
    cut sp (int32 z.length) = (sp.limit z).length := by
  rw [int32_of (by omega) (by omega)]
  unfold cut Spec.limit
  split
  · rw [if_pos (by omega), List.length_take]
    omega
  · rename_i hn
    split
    · rw [List.length_take]
      omega
    · rfl

theorem limit_length (sp : Spec) (z : Bytes) : (sp.limit z).length ≤ z.length := by
  unfold Spec.limit
  split
  · rw [List.length_take]
    omega
  · exact Nat.le_refl _

theorem charText_length (sp : Spec) (i : CInt) :
    ((charText sp i).length : Int) = if 0 ≤ sp.precision then sp.precision else 1 := by
  unfold charText
  rw [List.length_replicate]
  split
  · omega
  · rfl

/-! ### The switch -/

/-- A text that fits the buffer is made there. -/
theorem put_made (hst : st.Ok) {i : Nat} {text : Bytes} {written : Nat} (hle : text.length ≤ written)
    (hfit : i + written ≤ 1024) :
    ∃ st', (st.put i text written).map ({ · with length := (text.length : Int) }) = .ok st' ∧
      Made st st' text [] := by
  have h := put_ok hst hle hfit text.length (Nat.le_refl _)
  rw [List.take_of_length_le (Nat.le_refl _)] at h
  exact h

theorem string_made (hst : st.Ok) {z : Bytes} (hz : z.length < 2 ^ 31) :
    Made st { st with bufpt := .str z, length := cut sp (int32 z.length) } (sp.limit z) [] := by
  have hlen := limit_length sp z
  constructor
  · exact ⟨hst.buf, hst.count, hst.noerror⟩
  · exact cut_limit sp hz
  · omega
  · unfold St.read
    dsimp only
    rw [List.map_append, List.append_assoc,
      List.take_append_of_le_length (by rw [List.length_map]; exact hlen), ← List.map_take,
      take_limit]
  · rfl
  · exact (List.append_nil _).symm

theorem takeArg_cases {args args' : List Arg} (ha : takeArg sp info args = some (a, args')) :
    info.type = .percent ∧ a = none ∨ ∃ x, a = some x ∧ x.suits sp info = true := by
  unfold takeArg at ha
  split at ha
  · cases ha
    exact .inl ⟨‹_›, rfl⟩
  · split at ha
    · split at ha
      · cases ha
        exact .inr ⟨_, rfl, ‹_›⟩
      · cases ha
    · cases ha

theorem radix_made (enomem : Bool) (hst : st.Ok) (hinfo : info ∈ fmtinfo) (hw : 0 ≤ sp.width)
    (hw' : sp.width ≤ 1014)
    (hp : -1 ≤ sp.precision) (hp' : sp.precision ≤ 984) (htype : info.type = .radix) (x : Arg) :
    ∃ st', convert m enomem sp info (some x) st = .ok st' ∧
      Made st st' (convText m sp info (some x)) [] := by
  have hlen := radixText_length hw hw' hp hp' hinfo (longvalue x)
  have hfit : 1024 - (radixText sp info (longvalue x)).length +
      (radixText sp info (longvalue x)).length ≤ 1024 := by
    omega
  have hmade := put_made hst (Nat.le_refl (radixText sp info (longvalue x)).length) hfit
  unfold convert convText
  rw [htype]
  dsimp only
  rw [if_neg (Nat.not_lt.2 hlen)]
  exact hmade

theorem real_made (enomem : Bool) (hst : st.Ok) (hw' : sp.width ≤ 1014)
    (hp' : sp.precision ≤ 984) {r : Double}
    (hreal : realText m sp info r ≠ .noCharset)
    (htype : info.type = .float ∨ info.type = .exp ∨ info.type = .generic) :
    ∃ st', convert m enomem sp info (some (.double r)) st = .ok st' ∧
      Made st st' (convText m sp info (some (.double r))) [] := by
  have hfits := realText_fits (m := m) hw' hp' info r
  have hmade : ∃ st', st.real (realText m sp info r) = .ok st' ∧
      Made st st' (realText m sp info r).shown [] := by
    cases hout : realText m sp info r with
    | noCharset => exact absurd hout hreal
    | nan =>
      refine ⟨_, rfl, ⟨hst.buf, hst.count, hst.noerror⟩,
        rfl, by decide, rfl, rfl, (List.append_nil _).symm⟩
    | text z written =>
      rw [hout] at hfits
      exact put_made hst hfits.1 (by have := hfits.2; omega)
  unfold convert convText
  rcases htype with h | h | h
  · rw [h]
    exact hmade
  · rw [h]
    exact hmade
  · rw [h]
    exact hmade

theorem char_made (hst : st.Ok) (hp : -1 ≤ sp.precision) (hp' : sp.precision ≤ 984) (i : CInt) :
    ∃ st', (st.put 0 (charText sp i) (max 1 (charText sp i).length)).map
        ({ · with length := if 0 ≤ sp.precision then sp.precision else 1 }) = .ok st' ∧
      Made st st' (charText sp i) [] := by
  have hlen := charText_length sp i
  have hfit : 0 + max 1 (charText sp i).length ≤ 1024 := by
    split at hlen
    · omega
    · omega
  rw [← hlen]
  exact put_made hst (Nat.le_max_right _ _) hfit

/-- A text for SQL, when it fits. -/
theorem escape_made (sp : Spec) (hst : st.Ok) {z : Option Bytes} (hfit : escapedSize info z ≤ 1024) :
    ¬ 1024 < int32 (escapedSize info z) ∧
    ∃ st', (st.put 0 (escaped info z) ((escaped info z).length + 1)).map
        ({ · with length := cut sp (int32 (escaped info z).length) }) = .ok st' ∧
      Made st st' (sp.limit (quoted info z)) [] := by
  have hsize := escaped_length info z
  refine ⟨by rw [int32_of (by omega) (by omega)]; omega, ?_⟩
  have hput := put_ok hst (Nat.le_succ (escaped info z).length) (i := 0) (by omega) _
    (limit_length sp (escaped info z))
  rw [take_limit] at hput
  rw [cut_limit sp (by omega), ← escaped_eq]
  exact hput

/-- **The `switch` makes the text of the conversion.** -/
theorem convert_made (enomem : Bool) (hst : st.Ok) (hinfo : info ∈ fmtinfo) (hw' : sp.width ≤ 1014)
    (hp' : sp.precision ≤ 984) {args args' : List Arg} (ha : takeArg sp info args = some (a, args'))
    (hr : Part.InRange m (.conv sp info a)) (he : Part.EscapeFits (.conv sp info a)) :
    ∃ st', convert m enomem sp info a st = .ok st' ∧
      Made st st' (if info.type = .size then [] else convText m sp info a)
        (if info.type = .size then [st.count] else []) := by
  obtain ⟨hw, hp, hstr, hreal⟩ := hr
  -- all conversions but `%n`
  have hother : info.type ≠ .size → (∃ st', convert m enomem sp info a st = .ok st' ∧
      Made st st' (convText m sp info a) []) → ∃ st', convert m enomem sp info a st = .ok st' ∧
      Made st st' (if info.type = .size then [] else convText m sp info a)
        (if info.type = .size then [st.count] else []) := by
    intro hne h
    rw [if_neg hne, if_neg hne]
    exact h
  have hne : ∀ {t : EtType}, info.type = t → t ≠ .size → info.type ≠ .size := by
    intro t h ht hs
    exact ht (h.symm.trans hs)
  rcases takeArg_cases ha with ⟨ht, rfl⟩ | ⟨x, rfl, hs⟩
  · refine hother (hne ht nofun) ?_
    unfold convert convText
    rw [ht]
    exact put_made hst (by decide : [(37 : UInt8)].length ≤ 1) (by decide)
  cases x with
  | int i =>
    rw [Arg.suits, Bool.or_eq_true, Bool.and_eq_true, decide_eq_true_eq, decide_eq_true_eq] at hs
    rcases hs with ⟨ht, -⟩ | ht
    · exact hother (hne ht nofun) (radix_made enomem hst hinfo hw hw' hp hp' ht _)
    · refine hother (hne ht nofun) ?_
      unfold convert convText
      rw [ht]
      exact char_made hst hp hp' i
  | long l =>
    rw [Arg.suits, Bool.and_eq_true, decide_eq_true_eq] at hs
    exact hother (hne hs.1 nofun) (radix_made enomem hst hinfo hw hw' hp hp' hs.1 _)
  | double r =>
    rw [Arg.suits, Bool.or_eq_true, Bool.or_eq_true, decide_eq_true_eq, decide_eq_true_eq,
      decide_eq_true_eq, or_assoc] at hs
    have hmade := real_made enomem hst hw' hp' (hreal r rfl) hs
    rcases hs with ht | ht | ht
    · exact hother (hne ht nofun) hmade
    · exact hother (hne ht nofun) hmade
    · exact hother (hne ht nofun) hmade
  | intPtr =>
    have ht : info.type = .size := of_decide_eq_true hs
    rw [if_pos ht, if_pos ht]
    unfold convert
    rw [ht]
    exact ⟨_, rfl, ⟨hst.buf, hst.count, hst.noerror⟩,
      rfl, by decide, by cases st.bufpt <;> rfl, rfl, rfl⟩
  | str z =>
    have hlen : (z.getD []).length < 2 ^ 31 := by
      cases z with
      | none => decide
      | some z => exact hstr z rfl
    simp only [Arg.suits, Bool.or_eq_true, decide_eq_true_eq] at hs
    rcases hs with ((ht | ht) | ht) | ht
    · refine hother (hne ht nofun) ?_
      unfold convert convText
      rw [ht]
      exact ⟨_, rfl, string_made hst hlen⟩
    · refine hother (hne ht nofun) ?_
      unfold convert convText
      rw [ht]
      exact ⟨_, rfl, string_made hst hlen⟩
    · have hmade := escape_made sp hst (he (.inl ht))
      refine hother (hne ht nofun) ?_
      unfold convert convText
      rw [ht]
      dsimp only
      rw [if_neg hmade.1]
      exact hmade.2
    · have hmade := escape_made sp hst (he (.inr ht))
      refine hother (hne ht nofun) ?_
      unfold convert convText
      rw [ht]
      dsimp only
      rw [if_neg hmade.1]
      exact hmade.2

/-! ### The output -/

theorem emit_ok (hst : st.Ok) (text : List (Option UInt8)) : (st.emit text).Ok := by
  refine ⟨hst.buf, ?_, hst.noerror⟩
  unfold St.emit
  dsimp only
  rw [hst.count, int32_add, List.length_append, Nat.cast_add]

/-- The spaces that a text of this length is short of the width. -/
theorem pad_eq {st' : St} {width : Int} {n : Nat} (hlen : st'.length = n) (hn : n < 2 ^ 31)
    (hw : 0 ≤ width)
    (hw' : width ≤ 1014) :
    st'.pad width = if 0 < (width - n).toNat then st'.emit
      (List.replicate (width - n).toNat (some 32)) else st' := by
  unfold St.pad
  dsimp only
  rw [hlen, int32_of (by omega) (by omega), spaces_eq]
  by_cases h : 0 < width - n
  · rw [if_pos h, if_pos (by omega)]
  · rw [if_neg h, if_neg (by omega)]

theorem pad_spec {st' : St} {width : Int} {n : Nat} (hlen : st'.length = n) (hn : n < 2 ^ 31)
    (hw : 0 ≤ width)
    (hw' : width ≤ 1014) (hst : st'.Ok) :
    (st'.pad width).Ok ∧ (st'.pad width).length = n ∧ (st'.pad width).bufpt = st'.bufpt ∧
      (st'.pad width).buf = st'.buf ∧ (st'.pad width).stored = st'.stored ∧
      (st'.pad width).out = st'.out ++ (List.replicate (width - n).toNat 32).map some := by
  rw [pad_eq hlen hn hw hw', List.map_replicate]
  split
  · exact ⟨emit_ok hst _, hlen, rfl, rfl, rfl, rfl⟩
  · rename_i h
    have h0 : (width - n).toNat = 0 := by omega
    rw [h0, List.replicate_zero, List.append_nil]
    exact ⟨hst, hlen, rfl, rfl, rfl, rfl⟩

/-- The text itself. -/
theorem text_spec {st' : St} {text : Bytes} (hlen : st'.length = text.length)
    (hread : st'.read text.length = text.map some) (hst : st'.Ok) :
    (if 0 < st'.length then st'.emit (st'.read st'.length.toNat) else st').Ok ∧
      (if 0 < st'.length then st'.emit (st'.read st'.length.toNat) else st').length = text.length ∧
      (if 0 < st'.length then st'.emit (st'.read st'.length.toNat) else st').stored = st'.stored ∧
      (if 0 < st'.length then st'.emit (st'.read st'.length.toNat) else st').out =
        st'.out ++ text.map some := by
  rw [hlen, Int.toNat_natCast, hread]
  split
  · exact ⟨emit_ok hst _, hlen, rfl, rfl⟩
  · rename_i h
    have h0 : text = [] := List.length_eq_zero_iff.1 (by omega)
    rw [h0, List.map_nil, List.append_nil]
    exact ⟨hst, by rw [hlen, h0], rfl, rfl⟩

/-- **The output of a conversion** is its text in its field. -/
theorem tail_spec {st' : St} {text : Bytes} {stored : List Int} (h : Made st st' text stored)
    (left : Bool)
    {width : Int} (hw : 0 ≤ width) (hw' : width ≤ 1014) :
    (st'.tail left width).Ok ∧ (st'.tail left width).stored = st.stored ++ stored ∧
      (st'.tail left width).out = st.out ++
        ((if left then text ++ List.replicate (width - text.length).toNat 32
          else List.replicate (width - text.length).toNat 32 ++ text).map some) := by
  unfold St.tail
  dsimp only
  cases left with
  | true =>
    simp only [if_true]
    obtain ⟨hok, hlen, hstored, hout⟩ := text_spec h.length h.read h.ok
    obtain ⟨hok', -, -, -, hstored', hout'⟩ := pad_spec hlen h.short hw hw' hok
    refine ⟨hok', ?_, ?_⟩
    · rw [hstored', hstored, h.stored]
    · rw [hout', hout, h.out, List.map_append, List.append_assoc]
  | false =>
    simp only [Bool.false_eq_true, if_false]
    obtain ⟨hok, hlen, hptr, hbuf, hstored, hout⟩ := pad_spec h.length h.short hw hw' h.ok
    have hread : (st'.pad width).read text.length = text.map some := by
      rw [← h.read]
      unfold St.read
      rw [hptr, hbuf]
    obtain ⟨hok', -, hstored', hout'⟩ := text_spec hlen hread hok
    refine ⟨hok', ?_, ?_⟩
    · rw [hstored', hstored, h.stored]
    · rw [hout', hout, h.out, List.map_append, List.append_assoc]

theorem free_ok (info : EtInfo) (a : Option Arg) (hst : st.Ok) : (st.free info a).Ok ∧
    (st.free info a).out = st.out ∧
    (st.free info a).stored = st.stored := by
  unfold St.free
  split
  · exact ⟨⟨hst.buf, hst.count, hst.noerror⟩, rfl, rfl⟩
  · exact ⟨hst, rfl, rfl⟩

/-- **A conversion hands over its own text,** whatever was converted before it. -/
theorem convert_emits (enomem : Bool) (hst : st.Ok) (hinfo : info ∈ fmtinfo) (hw' : sp.width ≤ 1014)
    (hp' : sp.precision ≤ 984) {args args' : List Arg} (ha : takeArg sp info args = some (a, args'))
    (hr : Part.InRange m (.conv sp info a)) (he : Part.EscapeFits (.conv sp info a)) :
    ∃ st', convert m enomem sp info a st = .ok st' ∧
      ((st'.tail sp.leftjustify (widthOf sp info)).free info a).Ok ∧
      ((st'.tail sp.leftjustify (widthOf sp info)).free info a).out =
        st.out ++ ((Part.conv sp info a).text m).map some ∧
      ((st'.tail sp.leftjustify (widthOf sp info)).free info a).stored =
        st.stored ++ if info.type = .size then [st.count] else [] := by
  obtain ⟨st', hc, hmade⟩ := convert_made enomem hst hinfo hw' hp' ha hr he
  have hw := hr.1
  have hwidth : 0 ≤ widthOf sp info ∧ widthOf sp info ≤ 1014 := by
    unfold widthOf
    split
    · decide
    · exact ⟨hw, hw'⟩
  obtain ⟨hok, hstored, hout⟩ := tail_spec hmade sp.leftjustify hwidth.1 hwidth.2
  obtain ⟨hok', hout', hstored'⟩ := free_ok info a hok
  refine ⟨st', hc, hok', ?_, hstored'.trans hstored⟩
  rw [hout', hout]
  unfold Part.text widthOf Spec.field
  by_cases hs : info.type = .size
  · simp only [if_pos hs, List.length_nil]
    cases sp.leftjustify <;> rfl
  · simp only [if_neg hs]

/-! ## A whole format -/

theorem literal_spec (hst : st.Ok) (z : Bytes) :
    (st.literal z).Ok ∧ (st.literal z).stored = st.stored ∧
      (st.literal z).out = st.out ++ (z.takeWhile (· ≠ 37)).map some := by
  unfold St.literal
  dsimp only
  split
  · rename_i h
    rw [h, List.map_nil, List.append_nil]
    exact ⟨hst, rfl, rfl⟩
  · have hok : ({ st with bufpt := .fmt z } : St).Ok := ⟨hst.buf, hst.count, hst.noerror⟩
    exact ⟨emit_ok hok _, rfl, rfl⟩

theorem finish_ok (hst : st.Ok) : st.finish = ⟨int32 st.out.length, st.out, st.stored⟩ := by
  unfold St.finish
  rw [hst.noerror, hst.count, if_neg Bool.false_ne_true]

/-- Characters that are no `%`, before the rest of the format. -/
theorem takeWhile_literal {pre : Bytes} (hpre : 37 ∉ pre) (z : Bytes) :
    (pre ++ z).takeWhile (· ≠ 37) = pre ++ z.takeWhile (· ≠ 37) ∧
      (pre ++ z).dropWhile (· ≠ 37) = z.dropWhile (· ≠ 37) := by
  constructor
  · apply List.takeWhile_append_of_pos
    intro c hc
    rw [decide_eq_true_eq]
    rintro rfl
    exact hpre hc
  · apply List.dropWhile_append_of_pos
    intro c hc
    rw [decide_eq_true_eq]
    rintro rfl
    exact hpre hc

/-- The literal text in front of a conversion. -/
theorem literal_conv (hst : st.Ok) {pre : Bytes} (hpre : 37 ∉ pre) (z : Bytes) :
    (st.literal (pre ++ 37 :: z)).Ok ∧ (st.literal (pre ++ 37 :: z)).stored = st.stored ∧
      (st.literal (pre ++ 37 :: z)).out = st.out ++ pre.map some := by
  obtain ⟨hok, hstored, hout⟩ := literal_spec hst (pre ++ 37 :: z)
  have htake : (37 :: z).takeWhile (· ≠ 37) = [] := List.takeWhile_cons_of_neg (by decide)
  rw [(takeWhile_literal hpre _).1, htake, List.append_nil] at hout
  exact ⟨hok, hstored, hout⟩

/-- A round of the loop at a conversion. -/
theorem loop_conv (m : RealMachine L) (enomem : Bool) (n : Nat) (st : St) {pre z z' : Bytes}
    {args args' args'' : List Arg} (hpre : 37 ∉ pre) (hz : z ≠ [])
    (hspec : readSpec z args = some (sp, z', args')) (hinfo : infoOf (peek z') = some info)
    (ha : takeArg sp info args' = some (a, args'')) :
    loop m enomem (n + 1) (pre ++ 37 :: z) args st =
      (convert m enomem sp info a (st.literal (pre ++ 37 :: z))).bind fun st =>
        loop m enomem n z'.tail args''
          ((st.tail sp.leftjustify (widthOf sp info)).free info a) := by
  obtain ⟨b, zr, rfl⟩ := List.exists_cons_of_ne_nil hz
  have hdrop : (37 :: b :: zr).dropWhile (· ≠ 37) = 37 :: b :: zr :=
    List.dropWhile_cons_of_neg (by decide)
  rw [loop, (takeWhile_literal hpre _).2, hdrop]
  simp only [hspec, hinfo, ha]
  cases convert m enomem sp info a (st.literal (pre ++ 37 :: b :: zr)) with
  | error e => rfl
  | ok st' => rfl

/-- A conversion takes two characters of the format or more. -/
theorem rest_length {pre z z' : Bytes} {n : Nat} (hz : z ≠ []) (hle : z'.length ≤ z.length)
    (hlen : (pre ++ 37 :: z).length ≤ n) : ∃ k, n = k + 1 ∧ z'.tail.length ≤ k := by
  have hpos := List.length_pos_iff.2 hz
  rw [List.length_append, List.length_cons] at hlen
  refine ⟨n - 1, by omega, ?_⟩
  rw [List.length_tail]
  omega

/-- The result for the parts `ps` after the characters `pre`. -/
def resultAfter (m : RealMachine L) (st : St) (pre : Bytes) (ps : List Part) : Result :=
  let text := pre ++ ps.flatMap (Part.text m)
  ⟨if .lone ∈ ps then -1 else int32 (st.out ++ text.map some).length, st.out ++ text.map some,
    st.stored ++ storedBy m (st.out.length + pre.length) ps⟩

theorem resultAfter_lit (c : UInt8) (pre : Bytes) (ps : List Part) :
    resultAfter m st (pre ++ [c]) ps = resultAfter m st pre (.lit c :: ps) := by
  have hmem : Part.lone ∈ Part.lit c :: ps ↔ Part.lone ∈ ps := by simp
  have hstored : ∀ n, (Part.lit c).stored n = [] := fun _ => rfl
  unfold resultAfter
  rw [List.flatMap_cons, Part.text, List.append_assoc, storedBy, hstored, Part.text,
    List.length_append, List.nil_append, Nat.add_assoc]
  simp only [hmem]

/-- After a conversion the state has its text. -/
theorem resultAfter_conv {st' : St} {pre : Bytes} (ps : List Part)
    (hout : st'.out = st.out ++ pre.map some ++ ((Part.conv sp info a).text m).map some)
    (hstored : st'.stored = st.stored ++ (Part.conv sp info a).stored
      (st.out ++ pre.map some).length) :
    resultAfter m st' [] ps = resultAfter m st pre (.conv sp info a :: ps) := by
  have hmem : Part.lone ∈ Part.conv sp info a :: ps ↔ Part.lone ∈ ps := by simp
  have hlen : st'.out.length = st.out.length + pre.length +
      ((Part.conv sp info a).text m).length := by
    rw [hout, List.length_append, List.length_append, List.length_map, List.length_map]
  have htext : st'.out ++ (ps.flatMap (Part.text m)).map some =
      st.out ++ (pre ++ (Part.conv sp info a :: ps).flatMap (Part.text m)).map some := by
    rw [hout, List.flatMap_cons, List.map_append, List.map_append, List.append_assoc,
      List.append_assoc]
  have hst : st'.stored ++ storedBy m st'.out.length ps =
      st.stored ++ storedBy m (st.out.length + pre.length) (.conv sp info a :: ps) := by
    rw [hstored, hlen, storedBy, List.length_append, List.length_map, List.append_assoc]
  unfold resultAfter
  dsimp only
  rw [List.nil_append, htext, List.length_nil, Nat.add_zero, hst]
  simp only [hmem]

/-- **The loop renders part by part.** -/
theorem loop_parts {z : Bytes} {args : List Arg} {ps : List Part} (h : Parts z args ps) :
    ∀ (n : Nat) (pre : Bytes) (st : St), 37 ∉ pre → (pre ++ z).length ≤ n → st.Ok →
      (∀ p ∈ ps, p.InRange m) → (∀ p ∈ ps, p.EscapeFits) →
      loop m enomem (n + 1) (pre ++ z) args st = .ok (resultAfter m st pre ps) := by
  induction h with
  | nil args =>
    intro n pre st hpre _ hst _ _
    obtain ⟨htake, hdrop⟩ := takeWhile_literal hpre []
    obtain ⟨hok, hstored, hout⟩ := literal_spec hst (pre ++ [])
    unfold loop
    rw [hdrop]
    dsimp only [List.dropWhile_nil]
    rw [finish_ok hok, hout, hstored, htake]
    unfold resultAfter
    simp [storedBy]
  | lone args =>
    intro n pre st hpre _ hst _ _
    obtain ⟨htake, hdrop⟩ := takeWhile_literal hpre [37]
    obtain ⟨hok, hstored, hout⟩ := literal_spec hst (pre ++ [37])
    have htail : [(37 : UInt8)].dropWhile (· ≠ 37) = [37] := by decide
    have htake' : [(37 : UInt8)].takeWhile (· ≠ 37) = [] := by decide
    rw [htail] at hdrop
    rw [htake', List.append_nil] at htake
    unfold loop
    rw [hdrop]
    dsimp only
    unfold St.finish St.emit resultAfter
    dsimp only
    rw [hout, hstored, htake]
    simp [storedBy, Part.text, Part.stored]
  | @lit c z args ps hc hps ih =>
    intro n pre st hpre hlen hst hr he
    rw [List.append_cons] at hlen ⊢
    rw [ih n (pre ++ [c]) st (by simp [hpre, hc.symm]) hlen hst
      (fun p hp => hr p (List.mem_cons_of_mem _ hp))
      (fun p hp => he p (List.mem_cons_of_mem _ hp)), resultAfter_lit]
  | @conv z z' args args' args'' sp info a ps hz hspec hinfo ha hps ih =>
    intro n pre st hpre hlen hst hr he
    obtain ⟨hle, hw, hp⟩ := readSpec_le hspec
    obtain ⟨n, rfl, hrest⟩ := rest_length hz hle hlen
    obtain ⟨hok, hstored, hout⟩ := literal_conv hst hpre z
    obtain ⟨st', hc, hok', hout', hstored'⟩ := convert_emits enomem hok
      (infoOf_mem hinfo) hw hp ha (hr _ List.mem_cons_self) (he _ List.mem_cons_self)
    have hnext := ih n [] _ (List.not_mem_nil) hrest hok'
      (fun p hp => hr p (List.mem_cons_of_mem _ hp))
      (fun p hp => he p (List.mem_cons_of_mem _ hp))
    rw [List.nil_append] at hnext
    rw [hout] at hout'
    rw [hstored, hok.count, hout] at hstored'
    have hafter := resultAfter_conv ps hout' hstored'
    rw [loop_conv m enomem _ st hpre hz hspec hinfo ha, hc]
    exact hnext.trans (congrArg _ hafter)

/-- A text for SQL that is too long ends the run. -/
theorem convert_stops (st : St) (h : ¬ Part.EscapeFits (.conv sp info a)) :
    ∃ e, convert m false sp info a st = .error e := by
  unfold Part.EscapeFits at h
  split at h
  · rename_i sp' info' z heq
    cases heq
    obtain ⟨ht, hbig⟩ := Classical.not_imp.1 h
    have hsize := escaped_length info z
    have hput : ∃ e, (if 1024 < int32 (escapedSize info z) then
        .error (if false = true then .noMemory st else .nullStore)
      else (st.put 0 (escaped info z) ((escaped info z).length + 1)).map
        ({ · with length := cut sp (int32 (escaped info z).length) })) =
        (.error e : Except Stop St) := by
      split
      · exact ⟨_, rfl⟩
      · unfold St.put
        rw [if_neg (by omega)]
        exact ⟨_, rfl⟩
    unfold convert
    rcases ht with ht | ht
    · rw [ht]
      exact hput
    · rw [ht]
      exact hput
  · exact absurd trivial h

theorem loop_stops {z : Bytes} {args : List Arg} {ps : List Part} (h : Parts z args ps) :
    ∀ (n : Nat) (pre : Bytes) (st : St), 37 ∉ pre → (pre ++ z).length ≤ n → st.Ok →
      (∀ p ∈ ps, p.InRange m) → (∃ p ∈ ps, ¬ p.EscapeFits) →
      ∃ e, loop m false (n + 1) (pre ++ z) args st = .error e := by
  induction h with
  | nil args => rintro _ _ _ _ _ _ _ ⟨p, hp, -⟩; cases hp
  | lone args =>
    rintro _ _ _ _ _ _ _ ⟨p, hp, hno⟩
    rw [List.mem_singleton] at hp
    exact absurd (hp ▸ trivial) hno
  | @lit c z args ps hc hps ih =>
    rintro n pre st hpre hlen hst hr ⟨p, hp, hno⟩
    rw [List.append_cons] at hlen ⊢
    refine ih n (pre ++ [c]) st (by simp [hpre, hc.symm]) hlen hst
      (fun p hp => hr p (List.mem_cons_of_mem _ hp)) ⟨p, ?_, hno⟩
    rcases List.mem_cons.1 hp with rfl | hp
    · exact absurd trivial hno
    · exact hp
  | @conv z z' args args' args'' sp info a ps hz hspec hinfo ha hps ih =>
    rintro n pre st hpre hlen hst hr ⟨p, hp, hno⟩
    obtain ⟨hle, hw, hp'⟩ := readSpec_le hspec
    obtain ⟨n, rfl, hrest⟩ := rest_length hz hle hlen
    obtain ⟨hok, -, -⟩ := literal_conv hst hpre z
    rw [loop_conv m false _ st hpre hz hspec hinfo ha]
    by_cases he : Part.EscapeFits (.conv sp info a)
    · obtain ⟨st', hc, hok', -, -⟩ := convert_emits false hok
        (infoOf_mem hinfo) hw hp' ha (hr _ List.mem_cons_self) he
      rw [hc]
      refine ih n [] _ List.not_mem_nil hrest hok' (fun p hp => hr p (List.mem_cons_of_mem _ hp))
        ⟨p, ?_, hno⟩
      rcases List.mem_cons.1 hp with rfl | hp
      · exact absurd he hno
      · exact hp
    · obtain ⟨e, hc⟩ := convert_stops (m := m) (st.literal (pre ++ 37 :: z)) he
      rw [hc]
      exact ⟨e, rfl⟩

theorem start_ok : ({} : St).Ok := ⟨List.length_replicate, by decide, rfl⟩

theorem resultAfter_start (ps : List Part) : resultAfter m {} [] ps = rendering m ps := by
  unfold resultAfter rendering
  simp

theorem etPrintf_rendering {fmt : Bytes} {args : List Arg} {ps : List Part} (h : Parts fmt args ps)
    (hr : ∀ p ∈ ps, p.InRange m) (he : ∀ p ∈ ps, p.EscapeFits) :
    etPrintf m enomem fmt args = .ok (rendering m ps) := by
  rw [← resultAfter_start]
  exact loop_parts h fmt.length [] {} List.not_mem_nil (Nat.le_refl _) start_ok hr he

/-- **A text for SQL is printed with its quotes doubled,** in any format, exactly when each of them fits
the buffer. -/
theorem etPrintf_quotes_iff {fmt : Bytes} {args : List Arg} {ps : List Part} (h : Parts fmt args ps)
    (hr : ∀ p ∈ ps, p.InRange m) :
    (∀ enomem, etPrintf m enomem fmt args = .ok (rendering m ps)) ↔ ∀ p ∈ ps, p.EscapeFits := by
  constructor
  · intro hall p hp
    by_contra hno
    obtain ⟨e, herr⟩ := loop_stops (m := m) h fmt.length [] {} List.not_mem_nil
      (Nat.le_refl _) start_ok hr
      ⟨p, hp, hno⟩
    have hok : loop m false (fmt.length + 1) ([] ++ fmt) args {} = .ok (rendering m ps) := hall false
    rw [herr] at hok
    cases hok
  · intro he enomem
    exact etPrintf_rendering h hr he

/-- **The parts of a format are handed over in order, and counted.** A `%` at the end of the format is
handed over and makes the result -1. -/
theorem etPrintf_counts {fmt : Bytes} {args : List Arg} {ps : List Part} (h : Parts fmt args ps)
    (hr : ∀ p ∈ ps, p.InRange m) (he : ∀ p ∈ ps, p.EscapeFits) :
    ∃ r, etPrintf m enomem fmt args = .ok r ∧ r.out = (ps.flatMap (Part.text m)).map some ∧
      (Part.lone ∉ ps → r.ret = int32 r.out.length) ∧ (Part.lone ∈ ps → r.ret = -1) := by
  refine ⟨_, etPrintf_rendering h hr he, rfl, fun hl => ?_, fun hl => ?_⟩
  · unfold rendering
    rw [List.length_map]
    exact if_neg hl
  · exact if_pos hl

/-! ## The string -/

/-- `xvprintf_t`: what stands in `text`, and how many bytes there are; it is the array `base` until it
has to grow. -/
structure Sink where
  text : List (Option UInt8)
  amt : Nat
  onHeap : Bool
  deriving DecidableEq, Repr

/-- Room for `nNewChar` bytes and the byte 0 behind them. -/
def Sink.grow (p : Sink) (nNewChar : Nat) : Sink :=
  if p.amt < p.text.length + nNewChar + 1 then
    { p with amt := p.text.length + nNewChar * 2 + 1, onHeap := true }
  else p

/-- `__mout` (xvprintf.c:759-789) with memory; `none` is a write behind `text`. -/
def Sink.mout (p : Sink) (zNewText : List (Option UInt8)) : Option Sink :=
  let p := p.grow zNewText.length
  if p.text.length + zNewText.length + 1 ≤ p.amt then some { p with text := p.text ++ zNewText } else none

/-- `xvprintf` (xvprintf.c:797-819) with memory; the string ends at the first byte 0. -/
def xvprintf (m : RealMachine L) (fmt : Bytes) (args : List Arg) : Except Stop (List (Option UInt8)) :=
  (etPrintf m false fmt args).map fun r => r.out.takeWhile (· ≠ some 0)

theorem Sink.grow_room (p : Sink) (n : Nat) :
    (p.grow n).text = p.text ∧ p.text.length + n + 1 ≤ (p.grow n).amt := by
  unfold Sink.grow
  split
  · refine ⟨rfl, ?_⟩
    show p.text.length + n + 1 ≤ p.text.length + n * 2 + 1
    omega
  · exact ⟨rfl, by omega⟩

/-- `__mout` appends, and has room for the byte 0. -/
theorem Sink.mout_appends (p : Sink) (zNewText : List (Option UInt8)) :
    ∃ p', p.mout zNewText = some p' ∧ p'.text = p.text ++ zNewText ∧ p'.text.length < p'.amt := by
  obtain ⟨htext, hroom⟩ := p.grow_room zNewText.length
  unfold Sink.mout
  dsimp only
  rw [htext]
  refine ⟨_, if_pos hroom, rfl, ?_⟩
  rw [List.length_append]
  exact hroom

/-- Whatever the pieces are, the text is that of all of them. -/
theorem Sink.mout_pieces (pieces : List (List (Option UInt8))) : ∀ p : Sink,
    ∃ p', pieces.foldlM Sink.mout p = some p' ∧ p'.text = p.text ++ pieces.flatten := by
  induction pieces with
  | nil => exact fun p => ⟨p, rfl, (List.append_nil _).symm⟩
  | cons z pieces ih =>
    intro p
    obtain ⟨p₁, h₁, htext, -⟩ := p.mout_appends z
    obtain ⟨p₂, h₂, htext₂⟩ := ih p₁
    refine ⟨p₂, ?_, ?_⟩
    · rw [List.foldlM_cons, h₁]
      exact h₂
    · rw [htext₂, htext, List.flatten_cons, List.append_assoc]

/-- The string of a format is the text of its parts, up to a byte 0 of `%c`. -/
theorem xvprintf_parts {fmt : Bytes} {args : List Arg} {ps : List Part} (h : Parts fmt args ps)
    (hr : ∀ p ∈ ps, p.InRange m) (he : ∀ p ∈ ps, p.EscapeFits) :
    xvprintf m fmt args =
      .ok (((ps.flatMap (Part.text m)).map some).takeWhile (· ≠ some (0 : UInt8))) := by
  unfold xvprintf
  rw [etPrintf_rendering h hr he]
  rfl

end

/-! ## Some formats -/

/-- A machine that does not round. -/
def exactReal : RealMachine ℚ where
  toLongDouble := exactArith
  ofDouble r := r.toRat.getD 0
  sub := (· - ·)
  lt x y := decide (x < y)
  le x y := decide (x ≤ y)
  toInt := Int.floor
  tenth r := .fin (r.toRat.getD 0 / 10)

/-- `%Q` of one text. -/
theorem parts_quote (z : Bytes) :
    Parts [37, 81] [.str (some z)] [.conv {} ⟨81, 0, false, .sqlEscape2, [], []⟩
      (some (.str (some z)))] :=
  .conv (by decide) rfl rfl rfl (.nil _)

theorem inRange_quote {z : Bytes} (h : z.length < 2 ^ 31) :
    ∀ p ∈ [Part.conv {} ⟨81, 0, false, .sqlEscape2, [], []⟩ (some (.str (some z)))],
      p.InRange exactReal := by
  intro p hp
  obtain rfl := List.mem_singleton.1 hp
  refine ⟨Int.le_refl 0, Int.le_refl (-1), ?_, nofun⟩
  rintro _ ⟨⟩
  exact h

theorem etPrintf_quotes_iff_short :
    (∀ enomem, etPrintf exactReal enomem [37, 81] [.str (some (ascii "it's"))] = .ok (rendering exactReal
      [.conv {} ⟨81, 0, false, .sqlEscape2, [], []⟩ (some (.str (some (ascii "it's"))))])) ↔
    ∀ p ∈ [Part.conv {} ⟨81, 0, false, .sqlEscape2, [], []⟩ (some (.str (some (ascii "it's"))))],
      p.EscapeFits :=
  etPrintf_quotes_iff (parts_quote _) (inRange_quote (by decide))

/-- A text of 1100 letters is not printed. -/
theorem etPrintf_quotes_long : ¬ ∀ (fmt : Bytes) (args : List Arg) (ps : List Part),
    Parts fmt args ps →
    (∀ p ∈ ps, p.InRange exactReal) → ∀ enomem,
      etPrintf exactReal enomem fmt args = .ok (rendering exactReal ps) := by
  intro h
  have hlen : (List.replicate 1100 (97 : UInt8)).length = 1100 := List.length_replicate
  have hr := inRange_quote (z := List.replicate 1100 97) (by rw [hlen]; decide)
  have hsize : ¬ Part.EscapeFits (.conv {} ⟨81, 0, false, .sqlEscape2, [], []⟩
      (some (.str (some (List.replicate 1100 97))))) := by
    intro he
    have hbig := he (.inr rfl)
    unfold escapedSize at hbig
    dsimp only [Option.getD_some] at hbig
    rw [hlen] at hbig
    omega
  obtain ⟨e, herr⟩ := loop_stops (m := exactReal) (parts_quote _) 2 [] {} List.not_mem_nil
    (Nat.le_refl _)
    start_ok hr ⟨_, List.mem_singleton.2 rfl, hsize⟩
  have hok : loop exactReal false 3 ([] ++ [37, 81]) _ {} = .ok _ := h _ _ _ (parts_quote _) hr false
  rw [herr] at hok
  cases hok

/-- `n=%d%%` of 5. -/
theorem etPrintf_counts_number : ∃ r, etPrintf exactReal false (ascii "n=%d%%") [.int 5] = .ok r ∧
    r.out = (ascii "n=5%").map some ∧ r.ret = 4 := by
  have hparts : Parts (ascii "n=%d%%") [.int 5] [.lit 110, .lit 61,
      .conv {} ⟨100, 10, true, .radix, ascii "0123456789", []⟩ (some (.int 5)),
      .conv {} ⟨37, 0, false, .percent, [], []⟩ none] :=
    .lit (by decide) (.lit (by decide)
      (.conv (by decide) rfl rfl rfl (.conv (by decide) rfl rfl rfl (.nil _))))
  obtain ⟨r, hr, hout, hret, -⟩ := etPrintf_counts (m := exactReal) hparts
    (by
      intro p hp
      simp only [List.mem_cons, List.not_mem_nil, or_false] at hp
      rcases hp with rfl | rfl | rfl | rfl
      · trivial
      · trivial
      · exact ⟨by decide, by decide, nofun, nofun⟩
      · exact ⟨by decide, by decide, nofun, nofun⟩)
    (by
      intro p hp
      simp only [List.mem_cons, List.not_mem_nil, or_false] at hp
      rcases hp with rfl | rfl | rfl | rfl
      · trivial
      · trivial
      · trivial
      · trivial)
  have htext : r.out = (ascii "n=5%").map some := by
    rw [hout]
    decide +kernel
  refine ⟨r, hr, htext, ?_⟩
  rw [hret (by decide), htext]
  decide

/-- A lone `%` is handed over, and the result is -1. -/
theorem etPrintf_lone : ¬ ∀ (fmt : Bytes) (args : List Arg) (r : Result),
    etPrintf exactReal false fmt args = .ok r → r.ret = int32 r.out.length := by
  intro h
  have hret := h [37] [] ⟨-1, [some 37], []⟩ rfl
  revert hret
  decide

/-- A letter that is not in the table repeats the text of the conversion before it. -/
example : etPrintf exactReal false (ascii "%d%y") [.int 7] =
    .ok ⟨4, [some 55, some 37, some 0, some 55], []⟩ := by
  decide +kernel

end Dbsql.L1.Printf
