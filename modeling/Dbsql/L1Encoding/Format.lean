import Dbsql.L1Encoding.IndexKey
/-!
# Conversion specifications (clib/xvprintf.c:60-345)

A conversion is `%`, flags, a field width, a precision, the letter `l` and the letter of a
conversion, which is looked up in `fmtinfo`. A width or precision may be `*`, an argument.

The numbers are `int`s and wrap around (`int32`). `__et_printf` cuts a width down to 1014 and a
precision to 984, so that a conversion fits its buffer of 1024 bytes.

Results:
* `readSpec_le`: the width and the precision that are read are within those bounds.
-/
namespace Dbsql.L1.Printf
open Dbsql.L1

/-- The value of an expression of type `int`. -/
def int32 (x : Int) : Int := x.bmod (2 ^ 32)

theorem int32_of {x : Int} (h : -2 ^ 31 ≤ x) (h' : x < 2 ^ 31) : int32 x = x :=
  Int.bmod_eq_of_le (by omega) (by omega)

/-! ## The table -/

/-- `etRADIX` …; no row of the table is an `etCHARLIT`. -/
inductive EtType
  | radix | float | exp | generic | size | string | dynString | percent | charX | sqlEscape
  | sqlEscape2
  deriving DecidableEq, Repr

/-- `et_info_t`; `signed` is `FLAG_SIGNED`, and `pre` is `prefix`. -/
structure EtInfo where
  fmttype : UInt8
  base : Nat
  signed : Bool
  type : EtType
  charset : Bytes
  pre : Bytes
  deriving DecidableEq, Repr

def fmtinfo : List EtInfo := [
  ⟨100, 10, true, .radix, ascii "0123456789", []⟩, -- d
  ⟨115, 0, false, .string, [], []⟩, -- s
  ⟨122, 0, false, .dynString, [], []⟩, -- z
  ⟨113, 0, false, .sqlEscape, [], []⟩, -- q
  ⟨81, 0, false, .sqlEscape2, [], []⟩, -- Q
  ⟨99, 0, false, .charX, [], []⟩, -- c
  ⟨111, 8, false, .radix, ascii "01234567", ascii "0"⟩, -- o
  ⟨117, 10, false, .radix, ascii "0123456789", []⟩, -- u
  ⟨120, 16, false, .radix, ascii "0123456789abcdef", ascii "x0"⟩, -- x
  ⟨88, 16, false, .radix, ascii "0123456789ABCDEF", ascii "X0"⟩, -- X
  ⟨102, 0, true, .float, [], []⟩, -- f
  ⟨101, 0, true, .exp, ascii "e", []⟩, -- e
  ⟨69, 0, true, .exp, ascii "E", []⟩, -- E
  ⟨103, 0, true, .generic, ascii "e", []⟩, -- g
  ⟨71, 0, true, .generic, ascii "E", []⟩, -- G
  ⟨105, 10, true, .radix, ascii "0123456789", []⟩, -- i
  ⟨110, 0, false, .size, [], []⟩, -- n
  ⟨37, 0, false, .percent, [], []⟩, -- %
  ⟨112, 10, false, .radix, ascii "0123456789", []⟩] -- p

/-- The row of a letter. -/
def infoOf (c : UInt8) : Option EtInfo := fmtinfo.find? fun info => c = info.fmttype

/-! ## Arguments -/

/-- An argument by the type it was passed with; `%n` has a pointer to an `int`. -/
inductive Arg
  | int (i : CInt)
  | long (l : BitVec 64)
  | double (r : Double)
  | str (z : Option Bytes)
  | intPtr
  deriving DecidableEq, Repr

/-! ## Specifications -/

/-- `flag_leftjustify` …, `width`, `precision` and `flag_long`. -/
structure Spec where
  leftjustify : Bool := false
  plussign : Bool := false
  blanksign : Bool := false
  alternateform : Bool := false
  zeropad : Bool := false
  width : Int := 0
  precision : Int := -1
  long : Bool := false
  deriving DecidableEq, Repr

/-- The flags. -/
def readFlags (sp : Spec) : Bytes → Spec × Bytes
  | [] => (sp, [])
  | c :: z =>
    if c = 45 then readFlags { sp with leftjustify := true } z
    else if c = 43 then readFlags { sp with plussign := true } z
    else if c = 32 then readFlags { sp with blanksign := true } z
    else if c = 35 then readFlags { sp with alternateform := true } z
    else if c = 48 then readFlags { sp with zeropad := true } z
    else (sp, c :: z)

/-- `while(c >= '0' && c <= '9')`. -/
def readNumber (v : Int) : Bytes → Int × Bytes
  | [] => (v, [])
  | c :: z => if isdigit c then readNumber (int32 (v * 10 + c.toNat - 48)) z else (v, c :: z)

/-- The field width; `none` if `*` finds no `int`. -/
def readWidth (sp : Spec) (z : Bytes) (args : List Arg) : Option (Spec × Bytes × List Arg) :=
  if peek z = 42 then
    match args with
    | .int w :: args =>
      if w.toInt < 0 then some ({ sp with leftjustify := true, width := int32 (-w.toInt) }, z.tail, args)
      else some ({ sp with width := w.toInt }, z.tail, args)
    | _ => none
  else
    let (width, z) := readNumber 0 z
    some ({ sp with width := width }, z, args)

/-- `if (width > etBUFSIZE - 10)`. -/
def Spec.clampWidth (sp : Spec) : Spec := { sp with width := if 1014 < sp.width then 1014 else sp.width }

/-- The precision. -/
def readPrecision (sp : Spec) (z : Bytes) (args : List Arg) : Option (Spec × Bytes × List Arg) :=
  if peek z = 46 then
    let z := z.tail
    if peek z = 42 then
      match args with
      | .int p :: args =>
        some ({ sp with precision := if p.toInt < 0 then int32 (-p.toInt) else p.toInt }, z.tail, args)
      | _ => none
    else
      let (precision, z) := readNumber 0 z
      some ({ sp with precision := precision }, z, args)
  else some ({ sp with precision := -1 }, z, args)

/-- `if (precision > etBUFSIZE - 40)`. -/
def Spec.clampPrecision (sp : Spec) : Spec :=
  { sp with precision := if 984 < sp.precision then 984 else sp.precision }

/-- The modifier `l`. -/
def readLong (sp : Spec) (z : Bytes) : Spec × Bytes :=
  if peek z = 108 then ({ sp with long := true }, z.tail) else ({ sp with long := false }, z)

/-- What stands between `%` and the letter; what is left begins with the letter. -/
def readSpec (z : Bytes) (args : List Arg) : Option (Spec × Bytes × List Arg) :=
  let (sp, z) := readFlags {} z
  (readWidth sp z args).bind fun (sp, z, args) =>
    (readPrecision sp.clampWidth z args).map fun (sp, z, args) =>
      let (sp, z) := readLong sp.clampPrecision z
      (sp, z, args)

/-! ## Bounds -/

theorem readFlags_length (sp : Spec) (z : Bytes) : (readFlags sp z).2.length ≤ z.length := by
  induction z generalizing sp with
  | nil => exact Nat.le_refl _
  | cons c z ih =>
    have hcons : z.length ≤ (c :: z).length := Nat.le_succ _
    unfold readFlags
    split
    · exact (ih _).trans hcons
    split
    · exact (ih _).trans hcons
    split
    · exact (ih _).trans hcons
    split
    · exact (ih _).trans hcons
    split
    · exact (ih _).trans hcons
    · exact Nat.le_refl _

theorem readNumber_length (v : Int) (z : Bytes) : (readNumber v z).2.length ≤ z.length := by
  induction z generalizing v with
  | nil => exact Nat.le_refl _
  | cons c z ih =>
    unfold readNumber
    split
    · exact (ih _).trans (Nat.le_succ _)
    · exact Nat.le_refl _

section
variable {sp sp' : Spec} {z z' : Bytes} {args args' : List Arg}

theorem readWidth_length (h : readWidth sp z args = some (sp', z', args')) : z'.length ≤ z.length := by
  unfold readWidth at h
  split at h
  · split at h
    · split at h
      · cases h
        exact List.length_tail ▸ Nat.sub_le _ _
      · cases h
        exact List.length_tail ▸ Nat.sub_le _ _
    · cases h
  · cases h
    exact readNumber_length 0 z

theorem readPrecision_length (h : readPrecision sp z args = some (sp', z', args')) :
    z'.length ≤ z.length := by
  have htail : z.tail.length ≤ z.length := List.length_tail ▸ Nat.sub_le _ _
  unfold readPrecision at h
  split at h
  · dsimp only at h
    split at h
    · split at h
      · cases h
        exact (List.length_tail ▸ Nat.sub_le _ _ : z.tail.tail.length ≤ z.tail.length).trans htail
      · cases h
    · cases h
      exact (readNumber_length 0 z.tail).trans htail
  · cases h
    exact Nat.le_refl _

theorem readPrecision_width (h : readPrecision sp z args = some (sp', z', args')) :
    sp'.width = sp.width := by
  unfold readPrecision at h
  split at h
  · dsimp only at h
    split at h
    · split at h
      · cases h
        rfl
      · cases h
    · cases h
      rfl
  · cases h
    rfl

theorem readLong_length (sp : Spec) (z : Bytes) : (readLong sp z).2.length ≤ z.length := by
  unfold readLong
  split
  · exact List.length_tail ▸ Nat.sub_le _ _
  · exact Nat.le_refl _

theorem readLong_fields (sp : Spec) (z : Bytes) :
    (readLong sp z).1.width = sp.width ∧ (readLong sp z).1.precision = sp.precision := by
  unfold readLong
  split
  · exact ⟨rfl, rfl⟩
  · exact ⟨rfl, rfl⟩

/-- What is read of a specification. -/
theorem readSpec_le (h : readSpec z args = some (sp, z', args')) :
    z'.length ≤ z.length ∧ sp.width ≤ 1014 ∧ sp.precision ≤ 984 := by
  unfold readSpec at h
  dsimp only at h
  obtain ⟨⟨sp₁, z₁, args₁⟩, hw, h⟩ := Option.bind_eq_some_iff.1 h
  obtain ⟨⟨sp₂, z₂, args₂⟩, hp, h⟩ := Option.map_eq_some_iff.1 h
  cases h
  have hwidth := readPrecision_width hp
  obtain ⟨hlw, hlp⟩ := readLong_fields sp₂.clampPrecision z₂
  refine ⟨?_, ?_, ?_⟩
  · exact (readLong_length _ z₂).trans ((readPrecision_length hp).trans
      ((readWidth_length hw).trans (readFlags_length {} z)))
  · rw [hlw]
    show sp₂.width ≤ 1014
    rw [hwidth]
    unfold Spec.clampWidth
    dsimp only
    split
    · exact Int.le_refl _
    · omega
  · rw [hlp]
    unfold Spec.clampPrecision
    dsimp only
    split
    · exact Int.le_refl _
    · omega

end

end Dbsql.L1.Printf
