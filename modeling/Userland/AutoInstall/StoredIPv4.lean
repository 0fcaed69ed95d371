import Userland.AutoInstall.Criteria
import Userland.Library.Program
import Userland.Library.Substitution
import Userland.Pkg.Numeral

/-!
# Internet addresses in the table of manifests

`checkIPv4` writes an address as twelve digits, three for each octet; the table keeps them as an
integer, and `formatValue` takes the octets out of its digits again. `survives_iff` says which texts
come through.

Scope: texts are byte strings, and `int` reads digits with a sign or blanks around them. The table
gives back `NULL`, integers and texts.
-/

set_option autoImplicit false
set_option relaxedAutoImplicit false

namespace Userland.AutoInstall

open Userland.Library Userland.Library.Substitution
open Pkg.Text (parseInt strInt)

/-! ### The source -/

/-- `Malformed IPV4 address in criteria` -/
inductive MalformedIPv4
  | error
deriving DecidableEq

/-- `"%width.widthd" % n` -/
def zeroPadded (width : ℕ) (n : ℤ) : Text :=
  if n < 0 then '-' :: (Nat.toDigits 10 n.natAbs).leftpad width '0'
  else (Nat.toDigits 10 n.natAbs).leftpad width '0'

/-- One pass of the loop of `checkIPv4`. -/
def checkOctet (value : Text) : Except MalformedIPv4 Text :=
  match parseInt value with
  | none => .error .error
  | some ivalue => if ivalue < 0 ∨ ivalue > 255 then .error .error else .ok (zeroPadded 3 ivalue)

/-- `checkIPv4(value)` -/
def checkIPv4 (value : Text) : Except MalformedIPv4 Text :=
  let values := value.splitOn '.'
  if values.length ≠ 4 then .error .error else (values.mapM checkOctet).map List.flatten

/-- A value of the database. -/
inductive DbValue
  | null
  | integer (n : ℤ)
  | text (value : Text)
deriving DecidableEq

/-- `if value` -/
def DbValue.isTrue : DbValue → Bool
  | null => false
  | integer n => n ≠ 0
  | text value => !value.isEmpty

/-- `str(value)` -/
def DbValue.str : DbValue → Text
  | null => "None".toList
  | integer n => strInt n
  | text value => value

inductive FormatError
  | typeError
  | valueError
deriving DecidableEq

/-- `long(value)` -/
def DbValue.long : DbValue → Except FormatError ℤ
  | null => .error .typeError
  | integer n => .ok n
  | text value =>
    match parseInt value with
    | none => .error .valueError
    | some n => .ok n

/-- `text[first:last]` -/
def slice (text : Text) (first last : ℕ) : Text :=
  (text.take last).drop first

/-- `str(int(text))` -/
def intText (text : Text) : Except FormatError Text :=
  match parseInt text with
  | none => .error .valueError
  | some n => .ok (strInt n)

/-- A hardware address with colons; only a text has slices. -/
def shownMac : DbValue → Except FormatError Text
  | .text value =>
  .ok ([':'].intercalate ([0, 2, 4, 6, 8, 10].map fun first ↦ slice value first (first + 2)))
  | _ => .error .typeError

/-- The octets of twelve digits, without zeros in front. -/
def shownAddress (svalue : Text) : Except FormatError Text :=
  ([0, 3, 6, 9].mapM fun first ↦ intText (slice svalue first (first + 3))).map fun parts ↦
    ['.'].intercalate parts

/-- The type of datum that a key represents. -/
def datumOf (key : Text) : Text :=
  replaceFirst "MAX".toList [] (replaceFirst "MIN".toList [] (Pkg.Text.strip key))

/-- `formatValue(key, value, units)` -/
def formatValue (key : Text) (value : DbValue) (units : Bool) : Except FormatError Text :=
  if datumOf key = "mac".toList ∧ value.isTrue then
    shownMac value
  else if (datumOf key = "ipv4".toList ∨ datumOf key = "network".toList) ∧ value.isTrue then
    value.long.bind fun n ↦ shownAddress (zeroPadded 12 n)
  else if units ∧ datumOf key = "mem".toList ∧ value.isTrue then .ok (value.str ++ " MB".toList)
  else .ok value.str

/-! ### What is asked of addresses -/

/-- A text of four decimal octets between dots. -/
structure DottedDecimal (text : Text) (octets : List ℕ) : Prop where
  parts : (text.splitOn '.').map Pkg.Text.digitsValue = octets.map some
  length : octets.length = 4
  le : ∀ octet ∈ octets, octet ≤ 255

/-- The number with some digits in a base. -/
def positional (base : ℕ) (octets : List ℕ) : ℕ :=
  octets.foldl (fun n octet ↦ n * base + octet) 0

/-- The number of 32 bits that octets stand for. -/
def address (octets : List ℕ) : ℕ :=
  positional 256 octets

/-- The integer that the table has for some digits. -/
def storedInteger (stored : Text) : ℕ :=
  Nat.ofDigitChars 10 stored 0

def dotted (octets : List ℕ) : Text :=
  ['.'].intercalate (octets.map (Nat.toDigits 10))

/-- The columns with addresses, and their criteria. -/
def addressKeys : List Text :=
  ["ipv4", "MINipv4", "MAXipv4", "network", "MINnetwork", "MAXnetwork"].map String.toList

/-- A text is taken exactly if it is four octets, the stored integers are in the order of the
addresses, and the integer is shown as the same address. -/
structure Survives (text : Text) : Prop where
  taken : (∃ stored, checkIPv4 text = .ok stored) ↔ ∃ octets, DottedDecimal text octets
  ordered : ∀ other octets others stored stored', DottedDecimal text octets →
    DottedDecimal other others →
    checkIPv4 text = .ok stored → checkIPv4 other = .ok stored' →
      (address octets < address others ↔ storedInteger stored < storedInteger stored')
  shown : ∀ octets stored, DottedDecimal text octets → checkIPv4 text = .ok stored →
    ∀ key ∈ addressKeys, ∀ units, formatValue key (.integer (storedInteger stored)) units =
      .ok (dotted octets)

/-- The parts between dots are four numbers up to 255 for `int`. -/
structure Reads (text : Text) (octets : List ℕ) : Prop where
  parts : (text.splitOn '.').map parseInt = octets.map fun octet : ℕ ↦ some (octet : ℤ)
  length : octets.length = 4
  le : ∀ octet ∈ octets, octet ≤ 255

/-! ### Three digits for an octet -/

theorem zeroPadded_natCast (width n : ℕ) :
    zeroPadded width n = (Nat.toDigits 10 n).leftpad width '0' := by
  rw [zeroPadded, if_neg (Int.not_lt.mpr (Int.natCast_nonneg n)), Int.natAbs_natCast]

section

variable {octet : ℕ}

theorem length_zeroPadded (h : octet ≤ 255) : (zeroPadded 3 octet).length = 3 := by
  have hlength : (Nat.toDigits 10 octet).length ≤ 3 :=
    (Nat.length_toDigits_le_iff (by decide) (by decide)).mpr (by omega)
  rw [zeroPadded_natCast, List.length_leftpad, Nat.max_eq_left hlength]

theorem isDigit_of_mem_zeroPadded {width : ℕ} {c : Char} (h : c ∈ zeroPadded width octet) :
    c.isDigit = true := by
  rw [zeroPadded_natCast, List.leftpad, List.mem_append] at h
  rcases h with hzero | hdigit
  · rw [List.eq_of_mem_replicate hzero]
    decide
  · exact Pkg.Text.isDigit_of_mem_toDigits hdigit

theorem ofDigitChars_zeroPadded (width octet : ℕ) :
    Nat.ofDigitChars 10 (zeroPadded width octet) 0 = octet := by
  rw [zeroPadded_natCast, List.leftpad, Nat.ofDigitChars_append, Nat.ofDigitChars_replicate_zero,
    Nat.mul_zero, Nat.ofDigitChars_ten_toDigits]

theorem intText_zeroPadded (h : octet ≤ 255) :
    intText (zeroPadded 3 octet) = .ok (Nat.toDigits 10 octet) := by
  have hne : zeroPadded 3 octet ≠ [] := by
    rw [← List.length_pos_iff, length_zeroPadded h]
    decide
  have hdigits : ∀ c ∈ zeroPadded 3 octet, c.isDigit = true := fun c ↦ isDigit_of_mem_zeroPadded
  have hvalue : Pkg.Text.digitsValue (zeroPadded 3 octet) = some octet := by
    rw [Pkg.Text.digitsValue, if_pos ⟨hne, List.all_eq_true.mpr hdigits⟩, ofDigitChars_zeroPadded]
  rw [intText, Pkg.Text.parseInt_of_digits hdigits, hvalue]
  show Except.ok (strInt octet) = _
  rw [strInt, if_neg (Int.not_lt.mpr (Int.natCast_nonneg octet)), Int.natAbs_natCast]

end

variable {octets : List ℕ}

/-- The digits of octets, read as one number. -/
theorem ofDigitChars_flatMap (h : ∀ octet ∈ octets, octet ≤ 255) (start : ℕ) :
    Nat.ofDigitChars 10 (octets.flatMap fun octet : ℕ ↦ zeroPadded 3 octet) start =
      octets.foldl (fun n octet ↦ n * 1000 + octet) start := by
  induction octets generalizing start with
  | nil => rw [List.flatMap_nil, Nat.ofDigitChars_nil, List.foldl_nil]
  | cons octet octets ih =>
    obtain ⟨hfirst, hrest⟩ := List.forall_mem_cons.mp h
    rw [List.flatMap_cons, Nat.ofDigitChars_append, ih hrest, List.foldl_cons,
      Nat.ofDigitChars_eq_ofDigitChars_zero,
      ofDigitChars_zeroPadded, length_zeroPadded hfirst, Nat.mul_comm]

/-! ### Taking texts -/

theorem checkOctet_eq_ok {value stored : Text} (h : checkOctet value = .ok stored) :
    ∃ octet : ℕ, parseInt value = some (octet : ℤ) ∧ octet ≤ 255 ∧ stored = zeroPadded 3 octet := by
  rw [checkOctet] at h
  cases hread : parseInt value with
  | none =>
    rw [hread] at h
    cases h
  | some n =>
    simp only [hread] at h
    split_ifs at h with hrange
    rw [not_or] at hrange
    obtain ⟨octet, rfl⟩ := Int.eq_ofNat_of_zero_le (Int.not_lt.mp hrange.1)
    exact ⟨octet, rfl, by omega, (Except.ok.inj h).symm⟩

theorem checkOctet_of_reads {value : Text} {octet : ℕ} (h : parseInt value = some (octet : ℤ))
    (hle : octet ≤ 255) :
    checkOctet value = .ok (zeroPadded 3 octet) := by
  rw [checkOctet, h]
  exact if_neg (by omega)

theorem mapM_checkOctet_iff {values stored : List Text} : values.mapM checkOctet = .ok stored ↔
    ∃ octets : List ℕ, values.map parseInt = octets.map (fun octet : ℕ ↦ some (octet : ℤ)) ∧
      (∀ octet ∈ octets, octet ≤ 255) ∧ stored = octets.map fun octet : ℕ ↦ zeroPadded 3 octet := by
  rw [Program.mapM_eq_ok_iff]
  induction values generalizing stored with
  | nil =>
    constructor
    · intro h
      exact ⟨[], rfl, fun _ hmem ↦ absurd hmem List.not_mem_nil, List.map_eq_nil_iff.mp h.symm⟩
    · rintro ⟨octets, hoctets, -, rfl⟩
      rw [List.map_eq_nil_iff.mp hoctets.symm]
      rfl
  | cons value values ih =>
    constructor
    · intro h
      obtain ⟨first, rest, rfl⟩ : ∃ first rest, stored = first :: rest := by
        cases stored with
        | nil => cases h
        | cons first rest => exact ⟨first, rest, rfl⟩
      rw [List.map_cons, List.map_cons, List.cons.injEq] at h
      obtain ⟨octet, hread, hle, rfl⟩ := checkOctet_eq_ok h.1
      obtain ⟨octets, hoctets, hall, rfl⟩ := ih.mp h.2
      refine ⟨octet :: octets, ?_, List.forall_mem_cons.mpr ⟨hle, hall⟩, rfl⟩
      rw [List.map_cons, List.map_cons, hread, hoctets]
    · rintro ⟨octets, hoctets, hall, rfl⟩
      cases octets with
      | nil => cases hoctets
      | cons octet octets =>
        rw [List.map_cons, List.map_cons, List.cons.injEq] at hoctets
        obtain ⟨hle, hall⟩ := List.forall_mem_cons.mp hall
        rw [List.map_cons, List.map_cons, List.map_cons, checkOctet_of_reads hoctets.1 hle,
          ih.mpr ⟨octets, hoctets.2, hall, rfl⟩]

/-- The texts that are taken, and the digits that are stored for them. -/
theorem checkIPv4_eq_ok {text stored : Text} : checkIPv4 text = .ok stored ↔
    ∃ octets, Reads text octets ∧ stored = octets.flatMap fun octet : ℕ ↦ zeroPadded 3 octet := by
  rw [checkIPv4]
  constructor
  · intro h
    split_ifs at h with hlength
    obtain ⟨parts, hparts, rfl⟩ := Program.map_eq_ok h
    obtain ⟨octets, hoctets, hle, rfl⟩ := mapM_checkOctet_iff.mp hparts
    have hcount := congrArg List.length hoctets
    rw [List.length_map, List.length_map] at hcount
    exact ⟨octets, ⟨hoctets, hcount.symm.trans (not_not.mp hlength), hle⟩, rfl⟩
  · rintro ⟨octets, ⟨hoctets, hlength, hle⟩, rfl⟩
    have hcount := congrArg List.length hoctets
    rw [List.length_map, List.length_map, hlength] at hcount
    rw [if_neg (not_not.mpr hcount), mapM_checkOctet_iff.mpr ⟨octets, hoctets, hle, rfl⟩]
    rfl

theorem eq_of_digitsValue_eq {field : Text} {octet : ℕ}
    (h : Pkg.Text.digitsValue field = some octet) :
    (∀ c ∈ field, c.isDigit = true) ∧ parseInt field = some (octet : ℤ) := by
  have hdigits : ∀ c ∈ field, c.isDigit = true := by
    rw [Pkg.Text.digitsValue] at h
    split_ifs at h with hfield
    exact List.all_eq_true.mp hfield.2
  refine ⟨hdigits, ?_⟩
  rw [Pkg.Text.parseInt_of_digits hdigits, h]
  rfl

theorem parts_iff {fields : List Text} : fields.map Pkg.Text.digitsValue = octets.map some ↔
    fields.map parseInt = octets.map (fun octet : ℕ ↦ some (octet : ℤ)) ∧
      ∀ field ∈ fields, ∀ c ∈ field, c.isDigit = true := by
  induction fields generalizing octets with
  | nil => cases octets <;> simp
  | cons field fields ih =>
    cases octets with
    | nil => simp
    | cons octet octets =>
      rw [List.map_cons, List.map_cons, List.map_cons, List.map_cons, List.cons.injEq,
        List.cons.injEq, ih, List.forall_mem_cons]
      constructor
      · rintro ⟨hfield, hrest, hdigits⟩
        obtain ⟨hfieldDigits, hread⟩ := eq_of_digitsValue_eq hfield
        exact ⟨⟨hread, hrest⟩, hfieldDigits, hdigits⟩
      · rintro ⟨⟨hread, hrest⟩, hfieldDigits, hdigits⟩
        refine ⟨?_, hrest, hdigits⟩
        rw [Pkg.Text.parseInt_of_digits hfieldDigits] at hread
        obtain ⟨n, hn, hcast⟩ := Option.map_eq_some_iff.mp hread
        rw [hn, Int.ofNat_inj.mp hcast]

/-- Decimal octets are what `int` reads, written with digits only. -/
theorem dottedDecimal_iff {text : Text} : DottedDecimal text octets ↔
    Reads text octets ∧ ∀ field ∈ text.splitOn '.', ∀ c ∈ field, c.isDigit = true := by
  constructor
  · rintro ⟨hparts, hlength, hle⟩
    obtain ⟨hread, hdigits⟩ := parts_iff.mp hparts
    exact ⟨⟨hread, hlength, hle⟩, hdigits⟩
  · rintro ⟨⟨hread, hlength, hle⟩, hdigits⟩
    exact ⟨parts_iff.mpr ⟨hread, hdigits⟩, hlength, hle⟩

variable {octets others : List ℕ}

theorem Reads.unique {text : Text} (h : Reads text octets) (h' : Reads text others) :
    octets = others := by
  have heq := h.parts.symm.trans h'.parts
  refine List.map_injective_iff.mpr (fun a b hab ↦ ?_) heq
  exact Int.ofNat_inj.mp (Option.some.inj hab)

/-! ### The order of addresses -/

theorem mul_add_lt_iff {base m n d e : ℕ} (hd : d < base) (he : e < base) :
    m * base + d < n * base + e ↔ m < n ∨ m = n ∧ d < e := by
  constructor
  · intro h
    rcases Nat.lt_trichotomy m n with hlt | rfl | hgt
    · exact Or.inl hlt
    · exact Or.inr ⟨rfl, by omega⟩
    · have hmul := Nat.mul_le_mul_right base (Nat.succ_le_of_lt hgt)
      rw [Nat.succ_mul] at hmul
      omega
  · rintro (hlt | ⟨rfl, hlt⟩)
    · have hmul := Nat.mul_le_mul_right base (Nat.succ_le_of_lt hlt)
      rw [Nat.succ_mul] at hmul
      omega
    · omega

theorem positional_concat (base octet : ℕ) (octets : List ℕ) :
    positional base (octets ++ [octet]) = positional base octets * base + octet :=
  List.foldl_concat _ _ _ _

theorem positional_inj {base : ℕ} (hlength : octets.length = others.length)
    (h : ∀ octet ∈ octets, octet < base) (h' : ∀ octet ∈ others, octet < base)
    (heq : positional base octets = positional base others) : octets = others := by
  induction octets using List.reverseRecOn generalizing others with
  | nil => exact (List.eq_nil_of_length_eq_zero hlength.symm).symm
  | append_singleton octets octet ih =>
    rcases List.eq_nil_or_concat others with rfl | ⟨others, other, rfl⟩
    · rw [List.length_append] at hlength
      cases hlength
    · rw [List.concat_eq_append] at hlength h' heq ⊢
      rw [List.length_append, List.length_append] at hlength
      rw [positional_concat, positional_concat] at heq
      have hlast := h octet (List.mem_append_right _ List.mem_cons_self)
      have hlast' := h' other (List.mem_append_right _ List.mem_cons_self)
      have hnot := mt (mul_add_lt_iff hlast hlast').mpr heq.not_lt
      have hnot' := mt (mul_add_lt_iff hlast' hlast).mpr heq.not_gt
      have hfront : positional base octets = positional base others := by omega
      rw [ih (Nat.succ.inj hlength) (fun d hd ↦ h d (List.mem_append_left _ hd))
        (fun d hd ↦ h' d (List.mem_append_left _ hd)) hfront, show octet = other by omega]

/-- Numbers with as many digits are in the order of their digits, whatever the base. -/
theorem positional_lt_iff {base base' : ℕ} (hlength : octets.length = others.length)
    (h : ∀ octet ∈ octets, octet < base ∧ octet < base')
    (h' : ∀ octet ∈ others, octet < base ∧ octet < base') :
    positional base octets < positional base others ↔
    positional base' octets < positional base' others := by
  induction octets using List.reverseRecOn generalizing others with
  | nil =>
    obtain rfl := List.eq_nil_of_length_eq_zero hlength.symm
    exact iff_of_false (Nat.lt_irrefl _) (Nat.lt_irrefl _)
  | append_singleton octets octet ih =>
    rcases List.eq_nil_or_concat others with rfl | ⟨others, other, rfl⟩
    · rw [List.length_append] at hlength
      cases hlength
    · rw [List.concat_eq_append] at hlength h' ⊢
      rw [List.length_append, List.length_append] at hlength
      have hlast := h octet (List.mem_append_right _ List.mem_cons_self)
      have hlast' := h' other (List.mem_append_right _ List.mem_cons_self)
      have hfront : ∀ d ∈ octets, d < base ∧ d < base' := fun d hd ↦ h d (List.mem_append_left _ hd)
      have hfront' : ∀ d ∈ others, d < base ∧ d < base' :=
        fun d hd ↦ h' d (List.mem_append_left _ hd)
      have hsame : positional base octets = positional base others ↔
          positional base' octets = positional base' others := by
        constructor
        · intro heq
          rw [positional_inj (Nat.succ.inj hlength) (fun d hd ↦ (hfront d hd).1) (fun d hd ↦
            (hfront' d hd).1) heq]
        · intro heq
          rw [positional_inj (Nat.succ.inj hlength) (fun d hd ↦ (hfront d hd).2) (fun d hd ↦
            (hfront' d hd).2) heq]
      rw [positional_concat, positional_concat, positional_concat, positional_concat,
        mul_add_lt_iff hlast.1 hlast'.1,
        mul_add_lt_iff hlast.2 hlast'.2, ih (Nat.succ.inj hlength) hfront hfront', hsame]

/-! ### Showing addresses -/

theorem storedInteger_flatMap (h : ∀ octet ∈ octets, octet ≤ 255) :
    storedInteger (octets.flatMap fun octet : ℕ ↦ zeroPadded 3 octet) = positional 1000 octets :=
  ofDigitChars_flatMap h 0

theorem positional_eq_zero_iff {base : ℕ} (hbase : base ≠ 0) :
    positional base octets = 0 ↔ ∀ octet ∈ octets, octet = 0 := by
  induction octets using List.reverseRecOn with
  | nil => exact iff_of_true rfl fun _ h ↦ absurd h List.not_mem_nil
  | append_singleton octets octet ih =>
    rw [positional_concat, Nat.add_eq_zero_iff, Nat.mul_eq_zero, or_iff_left hbase, ih,
      List.forall_mem_append, List.forall_mem_singleton]

/-- The twelve digits that are taken apart are those that were stored. -/
theorem zeroPadded_storedInteger (hlength : octets.length = 4) (h : ∀ octet ∈ octets, octet ≤ 255) :
    zeroPadded 12 (storedInteger (octets.flatMap fun octet : ℕ ↦ zeroPadded 3 octet)) =
      octets.flatMap fun octet : ℕ ↦ zeroPadded 3 octet := by
  have hdigits : (octets.flatMap fun octet : ℕ ↦ zeroPadded 3 octet).length = 12 := by
    rw [List.length_flatMap, List.map_congr_left fun octet hoctet ↦
      length_zeroPadded (h octet hoctet), List.map_const', hlength]
    rfl
  rw [zeroPadded_natCast, storedInteger, ← hdigits]
  refine Pkg.Text.leftpad_toDigits ?_ fun c hc ↦ ?_
  · rw [← List.length_pos_iff, hdigits]
    decide
  · obtain ⟨octet, -, hmem⟩ := List.mem_flatMap.mp hc
    exact isDigit_of_mem_zeroPadded hmem

theorem shownAddress_flatMap (hlength : octets.length = 4) (h : ∀ octet ∈ octets, octet ≤ 255) :
    shownAddress (octets.flatMap fun octet : ℕ ↦ zeroPadded 3 octet) = .ok (dotted octets) := by
  have hthree : ∀ octet ∈ octets, ∃ x y z, zeroPadded 3 octet = [x, y, z] ∧
      intText [x, y, z] = .ok (Nat.toDigits 10 octet) := by
    intro octet hoctet
    obtain ⟨x, y, z, hdigits⟩ := List.length_eq_three.mp (length_zeroPadded (h octet hoctet))
    exact ⟨x, y, z, hdigits, hdigits ▸ intText_zeroPadded (h octet hoctet)⟩
  match octets, hlength with
  | [a, b, c, d], _ =>
    obtain ⟨a₁, a₂, a₃, ha, hatext⟩ := hthree a (by simp)
    obtain ⟨b₁, b₂, b₃, hb, hbtext⟩ := hthree b (by simp)
    obtain ⟨c₁, c₂, c₃, hc, hctext⟩ := hthree c (by simp)
    obtain ⟨d₁, d₂, d₃, hd, hdtext⟩ := hthree d (by simp)
    have hparts : [0, 3, 6, 9].mapM (fun first ↦
        intText (slice [a₁, a₂, a₃, b₁, b₂, b₃, c₁, c₂, c₃, d₁, d₂, d₃]
        first (first + 3))) = .ok ([a, b, c, d].map (Nat.toDigits 10)) := by
      rw [Program.mapM_eq_ok_iff]
      show [intText [a₁, a₂, a₃], intText [b₁, b₂, b₃], intText [c₁, c₂, c₃],
        intText [d₁, d₂, d₃]] = _
      rw [hatext, hbtext, hctext, hdtext]
      rfl
    have hdigits : [a, b, c, d].flatMap (fun octet : ℕ ↦ zeroPadded 3 octet) =
        [a₁, a₂, a₃, b₁, b₂, b₃, c₁, c₂, c₃, d₁, d₂, d₃] := by
      rw [List.flatMap_cons, List.flatMap_cons, List.flatMap_cons, List.flatMap_cons,
        ha, hb, hc, hd]
      rfl
    rw [hdigits, shownAddress, hparts]
    rfl

theorem datumOf_addressKeys : ∀ key ∈ addressKeys,
    datumOf key ≠ "mac".toList ∧ datumOf key ≠ "mem".toList ∧
      (datumOf key = "ipv4".toList ∨ datumOf key = "network".toList) := by
  decide

theorem formatValue_stored (hlength : octets.length = 4) (h : ∀ octet ∈ octets, octet ≤ 255)
    (hzero : ∃ octet ∈ octets, octet ≠ 0) {key : Text} (hkey : key ∈ addressKeys) (units : Bool) :
    formatValue key (.integer (storedInteger (octets.flatMap fun octet : ℕ ↦ zeroPadded 3 octet)))
    units =
      .ok (dotted octets) := by
  obtain ⟨hmac, -, haddress⟩ := datumOf_addressKeys key hkey
  have htrue :
      (DbValue.integer (storedInteger (octets.flatMap fun octet : ℕ ↦ zeroPadded 3 octet))).isTrue =
      true := by
    refine decide_eq_true fun hnil ↦ ?_
    rw [storedInteger_flatMap h, Int.natCast_eq_zero, positional_eq_zero_iff (by decide)] at hnil
    obtain ⟨octet, hmem, hne⟩ := hzero
    exact hne (hnil octet hmem)
  rw [formatValue, if_neg fun hif ↦ hmac hif.1, if_pos ⟨haddress, htrue⟩, DbValue.long]
  show shownAddress _ = _
  rw [zeroPadded_storedInteger hlength h, shownAddress_flatMap hlength h]

theorem formatValue_zero {key : Text} (hkey : key ∈ addressKeys) (units : Bool) :
    formatValue key (.integer 0) units = .ok ['0'] := by
  obtain ⟨hmac, hmem, -⟩ := datumOf_addressKeys key hkey
  rw [formatValue, if_neg fun hif ↦ hmac hif.1, if_neg fun hif ↦ absurd hif.2 (by decide),
    if_neg fun hif ↦ hmem hif.2.1]
  rfl

/-! ### Addresses that survive -/

/-- Nothing but digits stands for an octet that is read, and not all octets are zero. -/
def PlainAddress (text : Text) : Prop :=
  ∀ octets, Reads text octets →
    (∀ field ∈ text.splitOn '.', ∀ c ∈ field, c.isDigit = true) ∧ ∃ octet ∈ octets, octet ≠ 0

theorem number_iff {text stored : Text} (h : DottedDecimal text octets)
    (hstored : checkIPv4 text = .ok stored) : stored = octets.flatMap fun octet :
    ℕ ↦ zeroPadded 3 octet := by
  obtain ⟨others, hothers, rfl⟩ := checkIPv4_eq_ok.mp hstored
  rw [hothers.unique (dottedDecimal_iff.mp h).1]

theorem address_lt_iff {text other stored stored' : Text} (h : DottedDecimal text octets)
    (h' : DottedDecimal other others) (hstored : checkIPv4 text = .ok stored)
    (hstored' : checkIPv4 other = .ok stored') :
    address octets < address others ↔ storedInteger stored < storedInteger stored' := by
  have hdigit : ∀ {l : List ℕ}, (∀ octet ∈ l, octet ≤ 255) →
      ∀ octet ∈ l, octet < 256 ∧ octet < 1000 := by
    intro l hl octet hoctet
    have := hl octet hoctet
    omega
  rw [number_iff h hstored, number_iff h' hstored', storedInteger_flatMap h.le,
    storedInteger_flatMap h'.le]
  exact positional_lt_iff (h.length.trans h'.length.symm) (hdigit h.le) (hdigit h'.le)

/-- The texts that come through the table as addresses. -/
theorem survives_iff (text : Text) : Survives text ↔ PlainAddress text := by
  constructor
  · intro h octets hreads
    have hstored := checkIPv4_eq_ok.mpr ⟨octets, hreads, rfl⟩
    obtain ⟨others, hothers⟩ := h.taken.mp ⟨_, hstored⟩
    obtain ⟨hothersReads, hdigits⟩ := dottedDecimal_iff.mp hothers
    obtain rfl := hreads.unique hothersReads
    refine ⟨hdigits, ?_⟩
    by_contra hzero
    have hall : ∀ octet ∈ octets, octet = 0 := fun octet hoctet ↦
      by_contra fun hne ↦ hzero ⟨octet, hoctet, hne⟩
    have hshown := h.shown octets _ hothers hstored "ipv4".toList (by decide) true
    rw [storedInteger_flatMap hreads.le, (positional_eq_zero_iff (by decide)).mpr hall] at hshown
    have hformat :=
      (formatValue_zero (show "ipv4".toList ∈ addressKeys by decide) true).symm.trans hshown
    obtain rfl : octets = [0, 0, 0, 0] :=
      List.eq_replicate_iff.mpr ⟨hreads.length, hall⟩
    exact absurd (Except.ok.inj hformat) (by decide)
  · intro h
    refine ⟨⟨?_, ?_⟩, fun other octets others stored stored' ↦ address_lt_iff, ?_⟩
    · rintro ⟨stored, hstored⟩
      obtain ⟨octets, hreads, -⟩ := checkIPv4_eq_ok.mp hstored
      exact ⟨octets, dottedDecimal_iff.mpr ⟨hreads, (h octets hreads).1⟩⟩
    · rintro ⟨octets, hoctets⟩
      exact ⟨_, checkIPv4_eq_ok.mpr ⟨octets, (dottedDecimal_iff.mp hoctets).1, rfl⟩⟩
    · intro octets stored hoctets hstored key hkey units
      rw [number_iff hoctets hstored]
      exact formatValue_stored hoctets.length hoctets.le
        (h octets (dottedDecimal_iff.mp hoctets).1).2 hkey units

/-- `0.0.0.0` -/
def zeroAddress : Text :=
  "0.0.0.0".toList

/-- The stored integer of `0.0.0.0` is shown as a number. -/
theorem not_survives_zeroAddress : ¬ Survives zeroAddress := by
  intro h
  have hoctets : DottedDecimal zeroAddress [0, 0, 0, 0] := ⟨by decide, rfl, by decide⟩
  have hstored : checkIPv4 zeroAddress = .ok "000000000000".toList := by decide
  have hshown := h.shown _ _ hoctets hstored "ipv4".toList (by decide) true
  have hformat := formatValue_zero (show "ipv4".toList ∈ addressKeys by decide) true
  have hzero : ((storedInteger "000000000000".toList : ℕ) : ℤ) = 0 := by decide
  rw [hzero, hformat] at hshown
  exact absurd (Except.ok.inj hshown) (by decide)

end Userland.AutoInstall
