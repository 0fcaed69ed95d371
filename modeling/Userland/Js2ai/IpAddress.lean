import Userland.Library.BitText
import Mathlib.Data.List.Forall2
import Userland.Library.Program
import Userland.Pkg.Numeral

/-!
# Addresses and netmasks

`IPAddress` of `js2ai` takes an address as four texts between points. A netmask is checked on the
binary texts of its octets, which are joined without being filled up with zeros, and every octet is
what `int` makes of a text. `netmaskValidated_iff` says for which texts the check is the one that is
meant.

Scope. Texts are byte strings.
-/

set_option autoImplicit false
set_option relaxedAutoImplicit false

namespace Userland.Js2ai

open Library Library.BitText Userland.Pkg

/-- The errors, which are all `ValueError` but the last. -/
inductive AddressError
  | badLength
  | notNetmask
  | tooManyOctets
  | outOfRange
  | invalidLiteral (segment : List Char)
  | typeError
deriving DecidableEq

/-- An address and a netmask, as lists of octets. -/
structure IPAddress where
  address : Option (List ℕ)
  netmask : Option (List ℕ)
deriving DecidableEq

namespace IPAddress

/-- `DEFAULT`. -/
def defaultAddress : List Char :=
  ['0', '.', '0', '.', '0', '.', '0']

/-- `int(segment)` and the check of its range. -/
def intSegment (segment : List Char) : Except AddressError ℕ :=
  match Text.parseInt segment with
  | none => .error (.invalidLiteral segment)
  | some n => if n < 0 ∨ n > 255 then .error .outOfRange else .ok n.toNat

/-- `incremental_check`. -/
def incrementalCheck (address : List Char) : Except AddressError (List ℕ) :=
  let ip := address.splitOn '.'
  if ip.length > 4 then .error .tooManyOctets
  else (ip.filter fun segment ↦ !segment.isEmpty).mapM intSegment

/-- `as_binary_string`. -/
def asBinaryString (segments : List ℕ) : List Char :=
  segments.flatMap (Nat.toDigits 2)

/-- `convert_address`. -/
def convertAddress (address : List Char) (checkNetmask : Bool) : Except AddressError (List ℕ) :=
  (incrementalCheck address).bind fun segments ↦
    if segments.length ≠ 4 then .error .badLength
    else if checkNetmask ∧ ¬ IsRun (asBinaryString segments) then .error .notNetmask
    else .ok segments

/-- `set_address`. -/
def setAddress (ip : IPAddress) : Option (List Char) → Except AddressError IPAddress
  | none => .ok { ip with address := none }
  | some address => (convertAddress address false).map fun segments ↦
    { ip with address := some segments }

/-- The setter of `netmask`. -/
def setNetmask (ip : IPAddress) : Option (List Char) → Except AddressError IPAddress
  | none => .ok { ip with netmask := none }
  | some newMask => (convertAddress newMask true).map fun segments ↦
    { ip with netmask := some segments }

/-- `IPAddress(address, netmask)`. -/
def new (address netmask : Option (List Char)) : Except AddressError IPAddress :=
  (setAddress ⟨none, none⟩ address).bind fun ip ↦ ip.setNetmask netmask

/-- `shorthand_netmask`. -/
def shorthandNetmask (ip : IPAddress) : Except AddressError ℕ :=
  match ip.netmask with
  | none => .error .typeError
  | some segments => .ok ((asBinaryString segments).count '1')

/-- The octets between points. -/
def dotted (segments : List ℕ) : List Char :=
  List.intercalate ['.'] (segments.map (Nat.toDigits 10))

/-- `get_address`. -/
def getAddress (ip : IPAddress) : Except AddressError (List Char) :=
  let address := (ip.address.map dotted).getD defaultAddress
  if ip.netmask.any fun segments ↦ !segments.isEmpty then
    ip.shorthandNetmask.map fun shorthand ↦ address ++ '/' :: Nat.toDigits 10 shorthand
  else .ok address

end IPAddress

open IPAddress

/-! ### What is asked of a netmask -/

/-- A text of four decimal octets between points. -/
structure Dotted (text : List Char) (octets : List ℕ) : Prop where
  parts : (text.splitOn '.').map Text.digitsValue = octets.map some
  length : octets.length = 4
  le : ∀ octet ∈ octets, octet ≤ 255

/-- The number of 32 bits that octets stand for. -/
def wordValue (octets : List ℕ) : ℕ :=
  octets.foldl (fun word octet ↦ word * 256 + octet) 0

/-- The number of 32 bits of which the first ones are ones and the others zeros. -/
def IsNetmask (ones : ℕ) (octets : List ℕ) : Prop :=
  ones ≤ 32 ∧ wordValue octets = leading 32 ones

/-- A text is taken as a netmask exactly if it is one, and then the ones are counted and printed
after the address. -/
structure NetmaskValidated (text : List Char) : Prop where
  taken : ∀ ip : IPAddress, (∃ next, ip.setNetmask (some text) = .ok next) ↔
    ∃ octets ones, Dotted text octets ∧ IsNetmask ones octets
  shorthand : ∀ octets ones, Dotted text octets → IsNetmask ones octets → ∀ ip next : IPAddress,
    ip.setNetmask (some text) = .ok next → next.shorthandNetmask = .ok ones
  printed : ∀ octets ones, Dotted text octets → IsNetmask ones octets →
    ∀ (ip given next : IPAddress)
    (address : List Char), ip.setAddress (some address) = .ok given →
      given.setNetmask (some text) = .ok next →
      ∃ segments, convertAddress address false = .ok segments ∧
        next.getAddress = .ok (dotted segments ++ '/' :: Nat.toDigits 10 ones)

/-- The parts between points have digits in them only. -/
def Plain (text : List Char) : Prop :=
  ∀ segment ∈ text.splitOn '.', ∀ c ∈ segment, c.isDigit = true

/-! ### Reading the octets -/

theorem intSegment_iff {segment : List Char} (h : ∀ c ∈ segment, c.isDigit = true) {octet : ℕ} :
    intSegment segment = .ok octet ↔ Text.digitsValue segment = some octet ∧ octet ≤ 255 := by
  rw [intSegment, Text.parseInt_of_digits h]
  rcases Text.digitsValue segment with - | n
  · simp
  · rw [Option.map_some]
    dsimp only
    split_ifs with hrange
    · simp
      omega
    · simp
      omega

theorem incrementalCheck_eq (text : List Char) : incrementalCheck text =
    if (text.splitOn '.').length > 4 then .error .tooManyOctets
    else ((text.splitOn '.').filter fun segment ↦ !segment.isEmpty).mapM intSegment :=
  rfl

variable {octets : List ℕ} {text : List Char}

/-- Four octets are read of a text exactly if it has four parts that are read, none of them empty.
-/
theorem convertAddress_iff : convertAddress text false = .ok octets ↔
    (text.splitOn '.').map intSegment = octets.map .ok ∧ octets.length = 4 ∧
    [] ∉ text.splitOn '.' := by
  rw [convertAddress, incrementalCheck_eq]
  generalize text.splitOn '.' = ip
  constructor
  · intro h
    split_ifs at h with hlong
    · cases h
    · cases hread : (ip.filter fun segment ↦ !segment.isEmpty).mapM intSegment with
      | error error =>
        rw [hread] at h
        cases h
      | ok segments =>
        rw [hread, Except.bind, if_neg fun hmask : False ∧ _ ↦ hmask.1] at h
        split_ifs at h with hlength
        cases h
        rw [Program.mapM_eq_ok_iff] at hread
        have hfour := not_not.mp hlength
        have hlengths := congrArg List.length hread
        rw [List.length_map, List.length_map, hfour] at hlengths
        have hall : ip.filter (fun segment ↦ !segment.isEmpty) = ip :=
          List.filter_sublist.eq_of_length_le (by omega)
        refine ⟨hall ▸ hread, hfour, fun hmem ↦ ?_⟩
        rw [← hall] at hmem
        exact Bool.false_ne_true (List.mem_filter.mp hmem).2
  · rintro ⟨hread, hfour, hnil⟩
    have hall : ip.filter (fun segment ↦ !segment.isEmpty) = ip := by
      refine List.filter_eq_self.mpr fun segment hmem ↦ ?_
      cases segment with
      | nil => exact absurd hmem hnil
      | cons c rest => rfl
    have hlengths := congrArg List.length hread
    rw [List.length_map, List.length_map, hfour] at hlengths
    rw [if_neg (by omega), hall, Program.mapM_eq_ok_iff.mpr hread, Except.bind,
      if_neg (not_not.mpr hfour), if_neg fun hmask ↦ Bool.false_ne_true hmask.1]

theorem convertAddress_true_iff : convertAddress text true = .ok octets ↔
    convertAddress text false = .ok octets ∧ IsRun (asBinaryString octets) := by
  rw [convertAddress, convertAddress]
  cases incrementalCheck text with
  | error error => simp [Except.bind]
  | ok segments =>
    rw [Except.bind, Except.bind]
    by_cases hlength : segments.length ≠ 4
    · rw [if_pos hlength, if_pos hlength]
      exact iff_of_false (fun h ↦ (nomatch h)) fun h ↦ (nomatch h.1)
    · rw [if_neg hlength, if_neg hlength, if_neg fun hmask : false = true ∧ _ ↦
        Bool.false_ne_true hmask.1]
      by_cases hrun : IsRun (asBinaryString segments)
      · rw [if_neg fun hmask ↦ hmask.2 hrun]
        refine ⟨fun h ↦ ⟨h, Except.ok.inj h ▸ hrun⟩, And.left⟩
      · rw [if_pos ⟨rfl, hrun⟩]
        exact iff_of_false (fun h ↦ (nomatch h)) fun h ↦ hrun (Except.ok.inj h.1 ▸ h.2)

/-- Parts of digits only are read as what they stand for. -/
theorem map_intSegment_iff {segments : List (List Char)}
    (h : ∀ segment ∈ segments, ∀ c ∈ segment, c.isDigit = true)
    : segments.map intSegment = octets.map .ok ↔
      segments.map Text.digitsValue = octets.map some ∧ ∀ octet ∈ octets, octet ≤ 255 := by
  induction segments generalizing octets with
  | nil =>
    cases octets with
    | nil => simp
    | cons octet octets => exact iff_of_false (fun h ↦ (nomatch h)) fun h ↦ (nomatch h.1)
  | cons segment segments ih =>
    obtain ⟨hfirst, hrest⟩ := List.forall_mem_cons.mp h
    cases octets with
    | nil => exact iff_of_false (fun h ↦ (nomatch h)) fun h ↦ (nomatch h.1)
    | cons octet octets =>
      rw [List.map_cons, List.map_cons, List.cons.injEq, ih hrest, intSegment_iff hfirst,
        List.map_cons, List.map_cons, List.cons.injEq, List.forall_mem_cons]
      tauto

theorem dotted_iff : Dotted text octets ↔ convertAddress text false = .ok octets ∧ Plain text := by
  constructor
  · rintro ⟨hparts, hlength, hle⟩
    have hread : ∀ segment ∈ text.splitOn '.', segment ≠ [] ∧ segment.all Char.isDigit = true := by
      intro segment hmem
      have hsome : Text.digitsValue segment ∈ octets.map some := hparts ▸ List.mem_map_of_mem hmem
      obtain ⟨octet, -, hoctet⟩ := List.mem_map.mp hsome
      rw [Text.digitsValue] at hoctet
      split_ifs at hoctet with hdigits
      exact hdigits
    have hplain : Plain text := fun segment hmem ↦ List.all_eq_true.mp (hread segment hmem).2
    exact ⟨convertAddress_iff.mpr ⟨(map_intSegment_iff hplain).mpr ⟨hparts, hle⟩, hlength,
      fun hnil ↦ (hread [] hnil).1 rfl⟩, hplain⟩
  · rintro ⟨hread, hplain⟩
    obtain ⟨hparts, hlength, -⟩ := convertAddress_iff.mp hread
    obtain ⟨hvalues, hle⟩ := (map_intSegment_iff hplain).mp hparts
    exact ⟨hvalues, hlength, hle⟩

/-! ### Octets of eight digits -/

/-- The eight binary digits of an octet. -/
def padded (octet : ℕ) : List Char :=
  List.replicate (8 - (Nat.toDigits 2 octet).length) '0' ++ Nat.toDigits 2 octet

theorem isBinary_toDigits (n : ℕ) : IsBinary (Nat.toDigits 2 n) := by
  induction n using Nat.strong_induction_on with
  | h n ih =>
    have hdigit : ∀ d < 2, Nat.digitChar d = '0' ∨ Nat.digitChar d = '1' := by decide
    intro c hc
    rw [Nat.toDigits_eq_if (by decide)] at hc
    split_ifs at hc with hlt
    · obtain rfl := List.mem_singleton.mp hc
      exact hdigit n hlt
    · rcases List.mem_append.mp hc with hc | hc
      · exact ih (n / 2) (Nat.div_lt_self (by omega) (by decide)) c hc
      · obtain rfl := List.mem_singleton.mp hc
        exact hdigit _ (Nat.mod_lt _ (by decide))

theorem one_mem_toDigits {n : ℕ} (h : n ≠ 0) : '1' ∈ Nat.toDigits 2 n := by
  by_contra hnot
  have hzero := (value_eq_zero_iff (isBinary_toDigits n)).mpr hnot
  rw [value, Nat.ofDigitChars_toDigits (by decide) (by decide)] at hzero
  exact h hzero

theorem isBinary_padded (octet : ℕ) : IsBinary (padded octet) := by
  intro c hc
  rcases List.mem_append.mp hc with hc | hc
  · exact Or.inl (List.eq_of_mem_replicate hc)
  · exact isBinary_toDigits octet c hc

theorem length_padded {octet : ℕ} (h : octet ≤ 255) : (padded octet).length = 8 := by
  have hle := (Nat.length_toDigits_le_iff (b := 2) (n := octet) (k :=
    8) (by decide) (by decide)).mpr (by omega)
  rw [padded, List.length_append, List.length_replicate]
  omega

theorem value_padded (octet : ℕ) : value (padded octet) = octet := by
  rw [padded, value, Nat.ofDigitChars_append, Nat.ofDigitChars_replicate_zero, mul_zero,
    Nat.ofDigitChars_toDigits (by decide) (by decide)]

theorem padded_of_le {octet : ℕ} (h : 128 ≤ octet) : padded octet = Nat.toDigits 2 octet := by
  have hlt : ¬ (Nat.toDigits 2 octet).length ≤ 7 := by
    rw [Nat.length_toDigits_le_iff (by decide) (by decide)]
    omega
  rw [padded, Nat.sub_eq_zero_of_le (by omega), List.replicate_zero, List.nil_append]

/-- An octet that is not zero and below 128 has a zero in front of a one. -/
theorem not_isRun_padded {octet : ℕ} (hne : octet ≠ 0) (hlt : octet < 128) :
    ¬ IsRun (padded octet) := by
  have hle := (Nat.length_toDigits_le_iff (b := 2) (n := octet) (k :=
    7) (by decide) (by decide)).mpr (by omega)
  have hsub : 8 - (Nat.toDigits 2 octet).length = 7 - (Nat.toDigits 2 octet).length + 1 := by omega
  rw [padded, hsub, List.replicate_succ, List.cons_append, isRun_zero_cons, not_not]
  exact List.mem_append_right _ (one_mem_toDigits hne)

/-- An octet of which the text has all its digits, or no ones. -/
def Full (octet : ℕ) : Prop :=
  octet = 0 ∨ 128 ≤ octet

theorem count_padded (octet : ℕ) : (padded octet).count '1' = (Nat.toDigits 2 octet).count '1' := by
  rw [padded, List.count_append, List.count_replicate, if_neg (by decide), zero_add]

theorem count_flatMap_padded (octets : List ℕ) :
    (octets.flatMap padded).count '1' = (asBinaryString octets).count '1' := by
  induction octets with
  | nil => rfl
  | cons octet octets ih =>
    rw [List.flatMap_cons, List.count_append, count_padded, ih, asBinaryString, asBinaryString,
      List.flatMap_cons, List.count_append]

theorem one_mem_iff (octets : List ℕ) : '1' ∈ octets.flatMap padded ↔
    '1' ∈ asBinaryString octets := by
  rw [← List.count_pos_iff, count_flatMap_padded, List.count_pos_iff]

/-- Of such octets the binary text is a run exactly if the digits of the number of 32 bits are. -/
theorem isRun_asBinaryString (h : ∀ octet ∈ octets, Full octet) :
    IsRun (asBinaryString octets) ↔ IsRun (octets.flatMap padded) := by
  induction octets with
  | nil => exact Iff.rfl
  | cons octet octets ih =>
    obtain ⟨hfirst, hrest⟩ := List.forall_mem_cons.mp h
    have hcons : asBinaryString (octet :: octets) = Nat.toDigits 2 octet ++ asBinaryString octets :=
      List.flatMap_cons
    rw [hcons, List.flatMap_cons, isRun_append (isBinary_toDigits octet),
      isRun_append (isBinary_padded octet), ih hrest, one_mem_iff]
    rcases hfirst with rfl | hle
    · exact iff_of_eq (by simp [padded])
    · rw [padded_of_le hle]

/-- Octets of which the digits are a run are such octets. -/
theorem full_of_isRun (h : IsRun (octets.flatMap padded)) : ∀ octet ∈ octets, Full octet := by
  induction octets with
  | nil => exact fun octet hmem ↦ (nomatch hmem)
  | cons octet octets ih =>
    rw [List.flatMap_cons, isRun_append (isBinary_padded octet)] at h
    obtain ⟨hfirst, hzero, hrest⟩ := h
    refine List.forall_mem_cons.mpr ⟨?_, ih ?_⟩
    · by_contra hfull
      obtain ⟨hne, hlt⟩ := not_or.mp hfull
      exact not_isRun_padded hne (not_le.mp hlt) hfirst
    · by_cases hmem : '0' ∈ padded octet
      · exact fun hone ↦ hzero hmem ((List.dropWhile_sublist _).subset hone)
      · exact hrest hmem

theorem value_flatMap_padded (h : ∀ octet ∈ octets, octet ≤ 255) :
    (octets.flatMap padded).length = 8 * octets.length ∧
    value (octets.flatMap padded) = wordValue octets := by
  induction octets using List.reverseRecOn with
  | nil => exact ⟨rfl, rfl⟩
  | append_singleton octets octet ih =>
    obtain ⟨hlength, hvalue⟩ := ih fun x hx ↦ h x (List.mem_append_left _ hx)
    have hoctet := length_padded (h octet (List.mem_append_right _ List.mem_cons_self))
    rw [List.flatMap_append, List.flatMap_singleton, List.length_append, hlength, hoctet,
      List.length_append,
      List.length_singleton, value_append, hvalue, hoctet, value_padded, wordValue, wordValue,
        List.foldl_append]
    exact ⟨rfl, rfl⟩

/-- Four octets are a netmask exactly if their digits are a run with so many ones. -/
theorem isNetmask_iff (hlength : octets.length = 4) (hle : ∀ octet ∈ octets, octet ≤ 255)
    {ones : ℕ} : IsNetmask ones octets ↔
      IsRun (octets.flatMap padded) ∧ (asBinaryString octets).count '1' = ones := by
  obtain ⟨hbits, hvalue⟩ := value_flatMap_padded hle
  have hbinary : IsBinary (octets.flatMap padded) := by
    intro c hc
    obtain ⟨octet, -, hmem⟩ := List.mem_flatMap.mp hc
    exact isBinary_padded octet c hmem
  rw [hlength] at hbits
  have hiff : ones ≤ 32 →
      (value (octets.flatMap padded) = leading (octets.flatMap padded).length ones ↔ _) :=
    fun h ↦ value_eq_leading_iff hbinary (by omega)
  rw [hvalue, hbits, count_flatMap_padded] at hiff
  constructor
  · rintro ⟨h, heq⟩
    exact (hiff h).mp heq
  · intro h
    have hones : ones ≤ 32 := by
      have hcount := (octets.flatMap padded).count_le_length (a := '1')
      rw [count_flatMap_padded] at hcount
      omega
    exact ⟨hones, (hiff hones).mpr h⟩

/-! ### When a netmask is validated as it is meant -/

theorem setNetmask_iff {ip next : IPAddress} : ip.setNetmask (some text) = .ok next ↔
    ∃ octets, convertAddress text true = .ok octets ∧
    { ip with netmask := some octets } = next := by
  rw [setNetmask]
  cases convertAddress text true with
  | error error => exact iff_of_false (fun h ↦ (nomatch h)) fun ⟨octets, h, _⟩ ↦ (nomatch h)
  | ok octets =>
    constructor
    · exact fun h ↦ ⟨octets, rfl, Except.ok.inj h⟩
    · rintro ⟨octets', hoctets, rfl⟩
      cases hoctets
      rfl

theorem shorthandNetmask_of_some {ip : IPAddress} (h : ip.netmask = some octets) :
    ip.shorthandNetmask = .ok ((asBinaryString octets).count '1') := by
  rw [shorthandNetmask, h]

/-- What is printed for an object with an address and a netmask. -/
theorem getAddress_of_some {ip : IPAddress} {segments octets : List ℕ}
    (haddress : ip.address = some segments)
    (hnetmask : ip.netmask = some octets) (hlength : octets.length = 4) :
    ip.getAddress = .ok (dotted segments ++ '/' :: Nat.toDigits 10
      ((asBinaryString octets).count '1')) := by
  rw [getAddress, shorthandNetmask_of_some hnetmask, haddress, hnetmask]
  cases octets with
  | nil => cases hlength
  | cons octet octets => rfl

/-- A text is validated as it is meant exactly if it is not taken at all, or its parts have digits
in them only and no octet is between 1 and 127. -/
theorem netmaskValidated_iff (text : List Char) : NetmaskValidated text ↔
    ∀ octets, convertAddress text false = .ok octets → IsRun (asBinaryString octets) →
      Plain text ∧ ∀ octet ∈ octets, Full octet := by
  have hmask : ∀ octets ones, Dotted text octets → IsNetmask ones octets →
      convertAddress text true = .ok octets ∧
      (asBinaryString octets).count '1' = ones ∧ ∀ octet ∈ octets, Full octet := by
    intro octets ones hdotted hnetmask
    obtain ⟨hrun, hcount⟩ := (isNetmask_iff hdotted.length hdotted.le).mp hnetmask
    have hfull := full_of_isRun hrun
    exact ⟨convertAddress_true_iff.mpr ⟨(dotted_iff.mp hdotted).1,
      (isRun_asBinaryString hfull).mpr hrun⟩, hcount, hfull⟩
  constructor
  · intro h octets hread hrun
    obtain ⟨octets', ones, hdotted, hnetmask⟩ := (h.taken ⟨none, none⟩).mp
      ⟨_, setNetmask_iff.mpr ⟨octets, convertAddress_true_iff.mpr ⟨hread, hrun⟩, rfl⟩⟩
    obtain ⟨hread', hplain⟩ := dotted_iff.mp hdotted
    obtain rfl : octets = octets' := Except.ok.inj (hread.symm.trans hread')
    exact ⟨hplain, (hmask octets ones hdotted hnetmask).2.2⟩
  · intro h
    refine ⟨fun ip ↦ ⟨?_, ?_⟩, ?_, ?_⟩
    · rintro ⟨next, hnext⟩
      obtain ⟨octets, htrue, -⟩ := setNetmask_iff.mp hnext
      obtain ⟨hread, hrun⟩ := convertAddress_true_iff.mp htrue
      obtain ⟨hplain, hfull⟩ := h octets hread hrun
      have hdotted := dotted_iff.mpr ⟨hread, hplain⟩
      exact ⟨octets, _, hdotted, (isNetmask_iff hdotted.length hdotted.le).mpr
        ⟨(isRun_asBinaryString hfull).mp hrun, rfl⟩⟩
    · rintro ⟨octets, ones, hdotted, hnetmask⟩
      exact ⟨_, setNetmask_iff.mpr ⟨octets, (hmask octets ones hdotted hnetmask).1, rfl⟩⟩
    · intro octets ones hdotted hnetmask ip next hnext
      obtain ⟨htrue, hcount, -⟩ := hmask octets ones hdotted hnetmask
      obtain ⟨octets', htrue', rfl⟩ := setNetmask_iff.mp hnext
      obtain rfl : octets = octets' := Except.ok.inj (htrue.symm.trans htrue')
      rw [shorthandNetmask_of_some rfl, hcount]
    · intro octets ones hdotted hnetmask ip given next address hgiven hnext
      obtain ⟨htrue, hcount, -⟩ := hmask octets ones hdotted hnetmask
      obtain ⟨octets', htrue', rfl⟩ := setNetmask_iff.mp hnext
      obtain rfl : octets = octets' := Except.ok.inj (htrue.symm.trans htrue')
      rw [setAddress] at hgiven
      cases hsegments : convertAddress address false with
      | error error =>
        rw [hsegments] at hgiven
        cases hgiven
      | ok segments =>
        rw [hsegments] at hgiven
        cases hgiven
        exact ⟨segments, rfl, hcount ▸ getAddress_of_some rfl rfl hdotted.length⟩

/-- A mask with a gap in its bits is taken, and so is one with a sign. -/
theorem not_netmaskValidated_gap :
    (new none (some "255.1.0.0".toList) = .ok ⟨none, some [255, 1, 0, 0]⟩ ∧
      shorthandNetmask ⟨none, some [255, 1, 0, 0]⟩ = .ok 9 ∧
      ¬ NetmaskValidated "255.1.0.0".toList) ∧
    (new none (some "+255.0.0.0".toList) = .ok ⟨none, some [255, 0, 0, 0]⟩ ∧
      ¬ NetmaskValidated "+255.0.0.0".toList) := by
  have hgap : setNetmask ⟨none, none⟩ (some "255.1.0.0".toList) =
    .ok ⟨none, some [255, 1, 0, 0]⟩ := by decide
  have hsign : setNetmask ⟨none, none⟩ (some "+255.0.0.0".toList) =
    .ok ⟨none, some [255, 0, 0, 0]⟩ := by decide
  refine ⟨⟨hgap, by decide, fun h ↦ ?_⟩, hsign, fun h ↦ ?_⟩
  · obtain ⟨octets, ones, hdotted, hones, hvalue⟩ := (h.taken ⟨none, none⟩).mp ⟨_, hgap⟩
    have hparts : ("255.1.0.0".toList.splitOn '.').map Text.digitsValue =
      [255, 1, 0, 0].map some := by decide
    obtain rfl : [255, 1, 0, 0] = octets :=
      List.map_injective_iff.mpr (Option.some_injective ℕ) (hparts.symm.trans hdotted.parts)
    have hnone : ∀ ones ≤ 32, wordValue [255, 1, 0, 0] ≠ leading 32 ones := by decide
    exact hnone ones hones hvalue
  · obtain ⟨octets, ones, hdotted, -⟩ := (h.taken ⟨none, none⟩).mp ⟨_, hsign⟩
    have hparts : none ∈ ("+255.0.0.0".toList.splitOn '.').map Text.digitsValue := by decide
    rw [hdotted.parts] at hparts
    obtain ⟨octet, -, hoctet⟩ := List.mem_map.mp hparts
    cases hoctet

/-! ### What is printed -/

theorem le_of_convertAddress (h : convertAddress text false = .ok octets) :
    ∀ octet ∈ octets, octet ≤ 255 := by
  intro octet hmem
  have hok : .ok octet ∈ (text.splitOn '.').map intSegment :=
    (convertAddress_iff.mp h).1 ▸ List.mem_map_of_mem hmem
  obtain ⟨segment, -, hsegment⟩ := List.mem_map.mp hok
  rw [intSegment] at hsegment
  split at hsegment
  · cases hsegment
  · split_ifs at hsegment with hrange
    cases hsegment
    omega

/-- Octets that are printed are read back. -/
theorem convertAddress_dotted (hlength : octets.length = 4) (hle : ∀ octet ∈ octets, octet ≤ 255) :
    convertAddress (dotted octets) false = .ok octets := by
  have hdigits : ∀ segment ∈ octets.map (Nat.toDigits 10), ∀ c ∈ segment, c.isDigit = true := by
    intro segment hmem c hc
    obtain ⟨octet, -, rfl⟩ := List.mem_map.mp hmem
    exact Text.isDigit_of_mem_toDigits hc
  have hparts : (dotted octets).splitOn '.' = octets.map (Nat.toDigits 10) := by
    refine List.splitOn_intercalate '.' (fun segment hmem hpoint ↦ ?_) fun hnil ↦ ?_
    · exact absurd (hdigits segment hmem '.' hpoint) (by decide)
    · rw [List.map_eq_nil_iff.mp hnil] at hlength
      cases hlength
  have hread : (octets.map (Nat.toDigits 10)).map Text.digitsValue = octets.map some := by
    rw [List.map_map]
    exact List.map_congr_left fun octet _ ↦ Text.digitsValue_toDigits octet
  refine convertAddress_iff.mpr ⟨hparts ▸ (map_intSegment_iff hdigits).mpr ⟨hread, hle⟩, hlength,
    fun hnil ↦ ?_⟩
  rw [hparts] at hnil
  have hnone : none ∈ octets.map some := hread ▸ List.mem_map_of_mem hnil
  obtain ⟨octet, -, hoctet⟩ := List.mem_map.mp hnone
  cases hoctet

/-- An address that was taken from a text, without a netmask, is printed as a text that stands for
it. -/
theorem printed_of_setAddress {ip next : IPAddress} (h : ip.setAddress (some text) = .ok next)
    (hmask : next.netmask = none) :
    ∃ octets, next.address = some octets ∧ next.getAddress = .ok (dotted octets) ∧
      convertAddress (dotted octets) false = .ok octets := by
  rw [setAddress] at h
  cases hoctets : convertAddress text false with
  | error error =>
    rw [hoctets] at h
    cases h
  | ok octets =>
    rw [hoctets] at h
    cases h
    refine ⟨octets, rfl, ?_, convertAddress_dotted (convertAddress_iff.mp hoctets).2.1
      (le_of_convertAddress hoctets)⟩
    rw [getAddress, hmask]
    rfl

/-- Without a netmask, an address that is printed is taken again as the same address, and two that
were taken from texts are printed alike exactly if they are the same. -/
theorem printed_address_taken {ip next : IPAddress} {text : List Char}
    (h : ip.setAddress (some text) = .ok next) (hmask : next.netmask = none) :
    ∃ printed, next.getAddress = .ok printed ∧
      (∀ other : IPAddress, other.setAddress (some printed) =
        .ok { other with address := next.address }) ∧
      ∀ (ip' next' : IPAddress) (text' : List Char), ip'.setAddress (some text') = .ok next' →
        next'.netmask = none →
        (next'.getAddress = .ok printed ↔ next'.address = next.address) := by
  obtain ⟨octets, haddress, hprinted, hread⟩ := printed_of_setAddress h hmask
  refine ⟨dotted octets, hprinted, fun other ↦ ?_, fun ip' next' text' h' hmask' ↦ ?_⟩
  · rw [setAddress, hread, haddress]
    rfl
  · obtain ⟨octets', haddress', hprinted', hread'⟩ := printed_of_setAddress h' hmask'
    rw [hprinted', haddress', haddress, Except.ok.injEq, Option.some.injEq]
    refine ⟨fun heq ↦ ?_, fun heq ↦ by rw [heq]⟩
    rw [heq, hread] at hread'
    exact (Except.ok.inj hread').symm

/-- Zeros in front are not printed. -/
theorem printed_address_taken_zeros :
    ∃ printed, getAddress ⟨some [10, 0, 0, 1], none⟩ = .ok printed ∧
    ∀ other : IPAddress, other.setAddress (some printed) =
    .ok { other with address := some [10, 0, 0, 1] } := by
  obtain ⟨printed, hprinted, htaken, -⟩ := printed_address_taken
    (show setAddress ⟨none, none⟩ (some "010.0.0.01".toList) = .ok ⟨some [10, 0, 0, 1],
      none⟩ by decide) rfl
  exact ⟨printed, hprinted, htaken⟩

end Userland.Js2ai
