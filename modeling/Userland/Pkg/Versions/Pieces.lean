import Userland.Pkg.Versions.Order

/-!
# The pieces of a version

`Version(version_string, build_string)` of `pkg/version.py`. The constructor looks for the first
`:`, the first `-` and the first `,` of the whole text, and reads the pieces between them.

If no piece is empty, the text is the pieces behind their separators, each of which is the first one
in the text (`str_of_versionTexts`), and such pieces are found again (`versionTexts_str`). In a
process that holds no wildcard sequence the constructor reads the pieces one after the other
(`readVersion_iff`).
-/

set_option autoImplicit false
set_option relaxedAutoImplicit false

namespace Userland.Pkg.Flyweight

open Library.Program

/-! ### Optional pieces behind their separators -/

/-- An optional piece with its separator. -/
def piece (c : Char) : Option (List Char) → List Char
  | none => []
  | some text => c :: text

/-- The index, which may be missing, is the one the rest of a text begins at. -/
def EndsAt (stop : Option ℕ) (before after : List Char) : Prop :=
  stop = some before.length ∨ (stop = none ∧ after = [])

theorem slice_of_endsAt {stop : Option ℕ} {before after : List Char} (h : EndsAt stop before after)
    (start : ℕ) : Version.slice (before ++ after) start stop = before.drop start := by
  rcases h with rfl | ⟨rfl, rfl⟩
  · rw [Version.slice, List.take_left]
  · rw [Version.slice, List.append_nil]

/-- The part between the first occurrence of a separator and the index the next part begins at. -/
def located (c : Char) (text : List Char) (next : Option ℕ) : Option (List Char) :=
  (text.idxOf? c).map fun idx ↦ Version.slice text (idx + 1) next

variable {c : Char} {next : Option ℕ} {text before after : List Char} {found : Option (List Char)}

/-- An optional piece is located at its separator, and the part before it ends there. -/
theorem located_piece (htext : text = before ++ piece c found ++ after)
    (hnext : EndsAt next (before ++ piece c found) after) (hbefore : c ∉ before)
    (hafter : found = none → c ∉ after) :
    located c text next = found ∧ EndsAt ((text.idxOf? c).or next) before
    (piece c found ++ after) := by
  subst htext
  cases found with
  | none =>
    have habsent : (before ++ piece c none ++ after).idxOf? c = none := by
      rw [List.idxOf?_eq_none_iff]
      simp [piece, hbefore, hafter rfl]
    rw [located, habsent]
    exact ⟨rfl, by simpa [piece] using hnext⟩
  | some text =>
    have hpresent : (before ++ piece c (some text) ++ after).idxOf? c = some before.length := by
      rw [List.append_assoc]
      exact Version.idxOf?_append_cons before hbefore (text ++ after)
    rw [located, hpresent]
    refine ⟨?_, Or.inl rfl⟩
    rw [Option.map_some, slice_of_endsAt hnext]
    simp [piece]

/-- What is located before the next part, if it is not empty, is an optional piece. -/
theorem piece_of_located (htext : text = before ++ after) (hnext : EndsAt next before after)
    (hfound : located c text next = found) (hne : found ≠ some []) :
    ∃ rest, before = rest ++ piece c found ∧ c ∉ rest ∧ (found = none → c ∉ after) ∧
      EndsAt ((text.idxOf? c).or next) rest (piece c found ++ after) := by
  by_cases hmem : c ∈ before
  · obtain ⟨rest, behind, rfl, hrest⟩ := List.eq_append_cons_of_mem hmem
    have hpiece : located c text next = some behind ∧
        EndsAt ((text.idxOf? c).or next) rest (piece c (some behind) ++ after) :=
      located_piece htext hnext hrest (by simp)
    obtain ⟨hlocated, hends⟩ := hpiece
    obtain rfl : some behind = found := hlocated.symm.trans hfound
    exact ⟨rest, rfl, hrest, by simp, hends⟩
  · subst htext
    by_cases hafter : c ∈ after
    · obtain ⟨front, back, rfl, hfront⟩ := List.eq_append_cons_of_mem hafter
      obtain rfl : next = some before.length := by
        rcases hnext with hnext | ⟨-, hnil⟩
        · exact hnext
        · exact absurd hnil (by simp)
      have hidx : (before ++ (front ++ c :: back)).idxOf? c = some (before ++ front).length := by
        rw [← List.append_assoc]
        exact Version.idxOf?_append_cons _ (by simp [hmem, hfront]) back
      refine absurd (hfound.symm.trans ?_) hne
      rw [located, hidx, Option.map_some, slice_of_endsAt (Or.inl rfl)]
      simp only [List.length_append, Option.some.injEq, List.drop_eq_nil_iff]
      omega
    · have habsent : (before ++ after).idxOf? c = none := by
        rw [List.idxOf?_eq_none_iff]
        simp [hmem, hafter]
      obtain rfl : none = found := by
        rw [← hfound, located, habsent]
        rfl
      refine ⟨before, by simp [piece], hmem, fun _ ↦ hafter, ?_⟩
      rw [habsent]
      exact hnext

theorem notMem_piece {separator : Char} (hne : c ≠ separator)
    (h : ∀ text, found = some text → c ∉ text) : c ∉ piece separator found := by
  cases found with
  | none => simp [piece]
  | some text => simp [piece, hne, h text rfl]

/-! ### The pieces of a version -/

/-- The text whose pieces these are. -/
def VersionTexts.str (texts : VersionTexts) : List Char :=
  texts.release ++ piece ',' texts.buildRelease ++ piece '-' texts.branch ++ piece ':' texts.timestr

/-- The separators of the pieces are their first occurrences. -/
structure VersionTexts.Located (texts : VersionTexts) : Prop where
  comma : ',' ∉ texts.release
  comma_after : texts.buildRelease = none → ',' ∉ piece '-' texts.branch ++ piece ':' texts.timestr
  dash : '-' ∉ texts.release ++ piece ',' texts.buildRelease
  dash_after : texts.branch = none → '-' ∉ piece ':' texts.timestr
  colon : ':' ∉ texts.release ++ piece ',' texts.buildRelease ++ piece '-' texts.branch

/-- No piece is empty. -/
structure VersionTexts.Nonempty (texts : VersionTexts) : Prop where
  release : texts.release ≠ []
  buildRelease : texts.buildRelease ≠ some []
  branch : texts.branch ≠ some []
  timestr : texts.timestr ≠ some []

theorem endsAt_none (text : List Char) : EndsAt none text [] :=
  Or.inr ⟨rfl, rfl⟩

variable {versionString : List Char}

theorem versionTexts_eq (h : versionString ≠ []) : versionTexts versionString =
      let timeidx := (versionString.idxOf? ':').or none
      let branchidx := (versionString.idxOf? '-').or timeidx
      let buildidx := (versionString.idxOf? ',').or branchidx
      if buildidx = some 0 then .error .noRelease
      else .ok ⟨Version.slice versionString 0 buildidx, located ',' versionString branchidx,
        located '-' versionString timeidx, located ':' versionString none⟩ := by
  unfold versionTexts
  simp only [h, located, if_false, Option.or_none]
  split_ifs <;> rfl

theorem length_ne_zero_of_endsAt {stop : Option ℕ} (h : EndsAt stop before after)
    (hne : before ≠ []) :
    stop ≠ some 0 := by
  rcases h with rfl | ⟨rfl, -⟩
  · simpa using hne
  · simp

variable {texts : VersionTexts}

/-- Located pieces are found again. -/
theorem versionTexts_str (h : texts.Located) (hrelease : texts.release ≠ []) :
    versionTexts texts.str = .ok texts := by
  have hfront : texts.str = texts.release ++ piece ',' texts.buildRelease ++
      piece '-' texts.branch ++
      piece ':' texts.timestr := rfl
  have hfirst : texts.str = texts.release ++ piece ',' texts.buildRelease ++
      piece '-' texts.branch ++
      piece ':' texts.timestr ++ [] := by simp [hfront]
  have hlast : texts.str = texts.release ++ piece ',' texts.buildRelease ++
      (piece '-' texts.branch ++ piece ':' texts.timestr) := by simp [hfront]
  have hwhole : texts.str = texts.release ++ (piece ',' texts.buildRelease ++
      (piece '-' texts.branch ++ piece ':' texts.timestr)) := by simp [hfront]
  obtain ⟨htimestr, htimeidx⟩ := located_piece hfirst (endsAt_none _) h.colon (by simp)
  rw [List.append_nil] at htimeidx
  obtain ⟨hbranch, hbranchidx⟩ := located_piece hfront htimeidx h.dash h.dash_after
  obtain ⟨hbuild, hbuildidx⟩ := located_piece hlast hbranchidx h.comma h.comma_after
  have hstr : texts.str ≠ [] := by simp [hfront, hrelease]
  rw [versionTexts_eq hstr]
  dsimp only
  rw [if_neg (length_ne_zero_of_endsAt hbuildidx hrelease), hbuild, hbranch, htimestr]
  nth_rewrite 1 [hwhole]
  rw [slice_of_endsAt hbuildidx, List.drop_zero]

/-- Nonempty pieces are those of the text, located by their separators. -/
theorem str_of_versionTexts (h : versionTexts versionString = .ok texts)
    (hnonempty : texts.Nonempty) :
    versionString = texts.str ∧ texts.Located := by
  have hne : versionString ≠ [] := by
    rintro rfl
    cases h
  rw [versionTexts_eq hne] at h
  dsimp only at h
  split_ifs at h
  cases h
  obtain ⟨hrelease, hbuild, hbranch, htimestr⟩ := hnonempty
  dsimp only at *
  have hwhole : versionString = versionString ++ [] := by simp
  obtain ⟨beforeTime, htime, hcolon, -, htimeidx⟩ :=
    piece_of_located hwhole (endsAt_none _) rfl htimestr
  rw [List.append_nil] at htimeidx
  obtain ⟨beforeBranch, hdash, hnodash, hdashAfter, hbranchidx⟩ :=
    piece_of_located htime htimeidx rfl hbranch
  have hrest := htime
  rw [hdash, List.append_assoc] at hrest
  obtain ⟨first, hcomma, hnocomma, hcommaAfter, hbuildidx⟩ :=
    piece_of_located hrest hbranchidx rfl hbuild
  have hsplit := hrest
  rw [hcomma, List.append_assoc] at hsplit
  have hfirst : Version.slice versionString 0 ((versionString.idxOf? ',').or
      ((versionString.idxOf? '-').or ((versionString.idxOf? ':').or none))) = first := by
    nth_rewrite 1 [hsplit]
    rw [slice_of_endsAt hbuildidx, List.drop_zero]
  rw [hdash, hcomma] at hcolon
  rw [hcomma] at hnodash
  rw [hfirst]
  refine ⟨?_, ⟨hnocomma, hcommaAfter, hnodash, hdashAfter, hcolon⟩⟩
  rw [VersionTexts.str, List.append_assoc, List.append_assoc]
  exact hsplit

/-! ### The constructor in a fresh process -/

/-- `Version(version_string, build_string)`; `none` is `IllegalVersion`. -/
def readVersion (versionString : List Char) (buildString : Option (List Char)) :
    Option VersionObject :=
  match (Construction.version versionString buildString).fresh with
  | .ok (.version version) => some version
  | _ => none

/-- An optional sequence of the constructor. -/
def readOptional : Option (List Char) → Except VersionError (Option DotObject)
  | none => .ok none
  | some dotstring => (DotObject.init .dotSequence dotstring).map some

/-- The pieces of a text are read as the components of a version. -/
structure Reads (texts : VersionTexts) (buildString : Option (List Char))
    (version : VersionObject) :
    Prop where
  cls : version.cls = .version
  release : DotObject.init .dotSequence texts.release = .ok version.release
  branch : readOptional texts.branch = .ok version.branch
  buildRelease : ∃ build, texts.buildRelease.or buildString = some build ∧
    DotObject.init .dotSequence build = .ok version.buildRelease
  timestr : version.timestr = texts.timestr
  valid : (texts.timestr.map validTime).getD true = true

/-- The pool holds no wildcard sequence. -/
structure Plain (pool : Pool) : Prop where
  consistent : Consistent pool
  held : ∀ dotstring, Held .dotSequence pool dotstring

theorem plain_nil : Plain [] :=
  ⟨consistent_nil, fun _ _ h ↦ by cases h⟩

theorem exec_construct_plain {pool : Pool} (h : Plain pool) (dotstring : List Char) :
    ∃ pool', exec (construct .dotSequence dotstring) pool =
      (DotObject.init .dotSequence dotstring, pool') ∧ Plain pool' := by
  obtain ⟨pool', hexec, hconsistent, hheld⟩ := exec_construct h.consistent (h.held dotstring)
  exact ⟨pool', hexec, hconsistent, fun other ↦ hheld other (h.held other)⟩

theorem exec_constructOptional_plain {pool : Pool} (h : Plain pool)
    (dotstring : Option (List Char)) :
    ∃ pool', exec (constructOptional .dotSequence dotstring) pool =
      (readOptional dotstring, pool') ∧ Plain pool' := by
  cases dotstring with
  | none => exact ⟨pool, rfl, h⟩
  | some text =>
    obtain ⟨pool', hexec, hplain⟩ := exec_construct_plain h text
    refine ⟨pool', ?_, hplain⟩
    rw [constructOptional, exec_bind, hexec, readOptional]
    cases DotObject.init .dotSequence text <;> rfl

/-- The components that the pieces of a text give. -/
def readTexts (texts : VersionTexts) (buildString : Option (List Char)) :
    Except VersionError VersionObject := do
  let release ← DotObject.init .dotSequence texts.release
  let branch ← readOptional texts.branch
  match texts.buildRelease.or buildString with
  | none => .error .noBuild
  | some build =>
    let buildRelease ← DotObject.init .dotSequence build
    if (texts.timestr.map validTime).getD true then
      return ⟨.version, release, buildRelease, branch, texts.timestr⟩
    else .error .badTime

theorem readTexts_iff {buildString : Option (List Char)} {version : VersionObject} :
    readTexts texts buildString = .ok version ↔ Reads texts buildString version := by
  unfold readTexts
  constructor
  · intro h
    obtain ⟨release, hrelease, h⟩ := Library.Program.bind_eq_ok h
    obtain ⟨branch, hbranch, h⟩ := Library.Program.bind_eq_ok h
    cases hbuild : texts.buildRelease.or buildString with
    | none =>
      rw [hbuild] at h
      cases h
    | some build =>
      rw [hbuild] at h
      obtain ⟨buildRelease, hread, h⟩ := Library.Program.bind_eq_ok h
      split_ifs at h with hvalid
      cases h
      exact ⟨rfl, hrelease, hbranch, ⟨build, hbuild, hread⟩, rfl, hvalid⟩
  · rintro ⟨hcls, hrelease, hbranch, ⟨build, hbuild, hread⟩, htimestr, hvalid⟩
    rw [hrelease, hbranch, hbuild]
    show (DotObject.init .dotSequence build >>= fun buildRelease ↦ _) = _
    rw [hread, ← htimestr]
    show (if (version.timestr.map validTime).getD true = true then _ else _) = _
    rw [htimestr, if_pos hvalid, ← hcls, ← htimestr]
    rfl

theorem exec_constructVersion (buildString : Option (List Char))
    (htexts : versionTexts versionString = .ok texts) :
    (exec (constructVersion versionString buildString) []).1 =
      (readTexts texts buildString).mapError asIllegalVersion := by
  unfold constructVersion
  rw [exec_bind, exec_lift, htexts]
  dsimp only
  rw [exec_tryCatch, exec_bind]
  obtain ⟨first, hfirst, hplain⟩ := exec_construct_plain plain_nil texts.release
  rw [hfirst, readTexts]
  cases DotObject.init .dotSequence texts.release with
  | error error => rfl
  | ok release =>
    dsimp only
    obtain ⟨second, hsecond, hplain⟩ := exec_constructOptional_plain hplain texts.branch
    rw [exec_bind, hsecond]
    cases readOptional texts.branch with
    | error error => rfl
    | ok branch =>
      dsimp only
      cases texts.buildRelease.or buildString with
      | none => rfl
      | some build =>
        dsimp only
        obtain ⟨third, hthird, -⟩ := exec_construct_plain hplain build
        rw [exec_bind, hthird]
        cases DotObject.init .dotSequence build with
        | error error => rfl
        | ok buildRelease =>
          dsimp only
          cases (texts.timestr.map validTime).getD true with
          | false => rfl
          | true => rfl

/-- The constructor reads the pieces of the text. -/
theorem readVersion_iff {buildString : Option (List Char)}
    {version : VersionObject} : readVersion versionString buildString = some version ↔
      ∃ texts, versionTexts versionString = .ok texts ∧ Reads texts buildString version := by
  unfold readVersion Construction.fresh Construction.build
  rw [exec_map]
  cases htexts : versionTexts versionString with
  | error error =>
    have hexec : exec (constructVersion versionString buildString) [] = (.error error, []) := by
      unfold constructVersion
      rw [exec_bind, exec_lift, htexts]
    rw [hexec]
    simp
  | ok texts =>
    have hexec := exec_constructVersion buildString htexts
    rcases hrun : exec (constructVersion versionString buildString) [] with ⟨result, pool⟩
    rw [hrun] at hexec
    dsimp only at hexec
    subst hexec
    simp only [Except.ok.injEq, exists_eq_left', ← readTexts_iff]
    cases readTexts texts buildString with
    | error error => simp [Except.mapError]
    | ok found => simp [Except.mapError]

end Userland.Pkg.Flyweight
