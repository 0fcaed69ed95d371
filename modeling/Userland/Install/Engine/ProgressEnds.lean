import Userland.Install.Engine.Progress

/-!
# How the progress of the install engine ends

The values of an execution never decrease and stay between 0 and 100 as long as no report comes to
101, and they end with 100 exactly if the shares do (`promised_iff`): those before the last
checkpoint that reports, with the whole percents of its own share, have to come to 100 percent. Two
checkpoints of which one takes twice as long as the other end with 99 (`not_promised_of_thirds`).
-/

set_option autoImplicit false
set_option relaxedAutoImplicit false

namespace Userland.Install.Engine

open Userland.Library Decimal

/-! ### What a report comes to -/

/-- The percentages before a checkpoint with the whole percents of its share. -/
def amount (completed ratio : ℚ) (cpProg : ℤ) : ℚ :=
  completed + trunc (context (cpProg * ratio))

/-- The percentages with those of a checkpoint. -/
def finished (completed ratio : ℚ) : ℚ :=
  context (completed + context (ratio * 100))

/-- The last report comes to 100. -/
def Reaches : ℚ → List (ℚ × List ℤ) → Prop
  | _, [] => False
  | completed, (ratio, reports) :: rest =>
    Reaches (finished completed ratio) rest ∨
      (∀ entry ∈ rest, entry.2 = []) ∧ ∃ cpProg ∈ reports.getLast?,
        100 ≤ amount completed ratio cpProg

/-- No report comes to 101. -/
def Stays : ℚ → List (ℚ × List ℤ) → Prop
  | _, [] => True
  | completed, (ratio, reports) :: rest =>
    (∀ cpProg ∈ reports, amount completed ratio cpProg < 101) ∧
      Stays (finished completed ratio) rest

/-- The values of the reports. -/
def valuesOf : ℚ → List (ℚ × List ℤ) → List ℤ
  | _, [] => []
  | completed, (ratio, reports) :: rest =>
    reports.map (fun cpProg ↦ trunc (context (amount completed ratio cpProg))) ++
      valuesOf (finished completed ratio) rest

theorem context_mono {x y : ℚ} (h : x ≤ y) : context x ≤ context y :=
  roundDown_mono (by norm_num) h

theorem context_nonneg {x : ℚ} (h : 0 ≤ x) : 0 ≤ context x :=
  roundDown_nonneg h

theorem finished_nonneg {completed ratio : ℚ} (hcompleted : 0 ≤ completed) (hratio : 0 ≤ ratio) :
    0 ≤ finished completed ratio :=
  context_nonneg (add_nonneg hcompleted (context_nonneg (mul_nonneg hratio (by norm_num))))

/-- A whole number of eight digits is no change. -/
theorem context_intCast {n : ℤ} (h : |n| < 10 ^ 8) : context n = n := by
  have hdigits : roundDown 8 (n * 10 ^ (0 : ℤ)) = n * 10 ^ (0 : ℤ) := roundDown_of_digits h
  rw [zpow_zero, mul_one] at hdigits
  exact hdigits

/-- Rounding keeps whether a small whole number is reached. -/
theorem le_trunc_context_iff {n : ℤ} {x : ℚ} (hpos : 0 < n) (hn : n < 10 ^ 8) :
    n ≤ trunc (context x) ↔ (n : ℚ) ≤ x := by
  rw [le_trunc_iff hpos]
  have habs : |n| < 10 ^ 8 := by rwa [abs_of_pos hpos]
  constructor
  · intro hle
    rcases lt_or_ge x 0 with hx | hx
    · have hnonpos : context x ≤ 0 := roundDown_nonpos hx.le
      have : (0 : ℚ) < n := Int.cast_pos.mpr hpos
      linarith
    · exact hle.trans (roundDown_le hx)
  · intro hle
    rw [← context_intCast habs]
    exact context_mono hle

theorem trunc_context_lt_iff {n : ℤ} {x : ℚ} (hpos : 0 < n) (hn : n < 10 ^ 8) :
    trunc (context x) < n ↔ x < n := by
  rw [← not_le, le_trunc_context_iff hpos hn, not_le]

theorem trunc_context {x : ℚ} (hnonneg : 0 ≤ x) (hlt : x < 101) : trunc (context x) = trunc x := by
  have hsmall : trunc x < 101 := by exact_mod_cast (trunc_le hnonneg).trans_lt hlt
  have hzero := trunc_nonneg hnonneg
  refine le_antisymm (trunc_mono (roundDown_le hnonneg)) ?_
  have hle := trunc_mono (context_mono (trunc_le hnonneg))
  rwa [context_intCast (by rw [abs_of_nonneg hzero]; omega), trunc_intCast] at hle

section Amounts

variable {completed ratio : ℚ} {cpProg cpProg' : ℤ}

theorem amount_mono (hratio : 0 ≤ ratio) (h : cpProg ≤ cpProg') :
    amount completed ratio cpProg ≤ amount completed ratio cpProg' := by
  have hle : (cpProg : ℚ) ≤ cpProg' := Int.cast_le.mpr h
  exact add_le_add_right
    (Int.cast_le.mpr (trunc_mono (context_mono (mul_le_mul_of_nonneg_right hle hratio)))) _

theorem amount_anti (hratio : ratio ≤ 0) (h : cpProg ≤ cpProg') :
    amount completed ratio cpProg' ≤ amount completed ratio cpProg := by
  have hle : (cpProg : ℚ) ≤ cpProg' := Int.cast_le.mpr h
  exact add_le_add_right
    (Int.cast_le.mpr (trunc_mono (context_mono (mul_le_mul_of_nonpos_right hle hratio)))) _

theorem context_mul_nonneg (hratio : 0 ≤ ratio) (hprog : 0 ≤ cpProg) :
    0 ≤ context (cpProg * ratio) :=
  context_nonneg (mul_nonneg (Int.cast_nonneg hprog) hratio)

theorem le_amount (hratio : 0 ≤ ratio) (hprog : 0 ≤ cpProg) :
    completed ≤ amount completed ratio cpProg :=
  le_add_of_nonneg_right (Int.cast_nonneg (trunc_nonneg (context_mul_nonneg hratio hprog)))

/-- A report is between what was completed before and what is completed after the checkpoint. -/
theorem trunc_amount_mem (hcompleted : 0 ≤ completed) (hratio : 0 ≤ ratio) (hprog : 0 ≤ cpProg)
    (hle : cpProg ≤ 100) (hlt : amount completed ratio cpProg < 101) :
    trunc completed ≤ trunc (context (amount completed ratio cpProg)) ∧
      trunc (context (amount completed ratio cpProg)) ≤ trunc (finished completed ratio) := by
  have hamount : completed ≤ amount completed ratio cpProg := le_amount hratio hprog
  rw [trunc_context (hcompleted.trans hamount) hlt]
  refine ⟨trunc_mono hamount, ?_⟩
  rcases le_or_gt (trunc (amount completed ratio cpProg)) 0 with hzero | hpos
  · exact hzero.trans (trunc_nonneg (finished_nonneg hcompleted hratio))
  have hwhole := trunc_le (hcompleted.trans hamount)
  have hsmall : trunc (amount completed ratio cpProg) < 101 := by exact_mod_cast hwhole.trans_lt hlt
  refine (le_trunc_context_iff hpos (by omega)).mpr (hwhole.trans (add_le_add_right ?_ _))
  refine (trunc_le (context_mul_nonneg hratio hprog)).trans (context_mono ?_)
  rw [mul_comm ratio 100]
  exact mul_le_mul_of_nonneg_right (by exact_mod_cast hle) hratio

end Amounts

/-! ### The values of an execution -/

/-- No share but the last is negative, and the reports of each checkpoint never decrease and stay
between 0 and 100. -/
structure Regular (entries : List (ℚ × List ℤ)) : Prop where
  nonneg : ∀ entry ∈ entries.dropLast, 0 ≤ entry.1
  sorted : ∀ entry ∈ entries, entry.2.Pairwise (· ≤ ·)
  within : ∀ entry ∈ entries, ∀ cpProg ∈ entry.2, 0 ≤ cpProg ∧ cpProg ≤ 100

theorem valuesOf_eq_nil_iff {completed : ℚ} {entries : List (ℚ × List ℤ)} :
    valuesOf completed entries = [] ↔ ∀ entry ∈ entries, entry.2 = [] := by
  induction entries generalizing completed with
  | nil => exact ⟨fun _ _ hentry ↦ absurd hentry List.not_mem_nil, fun _ ↦ rfl⟩
  | cons entry rest ih => rw [valuesOf, List.append_eq_nil_iff, List.map_eq_nil_iff, ih,
    List.forall_mem_cons]

/-- The last value is that of the last report. -/
theorem reaches_of_getLast {completed : ℚ} {entries : List (ℚ × List ℤ)}
    (h : (valuesOf completed entries).getLast? = some 100) : Reaches completed entries := by
  induction entries generalizing completed with
  | nil => cases h
  | cons entry rest ih =>
    rw [valuesOf, List.getLast?_append] at h
    by_cases hrest : valuesOf (finished completed entry.1) rest = []
    · right
      rw [hrest, List.getLast?_nil, Option.none_or, List.getLast?_map, Option.map_eq_some_iff] at h
      obtain ⟨cpProg, hlast, hvalue⟩ := h
      refine ⟨valuesOf_eq_nil_iff.mp hrest, cpProg, hlast, ?_⟩
      exact (le_trunc_context_iff (n := 100) (by norm_num) (by norm_num)).mp hvalue.ge
    · left
      rw [List.getLast?_eq_some_getLast hrest, Option.some_or] at h
      rw [← List.getLast?_eq_some_getLast hrest] at h
      exact ih h

theorem stays_of_within {completed : ℚ} {entries : List (ℚ × List ℤ)}
    (h : ∀ value ∈ valuesOf completed entries, value ≤ 100) : Stays completed entries := by
  induction entries generalizing completed with
  | nil => trivial
  | cons entry rest ih =>
    refine ⟨fun cpProg hprog ↦ ?_, ih fun value hvalue ↦ h value (List.mem_append_right _ hvalue)⟩
    have hle := h _ (List.mem_append_left _ (List.mem_map_of_mem hprog))
    exact (trunc_context_lt_iff (n := 101) (by norm_num) (by norm_num)).mp (by omega)

section Completes

variable {completed ratio : ℚ} {reports : List ℤ}

/-- The values of one checkpoint whose share is not negative. -/
theorem values_sorted (hratio : 0 ≤ ratio) (hsorted : reports.Pairwise (· ≤ ·)) :
    (reports.map fun cpProg ↦ trunc (context (amount completed ratio cpProg))).Pairwise (· ≤ ·) :=
  List.pairwise_map.mpr (hsorted.imp fun h ↦ trunc_mono (context_mono (amount_mono hratio h)))

theorem le_of_getLast {last cpProg : ℤ} (hsorted : reports.Pairwise (· ≤ ·))
    (hlast : last ∈ reports.getLast?) (hprog : cpProg ∈ reports) : cpProg ≤ last := by
  obtain ⟨others, rfl⟩ := List.getLast?_eq_some_iff.mp hlast
  rcases List.mem_append.mp hprog with hothers | hsingle
  · exact (List.pairwise_append.mp hsorted).2.2 cpProg hothers last List.mem_cons_self
  · exact (List.mem_singleton.mp hsingle).le

theorem value_le {cpProg : ℤ} (h : amount completed ratio cpProg < 101) :
    trunc (context (amount completed ratio cpProg)) ≤ 100 := by
  have hlt := (trunc_context_lt_iff (n := 101) (by norm_num) (by norm_num)).mpr h
  omega

theorem le_value {cpProg : ℤ} (h : 100 ≤ amount completed ratio cpProg) :
    100 ≤ trunc (context (amount completed ratio cpProg)) :=
  (le_trunc_context_iff (n := 100) (by norm_num) (by norm_num)).mpr h

/-- With a negative share, no report comes to less than the last one. -/
theorem values_eq (hratio : ratio ≤ 0) (hsorted : reports.Pairwise (· ≤ ·))
    (hstays : ∀ cpProg ∈ reports, amount completed ratio cpProg < 101) {last : ℤ}
    (hlast : last ∈ reports.getLast?)
    (hreaches : 100 ≤ amount completed ratio last) {cpProg : ℤ} (hprog : cpProg ∈ reports) :
    trunc (context (amount completed ratio cpProg)) = 100 :=
  le_antisymm (value_le (hstays cpProg hprog))
    (le_value (hreaches.trans (amount_anti hratio (le_of_getLast hsorted hlast hprog))))

end Completes

/-- From what is completed on, the values never decrease up to 100. -/
structure Ascends (low : ℤ) (values : List ℤ) : Prop where
  sorted : values.Pairwise (· ≤ ·)
  within : ∀ value ∈ values, min low 100 ≤ value ∧ value ≤ 100
  last : values.getLast? = some 100

theorem Ascends.append {low middle : ℤ} {first rest : List ℤ} (hfirst : first.Pairwise (· ≤ ·))
    (hwithin : ∀ value ∈ first, low ≤ value ∧ value ≤ min middle 100) (hle : low ≤ middle)
    (hrest : Ascends middle rest) :
    Ascends low (first ++ rest) where
  sorted := List.pairwise_append.mpr ⟨hfirst, hrest.sorted, fun value hvalue value' hvalue' ↦
    (hwithin value hvalue).2.trans (hrest.within value' hvalue').1⟩
  within := by
    intro value hvalue
    rcases List.mem_append.mp hvalue with hvalue | hvalue
    · have hbounds := hwithin value hvalue
      omega
    · have hbounds := hrest.within value hvalue
      omega
  last := by rw [List.getLast?_append, hrest.last, Option.some_or]

theorem ascends_last {completed ratio : ℚ} {reports : List ℤ} (hcompleted : 0 ≤ completed)
    (hsorted : reports.Pairwise (· ≤ ·)) (hwithin : ∀ cpProg ∈ reports, 0 ≤ cpProg ∧ cpProg ≤ 100)
    (hstays : ∀ cpProg ∈ reports, amount completed ratio cpProg < 101) {last : ℤ}
    (hlast : last ∈ reports.getLast?) (hreaches : 100 ≤ amount completed ratio last) :
    Ascends (trunc completed) (reports.map fun cpProg ↦
      trunc (context (amount completed ratio cpProg))) where
  sorted := by
    rcases le_total 0 ratio with hratio | hratio
    · exact values_sorted hratio hsorted
    · rw [List.pairwise_map]
      refine hsorted.imp_of_mem fun hprog hprog' _ ↦ ?_
      rw [values_eq hratio hsorted hstays hlast hreaches hprog,
        values_eq hratio hsorted hstays hlast hreaches hprog']
  within := by
    intro value hvalue
    obtain ⟨cpProg, hprog, rfl⟩ := List.mem_map.mp hvalue
    refine ⟨?_, value_le (hstays cpProg hprog)⟩
    rcases le_total 0 ratio with hratio | hratio
    · have hmem := trunc_amount_mem hcompleted hratio (hwithin cpProg hprog).1
        (hwithin cpProg hprog).2
        (hstays cpProg hprog)
      exact (min_le_left _ _).trans hmem.1
    · rw [values_eq hratio hsorted hstays hlast hreaches hprog]
      exact min_le_right _ _
  last := by
    have hmem := List.mem_of_getLast? hlast
    rw [List.getLast?_map, hlast, Option.map_some, Option.some.injEq]
    exact le_antisymm (value_le (hstays last hmem)) (le_value hreaches)

/-- Where the last report comes to 100 and none to 101, the values never decrease up to 100. -/
theorem valuesOf_ascends {completed : ℚ} {entries : List (ℚ × List ℤ)} (hcompleted : 0 ≤ completed)
    (hdigits : context completed = completed) (hregular : Regular entries)
    (hreaches : Reaches completed entries) (hstays : Stays completed entries) :
    Ascends (trunc completed) (valuesOf completed entries) := by
  induction entries generalizing completed with
  | nil => exact hreaches.elim
  | cons entry rest ih =>
    obtain ⟨ratio, reports⟩ := entry
    have hsorted := hregular.sorted _ List.mem_cons_self
    have hwithin := hregular.within _ List.mem_cons_self
    rcases hreaches with hreaches | ⟨hsilent, last, hlast, hreaches⟩
    · have hne : rest ≠ [] := by
        rintro rfl
        exact hreaches
      have hdropLast : ((ratio, reports) :: rest).dropLast = (ratio, reports) :: rest.dropLast :=
        List.dropLast_cons_of_ne_nil hne
      have hnonneg := hregular.nonneg
      rw [hdropLast, List.forall_mem_cons] at hnonneg
      have hrest : Regular rest :=
        ⟨hnonneg.2, fun entry hentry ↦ hregular.sorted entry (List.mem_cons_of_mem _ hentry),
          fun entry hentry ↦ hregular.within entry (List.mem_cons_of_mem _ hentry)⟩
      refine Ascends.append (values_sorted hnonneg.1 hsorted) ?_ ?_
        (ih (finished_nonneg hcompleted hnonneg.1)
          (roundDown_roundDown 8 _) hrest hreaches hstays.2)
      · intro value hvalue
        obtain ⟨cpProg, hprog, rfl⟩ := List.mem_map.mp hvalue
        have hmem := trunc_amount_mem hcompleted hnonneg.1 (hwithin cpProg hprog).1
          (hwithin cpProg hprog).2
          (hstays.1 cpProg hprog)
        exact ⟨hmem.1, le_min hmem.2 (value_le (hstays.1 cpProg hprog))⟩
      · refine trunc_mono
          (hdigits.ge.trans (context_mono (le_add_of_nonneg_right (context_nonneg ?_))))
        exact mul_nonneg hnonneg.1 (by norm_num)
    · rw [valuesOf, valuesOf_eq_nil_iff.mpr hsilent, List.append_nil]
      exact ascends_last hcompleted hsorted hwithin hstays.1 hlast hreaches

/-! ### The entries of an execution -/

/-- The share of a checkpoint that is loaded, with the reports that are made for it. -/
def entryOf (cp : Checkpoint) : ℚ × List ℤ :=
  (cp.data.progEstRatio, made cp)

theorem reportEach_eq {engine : Progress} (hprep : engine.execPrep = false) (cpData : CpProgress)
    (reports : List ℤ) :
    reportEach engine cpData reports =
      (reports.map fun cpProg ↦
        trunc (context (amount engine.currentCompleted cpData.progEstRatio cpProg)),
        { cpData with progReported := reports.getLast?.elim cpData.progReported fun cpProg ↦ (cpProg : ℚ) }) := by
  induction reports generalizing cpData with
  | nil => rfl
  | cons cpProg rest ih =>
    have hfirst : normalizeProgress engine cpData cpProg =
        (trunc (context (amount engine.currentCompleted cpData.progEstRatio cpProg)),
          { cpData with progReported := cpProg }) := by
      rw [normalizeProgress, hprep]
      rfl
    rw [reportEach, hfirst, ih, List.getLast?_cons]
    rcases rest.getLast? with _ | last <;> rfl

theorem executeCheckpoint_eq (engine : Progress) (hprep : engine.execPrep = false)
    (cp : Checkpoint) :
    (executeCheckpoint engine cp).1 = (made cp).map (fun cpProg ↦
        trunc (context (amount engine.currentCompleted cp.data.progEstRatio cpProg))) ∧
      (executeCheckpoint engine cp).2.1 = ⟨false,
        finished engine.currentCompleted cp.data.progEstRatio⟩ := by
  rw [executeCheckpoint, made, reportEach_eq hprep]
  split_ifs with hlast
  · rw [reportEach_eq hprep, List.map_append, ← hprep]
    exact ⟨rfl, rfl⟩
  · rw [List.append_nil, List.append_nil, ← hprep]
    exact ⟨rfl, rfl⟩

/-- The values of the execution are those of the entries. -/
theorem executeEach_values (completed : ℚ) (checkpoints : List Checkpoint) :
    (executeEach ⟨false, completed⟩ checkpoints).values =
    valuesOf completed (checkpoints.map entryOf) := by
  induction checkpoints generalizing completed with
  | nil => rfl
  | cons cp rest ih =>
    obtain ⟨hvalues, hengine⟩ := executeCheckpoint_eq ⟨false, completed⟩ rfl cp
    rw [List.map_cons, entryOf, valuesOf, ← ih, ← hvalues]
    show _ ++ (executeEach (executeCheckpoint ⟨false, completed⟩ cp).2.1 rest).values = _
    rw [hengine]
    rfl

/-- The checkpoint with its estimate. -/
def withEstimate (cp : Checkpoint) : Checkpoint :=
  { cp with data := { cp.data with progEst := estimateOf cp } }

theorem loadEach_eq (prep : Preparation) {engine : Progress} (hprep : engine.execPrep = true)
    (toLoad loaded : ℕ)
    (total : ℚ) {checkpoints : List Checkpoint} (h : ∀ cp ∈ checkpoints, cp.estimate ≠ none) :
    loadEach prep engine toLoad loaded total checkpoints =
      ⟨(List.range' loaded checkpoints.length).map fun loaded ↦ prep.loadProg loaded toLoad,
        some ((checkpoints.map estimateOf).foldl (fun total estimate ↦
          context (total + estimate)) total),
        checkpoints.map withEstimate⟩ := by
  induction checkpoints generalizing loaded total with
  | nil => rfl
  | cons cp rest ih =>
    obtain ⟨data, estimate, reports⟩ := cp
    obtain ⟨estimate, rfl⟩ := Option.ne_none_iff_exists'.mp (h _ List.mem_cons_self)
    have hvalue : (normalizeProgress engine data (prep.loadProg loaded toLoad)).1 =
        prep.loadProg loaded toLoad := by
      rw [normalizeProgress, if_pos hprep]
    rw [loadEach]
    simp only
    rw [ih _ _ fun cp hcp ↦ h cp (List.mem_cons_of_mem _ hcp), hvalue]
    rfl

theorem map_adjustLast (missing : ℚ) (checkpoints : List Checkpoint) :
    (adjustLast missing checkpoints).map (fun cp ↦ cp.data.progEstRatio) =
        addLast missing (checkpoints.map fun cp ↦ cp.data.progEstRatio) ∧
      (adjustLast missing checkpoints).map made = checkpoints.map made := by
  induction checkpoints with
  | nil => exact ⟨rfl, rfl⟩
  | cons cp rest ih =>
    rcases rest with _ | ⟨cp', rest⟩
    · exact ⟨rfl, rfl⟩
    · have hcons : adjustLast missing (cp :: cp' :: rest) =
        cp :: adjustLast missing (cp' :: rest) := rfl
      rw [hcons, List.map_cons, List.map_cons, ih.1]
      exact ⟨rfl, congrArg (made cp :: ·) ih.2⟩

theorem shareOut_entries (checkpoints : List Checkpoint) :
    (shareOut (totalEstimate (checkpoints.map estimateOf))
      (checkpoints.map withEstimate)).map entryOf =
      entries checkpoints := by
  have hratios : (setRatios (totalEstimate (checkpoints.map estimateOf))
      (checkpoints.map withEstimate)).map
      (fun cp ↦ cp.data.progEstRatio) =
        (checkpoints.map estimateOf).map
            (progEstRatio (totalEstimate (checkpoints.map estimateOf))) := by
    rw [setRatios, List.map_map, List.map_map, List.map_map]
    rfl
  have hmade : (setRatios (totalEstimate (checkpoints.map estimateOf))
      (checkpoints.map withEstimate)).map made =
      checkpoints.map made := by
    rw [setRatios, List.map_map, List.map_map]
    rfl
  rw [entries, shares, ← hmade, ← hratios, List.foldl_map]
  rw [← (map_adjustLast _ _).1, ← (map_adjustLast _ _).2, List.zip_map']
  rfl

theorem forall_mem_addLast {missing : ℚ} {ratios : List ℚ} (h : ∀ ratio ∈ ratios, 0 ≤ ratio) :
    ∀ ratio ∈ (addLast missing ratios).dropLast, 0 ≤ ratio := by
  induction ratios with
  | nil => exact fun _ hratio ↦ absurd hratio List.not_mem_nil
  | cons first rest ih =>
    rcases rest with _ | ⟨second, rest⟩
    · exact fun _ hratio ↦ absurd hratio List.not_mem_nil
    · have hcons : addLast missing (first :: second :: rest) =
        first :: addLast missing (second :: rest) := rfl
      have hne : addLast missing (second :: rest) ≠ [] := by
        rcases rest with _ | ⟨third, rest⟩ <;> exact List.cons_ne_nil _ _
      rw [hcons, List.dropLast_cons_of_ne_nil hne, List.forall_mem_cons]
      exact ⟨h first List.mem_cons_self, ih fun ratio hratio ↦
        h ratio (List.mem_cons_of_mem _ hratio)⟩

theorem length_addLast (missing : ℚ) (ratios : List ℚ) :
    (addLast missing ratios).length = ratios.length := by
  induction ratios with
  | nil => rfl
  | cons first rest ih =>
    rcases rest with _ | ⟨second, rest⟩
    · rfl
    · have hcons : addLast missing (first :: second :: rest) =
        first :: addLast missing (second :: rest) := rfl
      rw [hcons, List.length_cons, ih]
      rfl

theorem estimateOf_pos (cp : Checkpoint) : 0 < estimateOf cp := by
  rw [estimateOf]
  split_ifs with h
  · norm_num
  · exact Int.cast_pos.mpr (not_le.mp h)

theorem foldl_context_nonneg {numbers : List ℚ} (h : ∀ number ∈ numbers, 0 ≤ number) {total : ℚ}
    (htotal : 0 ≤ total) :
    0 ≤ numbers.foldl (fun total number ↦ context (total + number)) total := by
  induction numbers generalizing total with
  | nil => exact htotal
  | cons number rest ih =>
    exact ih (fun number hnumber ↦ h number (List.mem_cons_of_mem _ hnumber))
      (context_nonneg (add_nonneg htotal (h number List.mem_cons_self)))

theorem progEstRatio_nonneg {total estimate : ℚ} (htotal : 0 ≤ total) (hestimate : 0 ≤ estimate) :
    0 ≤ progEstRatio total estimate :=
  context_nonneg (mul_nonneg (context_nonneg (div_nonneg hestimate htotal))
    (by norm_num [adjustedRatio]))

theorem totalEstimate_nonneg (checkpoints : List Checkpoint) :
    0 ≤ totalEstimate (checkpoints.map estimateOf) := by
  refine foldl_context_nonneg (fun estimate hestimate ↦ ?_) le_rfl
  obtain ⟨cp, -, rfl⟩ := List.mem_map.mp hestimate
  exact (estimateOf_pos cp).le

theorem Reports.made_sorted {cp : Checkpoint} (h : Reports cp) : (made cp).Pairwise (· ≤ ·) := by
  rw [made]
  split_ifs
  · refine List.pairwise_append.mpr ⟨h.sorted, List.pairwise_singleton _ _,
      fun cpProg hprog last hlast ↦ ?_⟩
    rw [List.mem_singleton.mp hlast]
    exact (h.within cpProg hprog).2
  · rw [List.append_nil]
    exact h.sorted

theorem Reports.made_within {cp : Checkpoint} (h : Reports cp) {cpProg : ℤ}
    (hprog : cpProg ∈ made cp) :
    0 ≤ cpProg ∧ cpProg ≤ 100 := by
  rw [made] at hprog
  rcases List.mem_append.mp hprog with hown | hlast
  · exact h.within cpProg hown
  · split_ifs at hlast
    · rw [List.mem_singleton.mp hlast]
      norm_num
    · exact absurd hlast List.not_mem_nil

theorem entries_regular {checkpoints : List Checkpoint} (h : ∀ cp ∈ checkpoints, Reports cp) :
    Regular (entries checkpoints) := by
  have hmade : ∀ entry ∈ entries checkpoints, ∃ cp ∈ checkpoints, made cp = entry.2 :=
      fun entry hentry ↦
    List.mem_map.mp (List.of_mem_zip hentry).2
  refine ⟨fun entry hentry ↦ ?_, fun entry hentry ↦ ?_, fun entry hentry cpProg hprog ↦ ?_⟩
  · have hlength : (shares (checkpoints.map estimateOf)).length =
        (checkpoints.map made).length := by
      rw [shares, length_addLast, List.length_map, List.length_map, List.length_map]
    rw [entries, List.dropLast_eq_take, List.length_zip, ← hlength, min_self, List.zip,
      List.take_zipWith, ← List.dropLast_eq_take] at hentry
    refine forall_mem_addLast (fun ratio hratio ↦ ?_) entry.1 (List.of_mem_zip hentry).1
    obtain ⟨estimate, hestimate, rfl⟩ := List.mem_map.mp hratio
    obtain ⟨cp, -, rfl⟩ := List.mem_map.mp hestimate
    exact progEstRatio_nonneg (totalEstimate_nonneg checkpoints) (estimateOf_pos cp).le
  · obtain ⟨cp, hcp, hmade⟩ := hmade entry hentry
    rw [← hmade]
    exact (h cp hcp).made_sorted
  · obtain ⟨cp, hcp, hmade⟩ := hmade entry hentry
    rw [← hmade] at hprog
    exact (h cp hcp).made_within hprog

/-- The values that are reported while the engine loads. -/
def loadValues (prep : Preparation) (toLoad : ℕ) : List ℤ :=
  (List.range' 0 toLoad).map fun loaded ↦ prep.loadProg loaded toLoad

theorem executeCheckpoints_values (prep : Preparation) (engine : Progress)
    {checkpoints : List Checkpoint} (hne : checkpoints ≠ []) (h : ∀ cp ∈ checkpoints, Reports cp) :
    (executeCheckpoints prep engine checkpoints).values =
      loadValues prep checkpoints.length ++ valuesOf 5 (entries checkpoints) := by
  have hloaded : loadCheckpoints prep { engine with execPrep := true, currentCompleted := 0 }
      checkpoints =
      ⟨loadValues prep checkpoints.length, some (totalEstimate (checkpoints.map estimateOf)),
        checkpoints.map withEstimate⟩ := by
    rw [loadCheckpoints, List.isEmpty_eq_false_iff.mpr hne, if_neg Bool.false_ne_true]
    exact loadEach_eq prep rfl _ _ _ fun cp hcp ↦ (h cp hcp).loads
  have hcompleted : context (0 + context (execPrepRatioDecimal * 100)) = 5 := by
    have hfive : context (5 : ℤ) = 5 := context_intCast (by norm_num)
    rw [execPrepRatioDecimal, zero_add, show (5 / 100 * 100 : ℚ) = (5 : ℤ) by norm_num, hfive]
    exact hfive
  rw [executeCheckpoints]
  simp only [hloaded]
  rw [hcompleted, executeEach_values, shareOut_entries]

theorem loadValues_sorted (prep : Preparation) (toLoad : ℕ) :
    (loadValues prep toLoad).Pairwise (· ≤ ·) := by
  rw [loadValues, List.pairwise_map]
  exact (List.pairwise_lt_range' (s := 0)).imp fun h ↦ prep.mono toLoad h.le

theorem mem_loadValues {prep : Preparation} {toLoad : ℕ} {value : ℤ}
    (h : value ∈ loadValues prep toLoad) :
    0 ≤ value ∧ value ≤ 5 := by
  obtain ⟨loaded, hloaded, rfl⟩ := List.mem_map.mp h
  rw [List.mem_range'_1] at hloaded
  exact ⟨prep.nonneg loaded toLoad, prep.le_five (by omega)⟩

/-! ### Executions of few checkpoints -/

theorem context_le {x : ℚ} (h : 0 ≤ x) : context x ≤ x :=
  roundDown_le h

theorem mul_le_context {x : ℚ} (h : 0 ≤ x) : x * (1 - 1 / 10 ^ 7) ≤ context x := by
  rcases h.eq_or_lt with rfl | hpos
  · rw [zero_mul]
    exact context_nonneg le_rfl
  · have hlt : x * (1 - 10 * (10 ^ 8)⁻¹) < context x := mul_lt_roundDown hpos
    norm_num at hlt ⊢
    exact hlt.le

theorem context_hundred_mul (x : ℚ) : context (100 * x) = 100 * context x := by
  have hpow : (100 : ℚ) = 10 ^ (2 : ℤ) := by norm_num
  rw [hpow]
  exact roundDown_zpow_mul 2 x

/-- The total of the estimates misses little of each. -/
theorem mul_le_foldl {numbers : List ℚ} (h : ∀ number ∈ numbers, 0 ≤ number) {total : ℚ}
    (htotal : 0 ≤ total) (hlength : (numbers.length : ℚ) ≤ 10 ^ 7) :
    (total + numbers.sum) * (1 - numbers.length / 10 ^ 7) ≤
      numbers.foldl (fun total number ↦ context (total + number)) total := by
  induction numbers generalizing total with
  | nil => simp
  | cons number rest ih =>
    have hnumber := h number List.mem_cons_self
    have hrest : ∀ number ∈ rest, 0 ≤ number := fun number hnumber ↦
      h number (List.mem_cons_of_mem _ hnumber)
    have hsum : 0 ≤ rest.sum := List.sum_nonneg hrest
    rw [List.length_cons, Nat.cast_add, Nat.cast_one] at hlength ⊢
    rw [List.sum_cons]
    refine le_trans ?_ (ih hrest (context_nonneg (add_nonneg htotal hnumber)) (by linarith))
    have hround := mul_le_context (add_nonneg htotal hnumber)
    have hfactor : (0 : ℚ) ≤ 1 - rest.length / 10 ^ 7 := by
      rw [sub_nonneg, div_le_one (by norm_num)]
      linarith
    have hstep : (total + number + rest.sum) * (1 - 1 / 10 ^ 7) ≤ context (total + number) +
        rest.sum := by
      linarith
    refine le_trans ?_ (mul_le_mul_of_nonneg_right hstep hfactor)
    rw [mul_assoc, ← add_assoc]
    refine mul_le_mul_of_nonneg_left ?_ (add_nonneg (add_nonneg htotal hnumber) hsum)
    have hsquare : (0 : ℚ) ≤ rest.length / 10 ^ 14 := by positivity
    linarith

/-- The share of the last checkpoint leaves no more than what is missing. -/
theorem amount_addLast_lt {total ratio : ℚ} {cpProg : ℤ} (htotal : 0 ≤ total) (hratio : 0 ≤ ratio)
    (hsum : total + ratio < 101 / 100) (hprog : 0 ≤ cpProg ∧ cpProg ≤ 100) :
    amount (100 * total) (context (ratio + context (1 - context (total + ratio)))) cpProg <
    101 := by
  set missing := context (1 - context (total + ratio)) with hmissing
  have hprog' : (0 : ℚ) ≤ cpProg ∧ (cpProg : ℚ) ≤ 100 := by exact_mod_cast hprog
  rw [amount]
  rcases le_or_gt (ratio + missing) 0 with hnonpos | hpos
  · have hneg : context (cpProg * context (ratio + missing)) ≤ 0 :=
      roundDown_nonpos (mul_nonpos_of_nonneg_of_nonpos hprog'.1 (roundDown_nonpos hnonpos))
    have hwhole := trunc_mono hneg
    rw [show trunc 0 = 0 by exact_mod_cast trunc_intCast 0] at hwhole
    have hcast : (trunc (context (cpProg * context (ratio + missing))) : ℚ) ≤ 0 := by
      exact_mod_cast hwhole
    linarith
  · have hshare : context (ratio + missing) ≤ ratio + missing := context_le hpos.le
    have hmul : cpProg * context (ratio + missing) ≤ 100 * (ratio + missing) :=
      mul_le_mul hprog'.2 hshare (context_nonneg hpos.le) (by norm_num)
    have hnonneg : 0 ≤ cpProg * context (ratio + missing) :=
      mul_nonneg hprog'.1 (context_nonneg hpos.le)
    have hwhole := (trunc_le (context_nonneg hnonneg)).trans ((context_le hnonneg).trans hmul)
    rcases le_or_gt (1 - context (total + ratio)) 0 with hover | hunder
    · have hle : missing ≤ 0 := roundDown_nonpos hover
      linarith
    · have hle : missing ≤ 1 - context (total + ratio) := context_le hunder.le
      have hround := mul_le_context (add_nonneg htotal hratio)
      linarith

theorem finished_hundred_mul {total ratio : ℚ} (hdigits : context ratio = ratio) :
    finished (100 * total) ratio = 100 * context (total + ratio) := by
  rw [finished, mul_comm ratio, context_hundred_mul, hdigits, ← mul_add, context_hundred_mul]

theorem stays_of_sum {ratios : List ℚ}
    (hratios : ∀ ratio ∈ ratios, 0 ≤ ratio ∧ context ratio = ratio)
    {reports : List (List ℤ)}
    (hreports : ∀ own ∈ reports, ∀ cpProg ∈ own, 0 ≤ cpProg ∧ cpProg ≤ 100) {total : ℚ}
    (htotal : 0 ≤ total) (hsum : total + ratios.sum < 101 / 100) :
    Stays (100 * total)
      ((addLast (context (1 - ratios.foldl (fun total ratio ↦ context (total + ratio)) total))
        ratios).zip reports) := by
  induction ratios generalizing total reports with
  | nil => trivial
  | cons ratio rest ih =>
    obtain ⟨⟨hratio, hdigits⟩, hrest⟩ := List.forall_mem_cons.mp hratios
    rcases reports with _ | ⟨own, reports⟩
    · rw [List.zip_nil_right]
      trivial
    obtain ⟨hown, hreports⟩ := List.forall_mem_cons.mp hreports
    rcases rest with _ | ⟨second, rest⟩
    · rw [List.sum_singleton] at hsum
      exact ⟨fun cpProg hprog ↦ amount_addLast_lt htotal hratio hsum (hown cpProg hprog), trivial⟩
    · have hnonneg : 0 ≤ (second :: rest).sum := List.sum_nonneg fun ratio hratio ↦
        (hrest ratio hratio).1
      rw [List.sum_cons] at hsum
      have hround : context (total + ratio) ≤ total + ratio := context_le (add_nonneg htotal hratio)
      refine ⟨fun cpProg hprog ↦ ?_, ?_⟩
      · have hmul : cpProg * ratio ≤ 100 * ratio :=
          mul_le_mul_of_nonneg_right (by exact_mod_cast (hown cpProg hprog).2) hratio
        have hprod : 0 ≤ cpProg * ratio :=
          mul_nonneg (by exact_mod_cast (hown cpProg hprog).1) hratio
        have hwhole := (trunc_le (context_nonneg hprod)).trans ((context_le hprod).trans hmul)
        rw [amount]
        linarith
      · rw [finished_hundred_mul hdigits]
        exact ih hrest hreports (context_nonneg (add_nonneg htotal hratio)) (by linarith)

theorem sum_ratios_le {total : ℚ} (htotal : 0 < total) {estimates : List ℚ}
    (h : ∀ estimate ∈ estimates, 0 ≤ estimate) :
    (estimates.map (progEstRatio total)).sum ≤ adjustedRatio * (estimates.sum / total) := by
  induction estimates with
  | nil => simp
  | cons estimate rest ih =>
    obtain ⟨hestimate, hrest⟩ := List.forall_mem_cons.mp h
    have hquot : 0 ≤ estimate / total := div_nonneg hestimate htotal.le
    have hadjusted : (0 : ℚ) ≤ adjustedRatio := by norm_num [adjustedRatio]
    have hratio : progEstRatio total estimate ≤ estimate / total * adjustedRatio :=
      (context_le (mul_nonneg (context_nonneg hquot) hadjusted)).trans
        (mul_le_mul_of_nonneg_right (context_le hquot) hadjusted)
    rw [List.map_cons, List.sum_cons, List.sum_cons, add_div, mul_add, mul_comm adjustedRatio]
    exact add_le_add hratio (ih hrest)

/-- With no more than 100000 checkpoints, no report comes to 101. -/
theorem stays_of_few {checkpoints : List Checkpoint} (h : ∀ cp ∈ checkpoints, Reports cp)
    (hfew : checkpoints.length ≤ 100000) : Stays 5 (entries checkpoints) := by
  set estimates := checkpoints.map estimateOf with hestimates
  have hpos : ∀ estimate ∈ estimates, 0 < estimate := fun estimate hestimate ↦ by
    obtain ⟨cp, -, rfl⟩ := List.mem_map.mp hestimate
    exact estimateOf_pos cp
  rcases eq_or_ne checkpoints [] with rfl | hne
  · trivial
  have hsum : 0 < estimates.sum := List.sum_pos _ hpos fun h ↦ hne (List.map_eq_nil_iff.mp h)
  have hlength : (estimates.length : ℚ) ≤ 100000 := by
    rw [hestimates, List.length_map]
    exact_mod_cast hfew
  have htotal : estimates.sum * (99 / 100) ≤ totalEstimate estimates := by
    refine le_trans ?_ (mul_le_foldl (fun estimate hestimate ↦ (hpos estimate hestimate).le) le_rfl
      (by linarith))
    rw [zero_add]
    refine mul_le_mul_of_nonneg_left ?_ hsum.le
    have hdiv : (estimates.length : ℚ) / 10 ^ 7 ≤ 1 / 100 := by
      rw [div_le_iff₀ (by norm_num)]
      exact hlength.trans (by norm_num)
    linarith
  have htotalPos : 0 < totalEstimate estimates := by linarith
  have hquot : estimates.sum / totalEstimate estimates ≤ 100 / 99 := by
    rw [div_le_iff₀ htotalPos]
    linarith
  have hratios := sum_ratios_le htotalPos fun estimate hestimate ↦ (hpos estimate hestimate).le
  have hmul := mul_le_mul_of_nonneg_left hquot (show 0 ≤ adjustedRatio by norm_num [adjustedRatio])
  have hfive : 100 * execPrepRatioDecimal = 5 := by norm_num [execPrepRatioDecimal]
  rw [← hfive]
  refine stays_of_sum ?_ ?_ (by norm_num [execPrepRatioDecimal]) ?_
  · intro ratio hratio
    obtain ⟨estimate, hestimate, rfl⟩ := List.mem_map.mp hratio
    exact ⟨progEstRatio_nonneg htotalPos.le (hpos estimate hestimate).le, roundDown_roundDown 8 _⟩
  · intro own hown cpProg hprog
    obtain ⟨cp, hcp, rfl⟩ := List.mem_map.mp hown
    exact (h cp hcp).made_within hprog
  · rw [adjustedRatio] at hmul hratios
    rw [execPrepRatioDecimal]
    linarith

/-! ### When the promise is kept -/

/-- The sum of a number and the shares of some checkpoints. -/
def addShares (total : ℚ) (entries : List (ℚ × List ℤ)) : ℚ :=
  entries.foldl (fun total entry ↦ context (total + entry.1)) total

/-- The sum of the shares of some checkpoints with that of the preparation. -/
def totalShare (entries : List (ℚ × List ℤ)) : ℚ :=
  addShares execPrepRatioDecimal entries

/-- The shares before the last checkpoint that reports, with the whole percents of its own, come to
100 percent. -/
def Completes (entries : List (ℚ × List ℤ)) : Prop :=
  ∃ before own after, entries = before ++ own :: after ∧ own.2 ≠ [] ∧
    (∀ entry ∈ after, entry.2 = []) ∧
    100 ≤ 100 * totalShare before + trunc (100 * own.1)

/-- The shares before a checkpoint come to less than 101 percent, with the whole percents of what it
reports of its own. -/
def Contained (entries : List (ℚ × List ℤ)) : Prop :=
  ∀ before own after, entries = before ++ own :: after → ∀ cpProg : ℤ, cpProg ∈ own.2 →
    100 * totalShare before + trunc (context (cpProg * own.1)) < 101

section Shares

variable {entry : ℚ × List ℤ} {rest : List (ℚ × List ℤ)}

theorem exists_split_cons {P : List (ℚ × List ℤ) → ℚ × List ℤ → List (ℚ × List ℤ) → Prop} :
    (∃ before own after, entry :: rest = before ++ own :: after ∧ P before own after) ↔
      P [] entry rest ∨ ∃ before own after, rest = before ++ own :: after ∧
      P (entry :: before) own after := by
  constructor
  · rintro ⟨before, own, after, hsplit, h⟩
    obtain ⟨rfl, heq⟩ | ⟨before, rfl, hrest⟩ := List.cons_eq_append_iff.mp hsplit
    · cases heq
      exact Or.inl h
    · exact Or.inr ⟨before, own, after, hrest, h⟩
  · rintro (h | ⟨before, own, after, rfl, h⟩)
    · exact ⟨[], entry, rest, rfl, h⟩
    · exact ⟨entry :: before, own, after, rfl, h⟩

/-- What the last report comes to is what the shares do. -/
theorem reaches_iff {entries : List (ℚ × List ℤ)}
    (hdigits : ∀ entry ∈ entries, context entry.1 = entry.1)
    (hlast : ∀ entry ∈ entries, ∀ last : ℤ, last ∈ entry.2.getLast? → last = 100) (total : ℚ) :
    Reaches (100 * total) entries ↔ ∃ before own after, entries = before ++ own :: after ∧
    own.2 ≠ [] ∧
      (∀ entry ∈ after, entry.2 = []) ∧
        100 ≤ 100 * addShares total before + trunc (100 * own.1) := by
  induction entries generalizing total with
  | nil => exact ⟨fun h ↦ h.elim, fun ⟨before, own, after, h, _⟩ ↦ by simp at h⟩
  | cons entry rest ih =>
    obtain ⟨hown, hrest⟩ := List.forall_mem_cons.mp hdigits
    obtain ⟨hownLast, hrestLast⟩ := List.forall_mem_cons.mp hlast
    have hamount : amount (100 * total) entry.1 100 = 100 * total + trunc (100 * entry.1) := by
      rw [amount, Int.cast_ofNat, context_hundred_mul, hown]
    rw [exists_split_cons, Reaches, finished_hundred_mul hown, ih hrest hrestLast, or_comm]
    refine or_congr ⟨fun ⟨hsilent, last, hmem, hle⟩ ↦ ?_, fun ⟨hne, hsilent, hle⟩ ↦ ?_⟩ Iff.rfl
    · obtain rfl := hownLast last hmem
      exact ⟨fun hnil ↦ by simp [hnil] at hmem, hsilent, hamount ▸ hle⟩
    · have hmem := List.getLast?_eq_some_getLast hne
      refine ⟨hsilent, _, hmem, ?_⟩
      rw [hownLast _ hmem, hamount]
      exact hle

theorem stays_iff {entries : List (ℚ × List ℤ)}
    (hdigits : ∀ entry ∈ entries, context entry.1 = entry.1) (total : ℚ) :
    Stays (100 * total) entries ↔ ∀ before own after, entries = before ++ own :: after → ∀ cpProg :
    ℤ, cpProg ∈ own.2 →
      100 * addShares total before + trunc (context (cpProg * own.1)) < 101 := by
  induction entries generalizing total with
  | nil => exact ⟨fun _ before own after h ↦ by simp at h, fun _ ↦ trivial⟩
  | cons entry rest ih =>
    obtain ⟨hown, hrest⟩ := List.forall_mem_cons.mp hdigits
    rw [Stays, finished_hundred_mul hown, ih hrest]
    constructor
    · rintro ⟨hfirst, hothers⟩ before own after hsplit
      obtain ⟨rfl, heq⟩ | ⟨before, rfl, hrest⟩ := List.cons_eq_append_iff.mp hsplit
      · cases heq
        exact hfirst
      · exact hothers before own after hrest
    · intro h
      refine ⟨h [] entry rest rfl, fun before own after hsplit ↦ ?_⟩
      exact h (entry :: before) own after (congrArg (entry :: ·) hsplit)

end Shares

theorem context_of_mem_addLast {missing : ℚ} {ratios : List ℚ}
    (h : ∀ ratio ∈ ratios, context ratio = ratio) :
    ∀ ratio ∈ addLast missing ratios, context ratio = ratio := by
  induction ratios with
  | nil => exact h
  | cons first rest ih =>
    obtain ⟨hfirst, hrest⟩ := List.forall_mem_cons.mp h
    rcases rest with _ | ⟨second, rest⟩
    · exact fun ratio hratio ↦ by rw [List.mem_singleton.mp hratio]; exact roundDown_roundDown 8 _
    · exact List.forall_mem_cons.mpr ⟨hfirst, ih hrest⟩

theorem context_of_mem_entries {checkpoints : List Checkpoint} {entry : ℚ × List ℤ}
    (h : entry ∈ entries checkpoints) : context entry.1 = entry.1 := by
  refine context_of_mem_addLast (fun ratio hratio ↦ ?_) entry.1 (List.of_mem_zip h).1
  obtain ⟨estimate, -, rfl⟩ := List.mem_map.mp hratio
  exact roundDown_roundDown 8 _

/-- The last report of a checkpoint that reports is 100. -/
theorem Reports.last_made {cp : Checkpoint} (h : Reports cp) {last : ℤ}
    (hlast : last ∈ (made cp).getLast?) :
    last = 100 := by
  rw [made] at hlast
  split_ifs at hlast with hless
  · rw [List.getLast?_append, List.getLast?_singleton, Option.some_or] at hlast
    exact (Option.some.inj hlast).symm
  · rw [List.append_nil] at hlast
    have hle := (h.within last (List.mem_of_getLast? hlast)).2
    rw [hlast, Option.elim_some, not_lt] at hless
    have hge : (100 : ℤ) ≤ last := by exact_mod_cast hless
    omega

theorem five_eq : (5 : ℚ) = 100 * execPrepRatioDecimal := by norm_num [execPrepRatioDecimal]

theorem reaches_iff_completes {checkpoints : List Checkpoint} (h : ∀ cp ∈ checkpoints, Reports cp) :
    Reaches 5 (entries checkpoints) ↔ Completes (entries checkpoints) := by
  rw [five_eq, reaches_iff (fun entry ↦ context_of_mem_entries) fun entry hentry last hlast ↦ ?_]
  · rfl
  · obtain ⟨cp, hcp, hmade⟩ := List.mem_map.mp (List.of_mem_zip hentry).2
    exact (h cp hcp).last_made (hmade ▸ hlast)

theorem stays_iff_contained (checkpoints : List Checkpoint) :
    Stays 5 (entries checkpoints) ↔ Contained (entries checkpoints) := by
  rw [five_eq, stays_iff fun entry ↦ context_of_mem_entries]
  rfl

/-- The values are as promised exactly if the last report comes to 100 and none to 101. -/
theorem promised_iff_reaches (prep : Preparation) (engine : Progress)
    {checkpoints : List Checkpoint} (hne : checkpoints ≠ []) (h : ∀ cp ∈ checkpoints, Reports cp) :
    Promised (executeCheckpoints prep engine checkpoints).values ↔
      Reaches 5 (entries checkpoints) ∧ Stays 5 (entries checkpoints) := by
  rw [executeCheckpoints_values prep engine hne h]
  constructor
  · intro hpromised
    refine ⟨reaches_of_getLast ?_, stays_of_within fun value hvalue ↦
      (hpromised.within value (List.mem_append_right _ hvalue)).2⟩
    have hlast := hpromised.last
    rw [List.getLast?_append, Option.or_eq_some_iff] at hlast
    rcases hlast with hlast | ⟨-, hlast⟩
    · exact hlast
    · have hle := (mem_loadValues (List.mem_of_getLast? hlast)).2
      norm_num at hle
  · rintro ⟨hreaches, hstays⟩
    have hfive : context (5 : ℚ) = 5 := by exact_mod_cast context_intCast (n := 5) (by norm_num)
    have hascends := valuesOf_ascends (by norm_num) hfive (entries_regular h) hreaches hstays
    rw [show trunc 5 = 5 by exact_mod_cast trunc_intCast 5] at hascends
    have hall : Ascends 0 (loadValues prep checkpoints.length ++
        valuesOf 5 (entries checkpoints)) :=
      Ascends.append (loadValues_sorted prep _) (fun value hvalue ↦ by
        have hbounds := mem_loadValues hvalue
        omega) (by norm_num) hascends
    refine ⟨hall.sorted, fun value hvalue ↦ ?_, hall.last⟩
    have hbounds := hall.within value hvalue
    omega

/-- The values are as promised exactly if the shares come to 100 percent. Of more than 100000
checkpoints they must not come to 101 percent before. -/
theorem promised_iff (prep : Preparation) (engine : Progress) {checkpoints : List Checkpoint}
    (hne : checkpoints ≠ []) (h : ∀ cp ∈ checkpoints, Reports cp) :
    (Promised (executeCheckpoints prep engine checkpoints).values ↔
        Completes (entries checkpoints) ∧ Contained (entries checkpoints)) ∧
      (checkpoints.length ≤ 100000 →
        (Promised (executeCheckpoints prep engine checkpoints).values ↔
          Completes (entries checkpoints))) := by
  have hiff := promised_iff_reaches prep engine hne h
  rw [reaches_iff_completes h] at hiff
  refine ⟨hiff.trans (and_congr_right' (stays_iff_contained checkpoints)), fun hfew ↦ hiff.trans ?_⟩
  exact and_iff_left (stays_of_few h hfew)

/-- The values while the engine loads, without rounding. -/
def exactPreparation : Preparation where
  loadProg loaded toLoad := (loaded * 5 / toLoad : ℕ)
  nonneg _ _ := Int.natCast_nonneg _
  mono toLoad h := Int.ofNat_le.mpr (Nat.div_le_div_right (Nat.mul_le_mul_right 5 h))
  le_five {loaded toLoad} h := by
    have hle : loaded * 5 / toLoad ≤ 5 := Nat.div_le_of_le_mul (Nat.mul_le_mul_right 5 h.le)
    omega

/-- A checkpoint that does not report progress itself. -/
def silent (estimate : ℤ) : Checkpoint :=
  ⟨⟨0, 0, 0⟩, some estimate, []⟩

/-- Two checkpoints that report progress, with a fifth and four fifths of the estimates. -/
def fifths : List Checkpoint :=
  [⟨⟨0, 0, 0⟩, some 1, [0, 50, 100]⟩, ⟨⟨0, 0, 0⟩, some 4, [10, 40]⟩]

theorem entries_fifths :
    entries fifths = [(19 / 100, [0, 50, 100]), (76 / 100, [10, 40, 100])] := by
  decide +kernel

theorem promised_fifths :
    Promised (executeCheckpoints exactPreparation ⟨false, 0⟩ fifths).values := by
  refine ((promised_iff exactPreparation ⟨false, 0⟩ (List.cons_ne_nil _ _) fun cp hcp ↦
    ?_).2 (by decide)).mpr ?_
  · rcases List.mem_pair.mp hcp with rfl | rfl
    · exact ⟨Option.some_ne_none _, by decide, by decide⟩
    · exact ⟨Option.some_ne_none _, by decide, by decide⟩
  · refine ⟨[(19 / 100, [0, 50, 100])], (76 / 100, [10, 40, 100]), [], entries_fifths,
      List.cons_ne_nil _ _,
      fun _ hentry ↦ absurd hentry List.not_mem_nil, ?_⟩
    decide +kernel

/-- Where one checkpoint takes twice as long as the other, the last value is 99. -/
theorem not_promised_of_thirds :
    (executeCheckpoints exactPreparation ⟨false, 0⟩ [silent 1, silent 2]).values = [0, 2, 36, 99] ∧
      ¬ Promised (executeCheckpoints exactPreparation ⟨false, 0⟩ [silent 1, silent 2]).values := by
  have hvalues : (executeCheckpoints exactPreparation ⟨false, 0⟩ [silent 1, silent 2]).values =
      [0, 2, 36, 99] := by
    decide +kernel
  refine ⟨hvalues, fun h ↦ ?_⟩
  have hlast := h.last
  rw [hvalues] at hlast
  cases hlast

end Userland.Install.Engine
