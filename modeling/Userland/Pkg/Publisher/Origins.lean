import Userland.Pkg.Publisher.Repository

/-!
# What the methods keep of the origins

In every run of the methods whose calls are harmless (`Harmless`), the origins are sorted, have
distinct texts and have the system repository once, and a call that fails leaves all of them as they
were (`keeps_of_allHarmless`).

Scope. A call comes with the files there are at its time.
-/

set_option autoImplicit false
set_option relaxedAutoImplicit false

namespace Userland.Pkg.Publisher

open Library Library.Program

/-- A call of a method. -/
inductive Call
  | addOrigin (origin : Argument) (priority : GivenPriority) (sslCert sslKey : Option (List Char))
  | removeOrigin (origin : Argument)
  | updateOrigin (origin : Argument) (priority : GivenPriority) (sslCert sslKey :
    Option (List Char))
  | setOrigins (value : List Argument)
  | resetOrigins
  | setSystemRepo (uri : Argument) (priority : GivenPriority) (socketPath : Option (List Char))
  | clearSystemRepo

/-- The method that is called. -/
def Call.method (urls : Urls) (files : Files) : Call → Method Unit
  | .addOrigin origin priority sslCert sslKey =>
  Publisher.addOrigin urls files origin priority sslCert sslKey
  | .removeOrigin origin => Publisher.removeOrigin origin
  | .updateOrigin origin priority sslCert sslKey =>
    Publisher.updateOrigin urls files origin priority sslCert sslKey
  | .setOrigins value => Publisher.setOrigins urls files value
  | .resetOrigins => Publisher.resetOrigins urls files
  | .setSystemRepo uri priority socketPath =>
    Publisher.setSystemRepo urls files uri priority socketPath
  | .clearSystemRepo => Publisher.clearSystemRepo

/-! ### What is asked of a run -/

/-- The origins are sorted, no two are equal, and the system repository is one of them, once. -/
structure Right (w : World) : Prop where
  sorted : w.origins.Pairwise fun i j ↦ (w.object i).KeyLE (w.object j)
  distinct : (w.origins.map fun i ↦ (w.object i).uri).Nodup
  system : ∀ id, w.systemRepo = some id → w.origins.count id = 1

/-- An origin or the system repository. -/
def Visible (w : World) (id : ℕ) : Prop :=
  id ∈ w.origins ∨ w.systemRepo = some id

/-- The origins and the system repository are the same, with the same attributes. -/
structure SameView (before after : World) : Prop where
  origins : after.origins = before.origins
  systemRepo : after.systemRepo = before.systemRepo
  object : ∀ id, Visible before id → after.object id = before.object id

/-- In every state the origins are right, and a call that fails changes nothing. -/
def Keeps (urls : Urls) : World → List (Files × Call) → Prop
  | w, [] => Right w
  | w, step :: rest =>
    Right w ∧
      (∀ error, (exec (step.2.method urls step.1) w).1 = .error error →
        SameView w (exec (step.2.method urls step.1) w).2) ∧
      Keeps urls (exec (step.2.method urls step.1) w).2 rest

/-! ### Calls that are harmless -/

section Conditions

variable (urls : Urls) (files : Files) (w : World)

/-- The object that is passed exists. -/
def Exists (argument : Argument) : Prop :=
  ∀ id, argument = .object id → id < w.next

/-- An object with a slash at the end of its text. -/
def slashed (u : RepositoryURI) : Except RepositoryError RepositoryURI :=
  (urlAffixTrailingSlash u.uri).bind fun uri ↦ u.setUri urls uri

/-- The text of an element of a list of origins. -/
def givenText : Argument → Except RepositoryError (List Char)
  | .object id => (slashed urls (w.object id)).map RepositoryURI.uri
  | .text uri => (RepositoryURI.new urls files uri none none none true).map RepositoryURI.uri

/-- The elements of a list have distinct texts, and not that of the system repository. -/
def Distinct (value : List Argument) : Prop :=
  ∃ uris, value.mapM (givenText urls files w) = .ok uris ∧ uris.Nodup ∧
    ∀ id, w.systemRepo = some id → (w.object id).uri ∉ uris ∧ .object id ∉ value

/-- An element has no text, and of those before it none is visible and would get a slash. -/
def Refused (value : List Argument) : Prop :=
  ∃ before argument after error, value = before ++ argument :: after ∧
    (∀ other ∈ before, ∃ uri, givenText urls files w other = .ok uri) ∧
    givenText urls files w argument = .error error ∧
    ∀ id, .object id ∈ before → Visible w id → slashed urls (w.object id) = .ok (w.object id)

/-- The attributes can be set, or the first one that cannot comes before any change. -/
def Settable (given target : RepositoryURI) : Prop :=
  (∀ error, { target with priority := given.priority }.setSslCert urls files given.sslCert =
    .error error →
    given.priority = target.priority) ∧
  ∀ u error, { target with priority := given.priority }.setSslCert urls files given.sslCert =
    .ok u →
    u.setSslKey urls files given.sslKey = .error error → u = target

/-- The text of a system repository. -/
def systemText (priority : GivenPriority) (socketPath : Option (List Char)) :
    Argument → Except RepositoryError (List Char)
  | .object id => .ok (w.object id).uri
  | .text uri => (RepositoryURI.newSystem urls files uri priority socketPath).map RepositoryURI.uri

/-- A call that does not make changes which it has to take back. -/
def Harmless : Call → Prop
  | .addOrigin origin _ _ _ => Exists w origin
  | .removeOrigin origin => Exists w origin
  | .updateOrigin origin _ _ _ => Exists w origin ∧ ∀ id target, origin = .object id →
      w.findText (w.object id).uri = some target →
        Settable urls files (w.object id) (w.object target)
  | .setOrigins value => (∀ argument ∈ value, Exists w argument) ∧
      (Distinct urls files w value ∨ Refused urls files w value)
  | .resetOrigins => True
  | .setSystemRepo uri priority socketPath => Exists w uri ∧
      ∀ text, systemText urls files w priority socketPath uri = .ok text →
        (∃ id, w.systemRepo = some id ∧ (w.object id).uri = text) ∨ w.hasText text = false
  | .clearSystemRepo => True

end Conditions

/-- Every call is harmless in the state in which it is made. -/
def AllHarmless (urls : Urls) : World → List (Files × Call) → Prop
  | _, [] => True
  | w, step :: rest =>
    Harmless urls step.1 w step.2 ∧ AllHarmless urls (exec (step.2.method urls step.1) w).2 rest

/-- The objects of a caller that makes a repository. -/
structure Start (w : World) (origins : List Argument) (systemRepo : Option ℕ) : Prop where
  origins_nil : w.origins = []
  systemRepo_none : w.systemRepo = none
  origins_exist : ∀ argument ∈ origins, Exists w argument
  system_exists : ∀ id, systemRepo = some id → id < w.next ∧ (w.object id).isSystem

/-! ### The invariant -/

/-- The origins are sorted and distinct, and exist. -/
structure Listed (w : World) : Prop where
  sorted : w.origins.Pairwise fun i j ↦ (w.object i).KeyLE (w.object j)
  distinct : (w.origins.map fun i ↦ (w.object i).uri).Nodup
  allocated : ∀ i ∈ w.origins, i < w.next

/-- The system repository is one of the origins. -/
structure Sound (w : World) : Prop extends Listed w where
  system : ∀ id, w.systemRepo = some id → id ∈ w.origins ∧ (w.object id).isSystem

variable {w w' : World} {id : ℕ} {u : RepositoryURI}

theorem Sound.right (h : Sound w) : Right w where
  sorted := h.sorted
  distinct := h.distinct
  system id hid := List.count_eq_one_of_mem h.distinct.of_map (h.system id hid).1

theorem Sound.lt_next (h : Sound w) (hid : Visible w id) : id < w.next :=
  hid.elim (h.allocated id) fun hsystem ↦ h.allocated id (h.system id hsystem).1

theorem SameView.refl (w : World) : SameView w w :=
  ⟨rfl, rfl, fun _ _ ↦ rfl⟩

theorem SameView.trans {w'' : World} (h : SameView w w') (h' : SameView w' w'') :
    SameView w w'' where
  origins := h'.origins.trans h.origins
  systemRepo := h'.systemRepo.trans h.systemRepo
  object id hid := (h'.object id (by rwa [Visible, h.origins, h.systemRepo])).trans
    (h.object id hid)

theorem SameView.hasText (h : SameView w w') (uri : List Char) :
    w'.hasText uri = w.hasText uri := by
  unfold World.hasText
  rw [h.origins]
  refine Bool.eq_iff_iff.mpr ?_
  simp only [List.any_eq_true, decide_eq_true_eq]
  exact exists_congr fun i ↦ and_congr_right fun hi ↦ by rw [h.object i (Or.inl hi)]

/-- What is visible stays sound. -/
theorem SameView.sound (h : SameView w w') (hnext : w.next ≤ w'.next) (hsound : Sound w) :
    Sound w' where
  sorted := by
    rw [h.origins]
    refine hsound.sorted.imp_of_mem fun hi hj hle ↦ ?_
    rwa [h.object _ (Or.inl hi), h.object _ (Or.inl hj)]
  distinct := by
    rw [h.origins, List.map_congr_left fun i hi ↦
      congrArg RepositoryURI.uri (h.object i (Or.inl hi))]
    exact hsound.distinct
  allocated i hi := (hsound.allocated i (h.origins ▸ hi)).trans_le hnext
  system id hid := by
    rw [h.systemRepo] at hid
    rw [h.origins, h.object id (Or.inr hid)]
    exact hsound.system id hid

/-! ### New objects and additions -/

/-- The method leaves a sound world, and what is visible as it was if it fails. -/
def Outcome (w : World) (method : Method Unit) : Prop :=
  Sound (exec method w).2 ∧ ∀ error, (exec method w).1 = .error error → SameView w (exec method w).2

theorem Outcome.of_throw (h : Sound w) (error : RepositoryError) : Outcome w (throw error) :=
  ⟨h, fun _ _ ↦ SameView.refl w⟩

/-- What went before a method left what is visible as it was. -/
theorem Outcome.of_sameView {method method' : Method Unit} (hview : SameView w w')
    (hexec : exec method w = exec method' w') (h : Outcome w' method') : Outcome w method := by
  unfold Outcome
  rw [hexec]
  exact ⟨h.1, fun error herror ↦ hview.trans (h.2 error herror)⟩

theorem Sound.sameView_alloc (h : Sound w) (u : RepositoryURI) : SameView w (w.alloc u) where
  origins := rfl
  systemRepo := rfl
  object _ hid := Function.update_of_ne (h.lt_next hid).ne _ _

theorem Sound.alloc (h : Sound w) (u : RepositoryURI) : Sound (w.alloc u) :=
  (h.sameView_alloc u).sound (Nat.le_succ _) h

theorem exec_newObject (result : Except RepositoryError RepositoryURI) (w : World) :
    exec (newObject result) w =
      match result with
      | .ok u => (.ok w.next, w.alloc u)
      | .error error => (.error error, w) := by
  cases result <;> rfl

/-- A method goes on with the object that was passed or made. -/
theorem Outcome.resolve (h : Sound w) {origin : Argument}
    {new : List Char → Except RepositoryError RepositoryURI}
    {rest : ℕ → Method Unit} (hobject : ∀ id, origin = .object id → Outcome w (rest id))
    (htext : ∀ text u, origin = .text text → new text = .ok u → Outcome (w.alloc u) (rest w.next)) :
    Outcome w (resolve origin new >>= rest) := by
  cases origin with
  | object id => exact hobject id rfl
  | text text =>
    rcases hnew : new text with error | u
    · have hexec : exec (Publisher.resolve (.text text) new >>= rest) w =
          exec (throw error : Method Unit) w := by
        rw [Publisher.resolve, exec_bind, exec_newObject, hnew]
        rfl
      exact Outcome.of_sameView (SameView.refl w) hexec (Outcome.of_throw h error)
    · have hexec : exec (Publisher.resolve (.text text) new >>= rest) w =
          exec (rest w.next) (w.alloc u) := by
        rw [Publisher.resolve, exec_bind, exec_newObject, hnew]
      exact Outcome.of_sameView (h.sameView_alloc u) hexec (htext text u rfl hnew)

theorem perm_sorted (w : World) (ids : List ℕ) : (w.sorted ids).Perm ids :=
  List.perm_insertionSort _ ids

theorem pairwise_sorted (w : World) (ids : List ℕ) :
    (w.sorted ids).Pairwise fun i j ↦ (w.object i).KeyLE (w.object j) := by
  have : Std.Total fun i j ↦ (w.object i).KeyLE (w.object j) :=
    ⟨fun i j ↦ RepositoryURI.keyLE_total _ _⟩
  have : IsTrans ℕ fun i j ↦ (w.object i).KeyLE (w.object j) :=
    ⟨fun i j k ↦ RepositoryURI.keyLE_trans⟩
  exact List.pairwise_insertionSort _ ids

variable {uri : List Char}

theorem hasText_eq_false_iff : w.hasText uri = false ↔
    uri ∉ w.origins.map fun i ↦ (w.object i).uri := by
  simp [World.hasText]

theorem exec_addUri (id : ℕ) (w : World) :
    exec (addUri id) w =
      if w.hasText (w.object id).uri then (.error (.duplicateRepositoryOrigin (w.object id).uri), w)
      else (.ok (), { w with origins := w.sorted (w.origins ++ [id]) }) := by
  unfold addUri
  rw [exec_bind, exec_get]
  dsimp only
  split_ifs <;> rfl

/-- An origin is added. -/
theorem Listed.add (h : Listed w) (hid : id < w.next) (hnew : w.hasText (w.object id).uri = false) :
    Listed { w with origins := w.sorted (w.origins ++ [id]) } where
  sorted := pairwise_sorted w _
  distinct := by
    have hperm : ((w.sorted (w.origins ++ [id])).map fun i ↦ (w.object i).uri).Perm
        ((w.object id).uri :: w.origins.map fun i ↦ (w.object i).uri) :=
      ((perm_sorted w _).trans (List.perm_append_singleton id w.origins)).map _
    exact hperm.nodup_iff.mpr (List.nodup_cons.mpr ⟨hasText_eq_false_iff.mp hnew, h.distinct⟩)
  allocated i hi := by
    rcases List.mem_append.mp ((perm_sorted w _).mem_iff.mp hi) with hi | hi
    · exact h.allocated i hi
    · rwa [List.mem_singleton.mp hi]

theorem Outcome.addUri (h : Sound w) (hid : id < w.next) : Outcome w (addUri id) := by
  unfold Outcome
  rw [exec_addUri]
  split_ifs with hdup
  · exact ⟨h, fun _ _ ↦ SameView.refl w⟩
  · refine ⟨⟨h.toListed.add hid (Bool.eq_false_iff.mpr hdup), fun system hsystem ↦ ?_⟩,
      fun _ herror ↦ (nomatch herror)⟩
    obtain ⟨hmem, hkind⟩ := h.system system hsystem
    exact ⟨(perm_sorted w _).mem_iff.mpr (List.mem_append_left _ hmem), hkind⟩

variable {u v : RepositoryURI} {priority : GivenPriority}

theorem isSystem_of_setPriority (h : u.setPriority priority = .ok v) : v.isSystem = u.isSystem := by
  match priority with
  | none => cases h; rfl
  | some none => cases h
  | some (some number) => cases h; rfl

section Methods

variable (urls : Urls) (files : Files)

theorem Outcome.addOrigin (h : Sound w) {origin : Argument} (hexists : Exists w origin)
    (priority : GivenPriority) (sslCert sslKey : Option (List Char)) :
    Outcome w (addOrigin urls files origin priority sslCert sslKey) :=
  Outcome.resolve h (fun id hid ↦ Outcome.addUri h (hexists id hid)) fun _ u _ _ ↦
    Outcome.addUri (h.alloc u) (Nat.lt_succ_self _)

/-! ### Removals and updates -/

theorem mem_of_findText (h : w.findText uri = some id) : id ∈ w.origins ∧ (w.object id).uri = uri :=
  ⟨List.mem_of_find?_eq_some h, by simpa using List.find?_some h⟩

variable {ids : List ℕ}

/-- Fewer origins stay sorted and distinct. -/
theorem Listed.of_sublist (h : Listed w) (hsub : ids.Sublist w.origins) (systemRepo : Option ℕ) :
    Listed { w with origins := ids, systemRepo := systemRepo } where
  sorted := h.sorted.sublist hsub
  distinct := h.distinct.sublist (hsub.map _)
  allocated i hi := h.allocated i (hsub.mem hi)

theorem exec_wantedText (origin : Argument) (w : World) :
    (∃ uri, exec (wantedText origin) w = (.ok uri, w)) ∨
    ∃ error, exec (wantedText origin) w = (.error error, w) := by
  cases origin with
  | object id => exact Or.inl ⟨_, rfl⟩
  | text uri =>
    rcases htext : urlAffixTrailingSlash uri with error | text
    · exact Or.inr ⟨error, by rw [wantedText, exec_lift, htext]⟩
    · exact Or.inl ⟨text, by rw [wantedText, exec_lift, htext]⟩

theorem Outcome.removeText (h : Sound w) (uri : List Char) : Outcome w (removeText uri) := by
  unfold Outcome Publisher.removeText
  rw [exec_bind, exec_get]
  dsimp only
  rcases hfind : w.findText uri with - | id
  · exact ⟨h, fun _ _ ↦ SameView.refl w⟩
  · dsimp only
    split_ifs with hsystem
    · exact ⟨h, fun _ _ ↦ SameView.refl w⟩
    · refine ⟨⟨h.toListed.of_sublist List.erase_sublist w.systemRepo, fun system hsys ↦ ?_⟩,
        fun _ herror ↦ (nomatch herror)⟩
      obtain ⟨hmem, hkind⟩ := h.system system hsys
      have hne : system ≠ id := fun heq ↦ hsystem (heq ▸ hkind)
      exact ⟨(List.mem_erase_of_ne hne).mpr hmem, hkind⟩

theorem Outcome.removeOrigin (h : Sound w) (origin : Argument) :
    Outcome w (removeOrigin origin) := by
  rcases exec_wantedText origin w with ⟨uri, hwanted⟩ | ⟨error, hwanted⟩
  · have hexec : exec (Publisher.removeOrigin origin) w = exec (Publisher.removeText uri) w := by
      rw [Publisher.removeOrigin, exec_bind, hwanted]
    exact Outcome.of_sameView (SameView.refl w) hexec (Outcome.removeText h uri)
  · have hexec : exec (Publisher.removeOrigin origin) w = exec (throw error : Method Unit) w := by
      rw [Publisher.removeOrigin, exec_bind, hwanted]
      rfl
    exact Outcome.of_sameView (SameView.refl w) hexec (Outcome.of_throw h error)

theorem exec_setAttribute (id : ℕ) (setter : RepositoryURI → Except RepositoryError RepositoryURI)
    (w : World) :
    exec (setAttribute id setter) w =
      match setter (w.object id) with
      | .ok u => (.ok (), w.update id u)
      | .error error => (.error error, w) := by
  unfold setAttribute
  rw [exec_bind, exec_get]
  dsimp only
  rw [exec_bind, exec_lift]
  rcases setter (w.object id) <;> rfl

@[simp] theorem object_update_self (w : World) (id : ℕ) (u : RepositoryURI) :
    (w.update id u).object id = u :=
  Function.update_self _ _ _

theorem object_update_of_ne {other : ℕ} (h : other ≠ id) (w : World) (u : RepositoryURI) :
    (w.update id u).object other = w.object other :=
  Function.update_of_ne h _ _

@[simp] theorem update_update (w : World) (id : ℕ) (u v : RepositoryURI) :
    (w.update id u).update id v = w.update id v := by
  unfold World.update
  simp

/-- An object that is set to what it was stays the same. -/
theorem update_object (w : World) (id : ℕ) : w.update id (w.object id) = w := by
  unfold World.update
  rw [Function.update_eq_self]

variable {filename : Option (List Char)}

/-- The setters for files keep the text and the kind. -/
theorem setSslFile_frame {attr : List Char} {missing : List Char → List Char → RepositoryError}
    {store : RepositoryURI → Option (List Char) → RepositoryURI}
    (hstore : ∀ filename, (store u filename).uri = u.uri ∧ (store u filename).isSystem = u.isSystem)
    (h : RepositoryURI.setSslFile urls files attr missing store filename u = .ok v) :
    v.uri = u.uri ∧ v.isSystem = u.isSystem := by
  unfold RepositoryURI.setSslFile at h
  by_cases hsystem : u.isSystem
  · rw [if_pos hsystem] at h
    cases h
    exact ⟨rfl, rfl⟩
  · rw [if_neg hsystem] at h
    cases filename with
    | none =>
      cases h
      exact hstore _
    | some filename =>
      dsimp only at h
      split_ifs at h <;> cases h <;> exact hstore _

/-- An origin with other attributes, but the same text and kind, keeps the world sound after
sorting. -/
theorem Sound.sort_update (h : Sound w) {target : ℕ} {v : RepositoryURI}
    (huri : v.uri = (w.object target).uri) (hkind : v.isSystem = (w.object target).isSystem) :
    Sound { w.update target v with origins := (w.update target v).sorted w.origins } := by
  have hsame : ∀ i, ((w.update target v).object i).uri = (w.object i).uri ∧
      ((w.update target v).object i).isSystem = (w.object i).isSystem := by
    intro i
    by_cases hi : i = target
    · rw [hi, object_update_self]
      exact ⟨huri, hkind⟩
    · rw [object_update_of_ne hi]
      exact ⟨rfl, rfl⟩
  have hperm := perm_sorted (w.update target v) w.origins
  refine ⟨⟨pairwise_sorted _ _, ?_, fun i hi ↦ h.allocated i (hperm.mem_iff.mp hi)⟩,
    fun system hsystem ↦ ?_⟩
  · have hmap : (w.origins.map fun i ↦ ((w.update target v).object i).uri) = w.origins.map fun i ↦
        (w.object i).uri :=
      List.map_congr_left fun i _ ↦ (hsame i).1
    exact (hperm.map _).nodup_iff.mpr (hmap ▸ h.distinct)
  · obtain ⟨hmem, hsys⟩ := h.system system hsystem
    exact ⟨hperm.mem_iff.mpr hmem, (hsame system).2.trans hsys⟩

/-- The changes of an update are all made, or the first one that fails comes before any. -/
theorem Outcome.updateTarget (h : Sound w) {target : ℕ} {given : RepositoryURI}
    (hsettable : Settable urls files given (w.object target)) :
    Outcome w (updateTarget urls files target given) := by
  have hpriority : (w.object target).setPriority (given.priority.map some) =
      .ok { w.object target with priority := given.priority } := by
    cases given.priority <;> rfl
  generalize hu : ({ w.object target with priority := given.priority } : RepositoryURI) = u at *
  unfold Settable at hsettable
  rw [hu] at hsettable
  obtain ⟨hcertFails, hkeyFails⟩ := hsettable
  have hframe : u.uri = (w.object target).uri ∧ u.isSystem = (w.object target).isSystem := by
    rw [← hu]
    exact ⟨rfl, rfl⟩
  have hunchanged : given.priority = (w.object target).priority → w.update target u = w := by
    intro hsame
    rw [← hu, hsame]
    exact update_object w target
  unfold Outcome Publisher.updateTarget
  rw [exec_bind, exec_setAttribute, hpriority]
  dsimp only
  rw [exec_bind, exec_setAttribute, object_update_self]
  rcases hcert : u.setSslCert urls files given.sslCert with error | v
  · dsimp only
    rw [hunchanged (hcertFails error hcert)]
    exact ⟨h, fun _ _ ↦ SameView.refl w⟩
  · dsimp only
    rw [update_update, exec_bind, exec_setAttribute, object_update_self]
    rcases hkey : v.setSslKey urls files given.sslKey with error | t
    · dsimp only
      rw [hkeyFails v error hcert hkey, update_object]
      exact ⟨h, fun _ _ ↦ SameView.refl w⟩
    · dsimp only
      rw [update_update, exec_modify]
      have hv := setSslFile_frame urls files (fun _ ↦ ⟨rfl, rfl⟩) hcert
      have ht := setSslFile_frame urls files (fun _ ↦ ⟨rfl, rfl⟩) hkey
      exact ⟨h.sort_update (by rw [ht.1, hv.1, hframe.1]) (by rw [ht.2, hv.2, hframe.2]),
        fun _ herror ↦ (nomatch herror)⟩

theorem Outcome.updateWith (h : Sound w) (id : ℕ)
    (hsettable : ∀ target, w.findText (w.object id).uri = some target →
      (w.object target).isSystem = false → Settable urls files (w.object id) (w.object target)) :
    Outcome w (updateWith urls files id) := by
  unfold Outcome Publisher.updateWith
  rw [exec_bind, exec_get]
  dsimp only
  rcases hfind : w.findText (w.object id).uri with - | target
  · exact ⟨h, fun _ _ ↦ SameView.refl w⟩
  · dsimp only
    split_ifs with hsystem
    · exact ⟨h, fun _ _ ↦ SameView.refl w⟩
    · exact Outcome.updateTarget urls files h
        (hsettable target hfind (Bool.eq_false_iff.mpr hsystem))

/-- An object whose files can be set again on an object with its text. -/
structure Accepted (u : RepositoryURI) : Prop where
  sslCert : ∀ filename, u.sslCert = some filename → filename.isEmpty = false →
    sslSchemes.any (u.scheme urls == ·) = true ∧ files.pathExists (files.abspath filename) = true
  sslKey : ∀ filename, u.sslKey = some filename → filename.isEmpty = false →
    sslSchemes.any (u.scheme urls == ·) = true ∧ files.pathExists (files.abspath filename) = true

/-- A file name that is stored may be given to the setter of another object with the text. -/
theorem setSslFile_ok (attr : List Char) (missing : List Char → List Char → RepositoryError)
    (store : RepositoryURI → Option (List Char) → RepositoryURI)
    (huri : v.uri = u.uri) (hfile : ∀ name, filename = some name → name.isEmpty = false →
      sslSchemes.any (u.scheme urls == ·) = true ∧ files.pathExists (files.abspath name) = true) :
    ∃ t, RepositoryURI.setSslFile urls files attr missing store filename v = .ok t := by
  have hscheme : v.scheme urls = u.scheme urls := by
    rw [RepositoryURI.scheme, RepositoryURI.scheme, huri]
  unfold RepositoryURI.setSslFile
  by_cases hsystem : v.isSystem
  · exact ⟨v, if_pos hsystem⟩
  · rw [if_neg hsystem]
    cases filename with
    | none => exact ⟨_, rfl⟩
    | some name =>
      by_cases hempty : name.isEmpty
      · exact ⟨_, if_pos hempty⟩
      · obtain ⟨hssl, hexists⟩ := hfile name rfl (Bool.eq_false_iff.mpr hempty)
        dsimp only
        rw [if_neg hempty, hscheme, hssl, Bool.not_true, if_neg Bool.false_ne_true, if_pos hexists]
        exact ⟨_, rfl⟩

theorem Accepted.settable {given target : RepositoryURI} (h : Accepted urls files given)
    (huri : target.uri = given.uri) : Settable urls files given target := by
  constructor
  · intro error hcert
    obtain ⟨t, ht⟩ := setSslFile_ok urls files "ssl_cert".toList .noSuchCertificate
      (fun u filename ↦ { u with sslCert := filename })
      (show ({ target with priority := given.priority } : RepositoryURI).uri =
        given.uri from huri) h.sslCert
    cases hcert.symm.trans ht
  · intro u error hcert hkey
    have hu := setSslFile_frame urls files (fun _ ↦ ⟨rfl, rfl⟩) hcert
    obtain ⟨t, ht⟩ := setSslFile_ok urls files "ssl_key".toList .noSuchKey
      (fun u filename ↦ { u with sslKey := filename }) (hu.1.trans huri) h.sslKey
    cases hkey.symm.trans ht

/-- What a setter for a file stores can be set again. -/
theorem accepted_of_setSslFile {attr : List Char}
    {missing : List Char → List Char → RepositoryError}
    {store : RepositoryURI → Option (List Char) → RepositoryURI}
    (hsystem : u.isSystem = false)
    (h : RepositoryURI.setSslFile urls files attr missing store filename u = .ok v) :
    ∃ name, v = store u name ∧ ∀ stored, name = some stored →
      sslSchemes.any (u.scheme urls == ·) = true ∧
      files.pathExists (files.abspath stored) = true := by
  unfold RepositoryURI.setSslFile at h
  rw [if_neg (by rw [hsystem]; exact Bool.false_ne_true)] at h
  cases filename with
  | none =>
    cases h
    exact ⟨none, rfl, fun _ hstored ↦ (nomatch hstored)⟩
  | some name =>
    dsimp only at h
    split_ifs at h with hempty hssl hexists
    · cases h
      exact ⟨none, rfl, fun _ hstored ↦ (nomatch hstored)⟩
    · cases h
      refine ⟨some _, rfl, fun stored hstored ↦ ?_⟩
      cases hstored
      rw [files.abspath_abspath]
      exact ⟨by simpa using hssl, hexists⟩

omit files in
theorem isSystem_of_setUri (h : u.setUri urls uri = .ok v) : v.isSystem = u.isSystem := by
  unfold RepositoryURI.setUri at h
  dsimp only at h
  rcases hslash : urlAffixTrailingSlash (replaceFirst (urls.urlsplit uri).1
    (Text.lower (urls.urlsplit uri).1) uri) with error | text <;> rw [hslash] at h <;>
      split_ifs at h <;>
    cases h <;> rfl

/-- A new object can be set again. -/
theorem accepted_of_new {sslCert sslKey : Option (List Char)} {trailingSlash : Bool}
    {u : RepositoryURI}
    (h : RepositoryURI.new urls files uri priority sslCert sslKey trailingSlash = .ok u) :
    Accepted urls files u := by
  unfold RepositoryURI.new at h
  rcases hpriority : (RepositoryURI.blank false trailingSlash).setPriority
    priority with error | first
  · rw [hpriority] at h
    cases h
  rw [hpriority] at h
  change (first.setUri urls uri).bind _ = _ at h
  have hfirst : first.isSystem = false := isSystem_of_setPriority hpriority
  rcases huri : first.setUri urls uri with error | second
  · rw [huri] at h
    cases h
  rw [huri] at h
  change (second.setSslCert urls files sslCert).bind _ = _ at h
  have hsecond : second.isSystem = false := (isSystem_of_setUri urls huri).trans hfirst
  rcases hcert : second.setSslCert urls files sslCert with error | third
  · rw [hcert] at h
    cases h
  rw [hcert] at h
  change third.setSslKey urls files sslKey = .ok u at h
  obtain ⟨certName, rfl, hcertName⟩ := accepted_of_setSslFile urls files hsecond hcert
  have hthird : ({ second with sslCert := certName } : RepositoryURI).isSystem = false := hsecond
  obtain ⟨keyName, rfl, hkeyName⟩ := accepted_of_setSslFile urls files hthird h
  exact ⟨fun filename hfilename _ ↦ hcertName filename hfilename,
    fun filename hfilename _ ↦ hkeyName filename hfilename⟩

theorem Outcome.updateOrigin (h : Sound w) {origin : Argument} (priority : GivenPriority)
    (sslCert sslKey : Option (List Char)) (hsettable : ∀ id target, origin = .object id →
      w.findText (w.object id).uri = some target → Settable urls files (w.object id)
      (w.object target)) :
    Outcome w (updateOrigin urls files origin priority sslCert sslKey) := by
  refine Outcome.resolve h (fun id hid ↦ ?_) fun text u _ hnew ↦ ?_
  · exact Outcome.updateWith urls files h id fun target hfind _ ↦ hsettable id target hid hfind
  · refine Outcome.updateWith urls files (h.alloc u) w.next fun target hfind _ ↦ ?_
    have hobject : (w.alloc u).object w.next = u := Function.update_self _ _ _
    rw [hobject] at hfind ⊢
    exact (accepted_of_new urls files hnew).settable urls files (mem_of_findText hfind).2

/-! ### The system repository -/

omit urls files in
theorem deleteWhere_sublist (test : ℕ → Bool) (ids : List ℕ) :
    (deleteWhere test ids).Sublist ids := by
  induction ids using deleteWhere.induct test with
  | case1 => exact List.Sublist.refl _
  | case2 i hi =>
    rw [deleteWhere, if_pos hi]
    exact List.nil_sublist _
  | case3 i hi passed others ih =>
    unfold deleteWhere
    rw [if_pos hi]
    exact (ih.cons_cons passed).cons i
  | case4 i rest hi ih =>
    unfold deleteWhere
    rw [if_neg hi]
    exact ih.cons_cons i

omit urls files in
theorem withoutOld_sublist (oldRepo : Option ℕ) (w : World) :
    (withoutOld oldRepo w).Sublist w.origins := by
  cases oldRepo with
  | none => exact List.Sublist.refl _
  | some old => exact deleteWhere_sublist _ _

/-- The world before the new system repository is added. -/
def cleared (w : World) (sruri : Option ℕ) : World :=
  { w with systemRepo := sruri, origins := withoutOld w.systemRepo { w with systemRepo := sruri } }

omit urls files in
theorem exec_setSystemRepoTo (sruri : Option ℕ) (w : World) :
    exec (setSystemRepoTo sruri) w =
      if sameText w sruri w.systemRepo then (.ok (), w)
      else
        match sruri with
        | none => (.ok (), cleared w sruri)
        | some id => exec (addUri id) (cleared w sruri) := by
  unfold setSystemRepoTo
  rw [exec_bind, exec_get]
  dsimp only
  split_ifs
  · rfl
  · rw [exec_bind, exec_modify]
    dsimp only
    rw [exec_bind, exec_modify]
    cases sruri <;> rfl

omit urls files in
theorem Outcome.setSystemRepoTo (h : Sound w) {sruri : Option ℕ}
    (hkind : ∀ id, sruri = some id → id < w.next ∧ (w.object id).isSystem)
    (hfree : ∀ id, sruri = some id → sameText w sruri w.systemRepo = false →
      w.hasText (w.object id).uri = false) :
    Outcome w (setSystemRepoTo sruri) := by
  unfold Outcome
  rw [exec_setSystemRepoTo]
  split_ifs with hsame
  · exact ⟨h, fun _ _ ↦ SameView.refl w⟩
  · have hlisted : Listed (cleared w sruri) :=
      h.toListed.of_sublist (withoutOld_sublist _ { w with systemRepo := sruri }) sruri
    cases sruri with
    | none => exact ⟨⟨hlisted, fun _ hid ↦ (nomatch hid)⟩, fun _ herror ↦ (nomatch herror)⟩
    | some id =>
      obtain ⟨hid, hsystem⟩ := hkind id rfl
      have hnew : (cleared w (some id)).hasText ((cleared w (some id)).object id).uri = false := by
        have hbefore := hasText_eq_false_iff.mp (hfree id rfl (Bool.eq_false_iff.mpr hsame))
        exact hasText_eq_false_iff.mpr fun hmem ↦ hbefore
          (((withoutOld_sublist w.systemRepo { w with systemRepo := some id }).map _).mem hmem)
      dsimp only
      rw [exec_addUri, hnew, if_neg Bool.false_ne_true]
      refine ⟨⟨hlisted.add hid hnew, fun system hsys ↦ ?_⟩, fun _ herror ↦ (nomatch herror)⟩
      cases hsys
      exact ⟨(perm_sorted _ _).mem_iff.mpr (List.mem_append_right _ List.mem_cons_self), hsystem⟩

omit urls files in
theorem Outcome.clearSystemRepo (h : Sound w) : Outcome w clearSystemRepo :=
  Outcome.setSystemRepoTo h (fun _ hid ↦ (nomatch hid)) fun _ hid ↦ (nomatch hid)

omit urls files in
/-- The text of a system repository that is set is free, or nothing is changed. -/
theorem hasText_of_free
    (h : (∃ system, w.systemRepo = some system ∧ (w.object system).uri = (w.object id).uri) ∨
    w.hasText (w.object id).uri = false) (hsame : sameText w (some id) w.systemRepo = false) :
    w.hasText (w.object id).uri = false := by
  rcases h with ⟨system, hsystem, huri⟩ | h
  · rw [hsystem] at hsame
    simp [sameText, huri] at hsame
  · exact h

theorem isSystem_of_newSystem {socketPath : Option (List Char)}
    {u : RepositoryURI} (h : RepositoryURI.newSystem urls files uri priority socketPath = .ok u) :
    u.isSystem := by
  unfold RepositoryURI.newSystem at h
  rcases hpriority : (RepositoryURI.blank true true).setPriority priority with error | first
  · rw [hpriority] at h
    cases h
  rw [hpriority] at h
  change (first.setUri urls uri).bind _ = _ at h
  rcases huri : first.setUri urls uri with error | second
  · rw [huri] at h
    cases h
  rw [huri] at h
  have hsecond : second.isSystem = true :=
    (isSystem_of_setUri urls huri).trans (isSystem_of_setPriority hpriority)
  cases socketPath <;> cases h <;> exact hsecond

theorem Outcome.setSystemRepo (h : Sound w) {uri : Argument}
    {socketPath : Option (List Char)}
    (hharmless : Harmless urls files w (.setSystemRepo uri priority socketPath)) :
    Outcome w (setSystemRepo urls files uri priority socketPath) := by
  obtain ⟨hexists, hfree⟩ := hharmless
  cases uri with
  | object id =>
    unfold Outcome Publisher.setSystemRepo
    dsimp only
    rw [exec_bind, exec_get]
    dsimp only
    split_ifs with hsystem
    · refine Outcome.setSystemRepoTo h (fun other hother ↦ ?_) fun other hother hsame ↦ ?_
      · cases hother
        exact ⟨hexists id rfl, hsystem⟩
      · cases hother
        exact hasText_of_free (hfree _ rfl) hsame
    · exact Outcome.of_throw h _
  | text text =>
    unfold Outcome Publisher.setSystemRepo
    dsimp only
    split_ifs with hproto
    · rw [exec_bind, exec_newObject]
      rcases hnew : RepositoryURI.newSystem urls files text priority socketPath with error | u
      · exact Outcome.of_throw h error
      · dsimp only
        have hobject : (w.alloc u).object w.next = u := Function.update_self _ _ _
        suffices houtcome : Outcome (w.alloc u) (Publisher.setSystemRepoTo (some w.next)) from
          ⟨houtcome.1, fun error herror ↦ (h.sameView_alloc u).trans (houtcome.2 error herror)⟩
        refine Outcome.setSystemRepoTo (h.alloc u) ?_ ?_
        · intro id hid
          cases hid
          refine ⟨Nat.lt_succ_self _, ?_⟩
          rw [hobject]
          exact isSystem_of_newSystem urls files hnew
        · intro id hid hsame
          cases hid
          refine hasText_of_free ?_ hsame
          have htext := hfree u.uri (by rw [systemText, hnew]; rfl)
          rw [hobject, (h.sameView_alloc u).hasText]
          refine htext.imp_left fun ⟨system, hsystem, huri⟩ ↦ ⟨system, hsystem, ?_⟩
          rw [(h.sameView_alloc u).object system (Or.inr hsystem), huri]
    · exact Outcome.of_throw h _

/-! ### Assignments -/

/-- What the loop over a list of origins leaves: the objects with their texts, and all others as
they were. -/
structure Replaced (value : List Argument) (uris : List (List Char)) (w w' : World) (ids : List ℕ) :
    Prop where
  next : w.next ≤ w'.next
  origins : w'.origins = w.origins
  systemRepo : w'.systemRepo = w.systemRepo
  allocated : ∀ id ∈ ids, id < w'.next
  uris : (ids.map fun id ↦ (w'.object id).uri) = uris
  object : ∀ id, id < w.next → .object id ∉ value → w'.object id = w.object id
  isSystem : ∀ id, id < w.next → (w'.object id).isSystem = (w.object id).isSystem

theorem givenText_congr {argument : Argument}
    (h : ∀ id, argument = .object id → w'.object id = w.object id) :
    givenText urls files w' argument = givenText urls files w argument := by
  cases argument with
  | object id => rw [givenText, givenText, h id rfl]
  | text uri => rfl

theorem exec_replaceEach_text (uri : List Char) (rest : List Argument) (w : World) :
    exec (replaceEach urls files (.text uri :: rest)) w =
      match RepositoryURI.new urls files uri none none none true with
      | .ok u => exec (List.cons w.next <$> replaceEach urls files rest) (w.alloc u)
      | .error error => (.error error, w) := by
  rw [replaceEach, exec_bind, exec_newObject]
  cases RepositoryURI.new urls files uri none none none true with
  | ok u =>
    dsimp only
    rw [map_eq_pure_bind]
  | error error => rfl

theorem exec_replaceEach_object (id : ℕ) (rest : List Argument) (w : World) :
    exec (replaceEach urls files (.object id :: rest)) w =
      match slashed urls (w.object id) with
      | .ok u => exec (List.cons id <$> replaceEach urls files rest) (w.update id u)
      | .error error => (.error error, w) := by
  rw [replaceEach, exec_bind, exec_setAttribute]
  have hslashed : ((urlAffixTrailingSlash (w.object id).uri).bind fun uri ↦
      (w.object id).setUri urls uri) =
      slashed urls (w.object id) := rfl
  rw [hslashed]
  cases slashed urls (w.object id) with
  | ok u =>
    dsimp only
    rw [map_eq_pure_bind]
  | error error => rfl

theorem isSystem_of_slashed (h : slashed urls u = .ok v) : v.isSystem = u.isSystem := by
  unfold slashed at h
  rcases huri : urlAffixTrailingSlash u.uri with error | uri
  · rw [huri] at h
    cases h
  · rw [huri] at h
    exact isSystem_of_setUri urls h

variable {value : List Argument}

/-- Elements with distinct texts are all taken. -/
theorem exec_replaceEach {uris : List (List Char)} (w : World)
    (hexists : ∀ argument ∈ value, Exists w argument)
    (huris : value.mapM (givenText urls files w) = .ok uris) (hnodup : uris.Nodup) :
    ∃ ids w', exec (replaceEach urls files value) w = (.ok ids, w') ∧
    Replaced value uris w w' ids := by
  induction value generalizing w uris with
  | nil =>
    cases huris
    exact ⟨[], w, rfl, le_rfl, rfl, rfl, fun _ h ↦ (nomatch h), rfl, fun _ _ _ ↦ rfl, fun _ _ ↦ rfl⟩
  | cons argument rest ih =>
    obtain ⟨first, others, hfirst, hothers, rfl⟩ := mapM_cons_eq_ok huris
    obtain ⟨hnotMem, hothersNodup⟩ := List.nodup_cons.mp hnodup
    have hrest : ∀ other ∈ rest, Exists w other := fun other hother ↦
      hexists other (List.mem_cons_of_mem _ hother)
    cases argument with
    | text uri =>
      rcases hnew : RepositoryURI.new urls files uri none none none true with error | u
      · rw [givenText, hnew] at hfirst
        cases hfirst
      rw [givenText, hnew] at hfirst
      obtain rfl : u.uri = first := Except.ok.inj hfirst
      have hsame : ∀ other ∈ rest, givenText urls files (w.alloc u) other =
          givenText urls files w other :=
        fun other hother ↦ givenText_congr urls files fun id hid ↦
          Function.update_of_ne (hrest other hother id hid).ne _ _
      obtain ⟨ids, w', hexec, hreplaced⟩ := ih (w.alloc u)
        (fun other hother id hid ↦ (hrest other hother id hid).trans (Nat.lt_succ_self _))
        ((mapM_congr hsame).trans hothers) hothersNodup
      refine ⟨w.next :: ids, w', ?_, (Nat.le_succ _).trans hreplaced.next, hreplaced.origins,
        hreplaced.systemRepo, ?_, ?_, fun id hid hvalue ↦ ?_, fun id hid ↦ ?_⟩
      · rw [exec_replaceEach_text, hnew]
        dsimp only
        rw [exec_map, hexec]
      · exact List.forall_mem_cons.mpr ⟨hreplaced.next, hreplaced.allocated⟩
      · rw [List.map_cons, hreplaced.uris, hreplaced.object w.next (Nat.lt_succ_self _) fun hmem ↦
          absurd (hrest _ hmem w.next rfl) (lt_irrefl _)]
        exact congrArg (· :: others) (congrArg RepositoryURI.uri (Function.update_self _ _ _))
      · rw [hreplaced.object id (hid.trans (Nat.lt_succ_self _)) fun hmem ↦
          hvalue (List.mem_cons_of_mem _ hmem)]
        exact Function.update_of_ne hid.ne _ _
      · rw [hreplaced.isSystem id (hid.trans (Nat.lt_succ_self _))]
        exact congrArg RepositoryURI.isSystem (Function.update_of_ne hid.ne _ _)
    | object id =>
      rcases hslash : slashed urls (w.object id) with error | u
      · rw [givenText, hslash] at hfirst
        cases hfirst
      have hfirst' := hfirst
      rw [givenText, hslash] at hfirst
      obtain rfl : u.uri = first := Except.ok.inj hfirst
      have hnotRest : .object id ∉ rest := fun hmem ↦
        hnotMem ((mem_mapM_ok_iff hothers).mpr ⟨_, hmem, hfirst'⟩)
      have hsame : ∀ other ∈ rest, givenText urls files (w.update id u) other =
          givenText urls files w other := by
        refine fun other hother ↦ givenText_congr urls files fun other' hother' ↦
          object_update_of_ne ?_ _ _
        rintro rfl
        exact hnotRest (hother' ▸ hother)
      obtain ⟨ids, w', hexec, hreplaced⟩ :=
        ih (w.update id u) hrest ((mapM_congr hsame).trans hothers) hothersNodup
      have hid : id < w.next := hexists _ List.mem_cons_self id rfl
      refine ⟨id :: ids, w', ?_, hreplaced.next, hreplaced.origins, hreplaced.systemRepo, ?_, ?_,
        fun other hother hvalue ↦ ?_, fun other hother ↦ (hreplaced.isSystem other hother).trans ?_⟩
      · rw [exec_replaceEach_object, hslash]
        dsimp only
        rw [exec_map, hexec]
      · exact List.forall_mem_cons.mpr ⟨hid.trans_le hreplaced.next, hreplaced.allocated⟩
      · rw [List.map_cons, hreplaced.uris, hreplaced.object id hid hnotRest, object_update_self]
      · rw [hreplaced.object other hother fun hmem ↦ hvalue (List.mem_cons_of_mem _ hmem)]
        refine object_update_of_ne ?_ _ _
        rintro rfl
        exact hvalue List.mem_cons_self
      · by_cases hother' : other = id
        · subst hother'
          rw [object_update_self]
          exact isSystem_of_slashed urls hslash
        · rw [object_update_of_ne hother']

/-- A list with an element that has no text fails, and what is visible is as it was if none of the
elements before gives a visible object a slash. -/
theorem exec_replaceEach_of_refused {argument : Argument} {after : List Argument}
    {error : RepositoryError}
    (before : List Argument) {start : World} (w : World) (hview : SameView start w)
    (hstart : Sound start)
    (hnext : start.next ≤ w.next) (hargument : givenText urls files w argument = .error error)
    (hother : ∀ id, argument = .object id → .object id ∉ before ∧ id < w.next)
    (hslash : ∀ id, .object id ∈ before → Visible start id →
      slashed urls (start.object id) = .ok (start.object id)) :
    ∃ error' w', exec (replaceEach urls files (before ++ argument :: after)) w =
    (.error error', w') ∧
      SameView start w' ∧ start.next ≤ w'.next := by
  induction before generalizing w with
  | nil =>
    cases argument with
    | text uri =>
      rcases hnew : RepositoryURI.new urls files uri none none none true with error' | u
      · exact ⟨error', w, by rw [List.nil_append, exec_replaceEach_text, hnew], hview, hnext⟩
      · rw [givenText, hnew] at hargument
        cases hargument
    | object id =>
      rcases hslashed : slashed urls (w.object id) with error' | u
      · exact ⟨error', w, by rw [List.nil_append, exec_replaceEach_object, hslashed], hview, hnext⟩
      · rw [givenText, hslashed] at hargument
        cases hargument
  | cons first rest ih =>
    have hother' : ∀ id, argument = .object id → .object id ∉ rest ∧ id < w.next := fun id hid ↦
      ⟨fun hmem ↦ (hother id hid).1 (List.mem_cons_of_mem _ hmem), (hother id hid).2⟩
    have hslash' : ∀ id, .object id ∈ rest → Visible start id →
        slashed urls (start.object id) = .ok (start.object id) := fun id hid ↦
      hslash id (List.mem_cons_of_mem _ hid)
    rw [List.cons_append]
    cases first with
    | text uri =>
      rw [exec_replaceEach_text]
      rcases RepositoryURI.new urls files uri none none none true with error' | u
      · exact ⟨error', w, rfl, hview, hnext⟩
      · have hview' : SameView start (w.alloc u) := ⟨hview.origins, hview.systemRepo, fun id hid ↦
          (Function.update_of_ne ((hstart.lt_next hid).trans_le hnext).ne _ _).trans
            (hview.object id hid)⟩
        have hargument' : givenText urls files (w.alloc u) argument = .error error := by
          rw [← hargument]
          exact givenText_congr urls files fun id hid ↦
            Function.update_of_ne (hother id hid).2.ne _ _
        obtain ⟨error', w', hexec, hresult⟩ :=
          ih (w.alloc u) hview' (hnext.trans (Nat.le_succ _)) hargument'
          (fun id hid ↦ ⟨(hother' id hid).1, (hother' id hid).2.trans (Nat.lt_succ_self _)⟩) hslash'
        refine ⟨error', w', ?_, hresult⟩
        dsimp only
        rw [exec_map, hexec]
    | object id =>
      rw [exec_replaceEach_object]
      rcases hslashed : slashed urls (w.object id) with error' | u
      · exact ⟨error', w, rfl, hview, hnext⟩
      · have hview' : SameView start (w.update id u) := by
          refine ⟨hview.origins, hview.systemRepo, fun other hvisible ↦ ?_⟩
          by_cases hid : other = id
          · subst hid
            rw [hview.object other hvisible, hslash other List.mem_cons_self hvisible] at hslashed
            rw [object_update_self, Except.ok.inj hslashed]
          · rw [object_update_of_ne hid, hview.object other hvisible]
        have hargument' : givenText urls files (w.update id u) argument = .error error := by
          rw [← hargument]
          refine givenText_congr urls files fun other hid ↦ object_update_of_ne ?_ _ _
          rintro rfl
          exact (hother other hid).1 List.mem_cons_self
        obtain ⟨error', w', hexec, hresult⟩ :=
          ih (w.update id u) hview' hnext hargument' hother' hslash'
        refine ⟨error', w', ?_, hresult⟩
        dsimp only
        rw [exec_map, hexec]

theorem exec_setOrigins_of_error {error : RepositoryError}
    (h : exec (replaceEach urls files value) w = (.error error, w')) :
    exec (setOrigins urls files value) w = (.error error, w') := by
  rw [setOrigins, exec_bind, h]

theorem exec_setOrigins_of_ok (h : exec (replaceEach urls files value) w = (.ok ids, w')) :
    exec (setOrigins urls files value) w =
      match w'.systemRepo with
      | none => (.ok (), { w' with origins := w'.sorted ids })
      | some id => exec (addUri id) { w' with origins := w'.sorted ids } := by
  rw [setOrigins, exec_bind, h]
  dsimp only
  rw [exec_bind, exec_modify]
  dsimp only
  rw [exec_bind, exec_get]
  dsimp only
  cases w'.systemRepo <;> rfl

theorem exec_setOrigins_of_none
    (h : exec (replaceEach urls files value) w = (.ok ids, w')) (hnone : w'.systemRepo = none) :
    exec (setOrigins urls files value) w = (.ok (), { w' with origins := w'.sorted ids }) := by
  rw [exec_setOrigins_of_ok urls files h]
  simp only [hnone]

theorem exec_setOrigins_of_some {system : ℕ}
    (h : exec (replaceEach urls files value) w = (.ok ids, w'))
    (hsystem : w'.systemRepo = some system) :
    exec (setOrigins urls files value) w = exec (addUri system)
    { w' with origins := w'.sorted ids } := by
  rw [exec_setOrigins_of_ok urls files h]
  simp only [hsystem]

/-- A list of distinct origins without the system repository is taken, and the system repository is
added. -/
theorem exec_setOrigins_of_distinct (h : Sound w) (hexists : ∀ argument ∈ value, Exists w argument)
    (hdistinct : Distinct urls files w value) :
    ∃ w', exec (setOrigins urls files value) w = (.ok (), w') ∧ Sound w' ∧ w.next ≤ w'.next ∧
      w'.systemRepo = w.systemRepo ∧ ∀ id, id < w.next →
      (w'.object id).isSystem = (w.object id).isSystem := by
  obtain ⟨uris, huris, hnodup, hsystem⟩ := hdistinct
  obtain ⟨ids, middle, hexec, hreplaced⟩ := exec_replaceEach urls files w hexists huris hnodup
  have hperm := perm_sorted middle ids
  have hlisted : Listed { middle with origins := middle.sorted ids } := {
    sorted := pairwise_sorted middle ids
    distinct := (hperm.map fun i ↦ (middle.object i).uri).nodup_iff.mpr (hreplaced.uris ▸ hnodup)
    allocated := fun i hi ↦ hreplaced.allocated i (hperm.mem_iff.mp hi) }
  rcases hsys : middle.systemRepo with - | system
  · rw [exec_setOrigins_of_none urls files hexec hsys]
    refine ⟨_, rfl, ⟨hlisted, fun id hid ↦ ?_⟩, hreplaced.next, hreplaced.systemRepo,
      hreplaced.isSystem⟩
    cases hid.symm.trans hsys
  · have hbefore : w.systemRepo = some system := hreplaced.systemRepo.symm.trans hsys
    obtain ⟨hnotUri, hnotValue⟩ := hsystem system hbefore
    have hlt : system < w.next := h.lt_next (Or.inr hbefore)
    have hobject : middle.object system = w.object system := hreplaced.object system hlt hnotValue
    have hnew : World.hasText { middle with origins := middle.sorted ids }
        (middle.object system).uri = false := by
      refine hasText_eq_false_iff.mpr fun hmem ↦ hnotUri ?_
      rw [← hobject, ← hreplaced.uris]
      exact (hperm.map _).mem_iff.mp hmem
    rw [exec_setOrigins_of_some urls files hexec hsys, exec_addUri, hnew, if_neg Bool.false_ne_true]
    refine ⟨_, rfl, ⟨hlisted.add (hlt.trans_le hreplaced.next) hnew, fun id hid ↦ ?_⟩,
      hreplaced.next, hreplaced.systemRepo, hreplaced.isSystem⟩
    obtain rfl : system = id := Option.some.inj (hsys.symm.trans hid)
    refine ⟨(perm_sorted _ _).mem_iff.mpr (List.mem_append_right _ List.mem_cons_self), ?_⟩
    show (middle.object system).isSystem = true
    rw [hobject]
    exact (h.system system hbefore).2

theorem Outcome.setOrigins (h : Sound w) (hharmless : Harmless urls files w (.setOrigins value)) :
    Outcome w (setOrigins urls files value) := by
  obtain ⟨hexists, hdistinct | ⟨before, argument, after, error, rfl, hbefore, hargument, hslash⟩⟩ :=
    hharmless
  · obtain ⟨w', hexec, hsound, -⟩ := exec_setOrigins_of_distinct urls files h hexists hdistinct
    unfold Outcome
    rw [hexec]
    exact ⟨hsound, fun _ herror ↦ (nomatch herror)⟩
  · have hother : ∀ id, argument = .object id → .object id ∉ before ∧ id < w.next := by
      rintro id rfl
      refine ⟨fun hmem ↦ ?_, hexists _ (List.mem_append_right _ List.mem_cons_self) id rfl⟩
      obtain ⟨uri, huri⟩ := hbefore _ hmem
      cases huri.symm.trans hargument
    obtain ⟨error', w', hexec, hview, hnext⟩ :=
      exec_replaceEach_of_refused urls files before w (SameView.refl w) h
      le_rfl hargument hother hslash
    unfold Outcome
    rw [exec_setOrigins_of_error urls files hexec]
    exact ⟨hview.sound hnext h, fun _ _ ↦ hview⟩

theorem Outcome.resetOrigins (h : Sound w) : Outcome w (resetOrigins urls files) := by
  refine Outcome.setOrigins urls files h ⟨fun _ hmem ↦ (nomatch hmem),
    Or.inl ⟨[], rfl, List.nodup_nil, fun id _ ↦ ?_⟩⟩
  exact ⟨List.not_mem_nil, List.not_mem_nil⟩

/-! ### Runs -/

/-- A harmless call has a sound outcome. -/
theorem outcome_of_harmless (h : Sound w) (call : Call) (hharmless : Harmless urls files w call) :
    Outcome w (call.method urls files) := by
  cases call with
  | addOrigin origin priority sslCert sslKey =>
    exact Outcome.addOrigin urls files h hharmless priority sslCert sslKey
  | removeOrigin origin => exact Outcome.removeOrigin h origin
  | updateOrigin origin priority sslCert sslKey =>
    exact Outcome.updateOrigin urls files h priority sslCert sslKey hharmless.2
  | setOrigins value => exact Outcome.setOrigins urls files h hharmless
  | resetOrigins => exact Outcome.resetOrigins urls files h
  | setSystemRepo uri priority socketPath => exact Outcome.setSystemRepo urls files h hharmless
  | clearSystemRepo => exact Outcome.clearSystemRepo h

end Methods

theorem keeps_of_sound {urls : Urls} {calls : List (Files × Call)} (h : Sound w)
    (hcalls : AllHarmless urls w calls) :
    Keeps urls w calls := by
  induction calls generalizing w with
  | nil => exact h.right
  | cons step rest ih =>
    obtain ⟨hharmless, hrest⟩ := hcalls
    obtain ⟨hsound, hfails⟩ := outcome_of_harmless urls step.1 h step.2 hharmless
    exact ⟨h.right, hfails, ih hsound hrest⟩

/-- A system repository that is set where there was none is one of the origins. -/
theorem Sound.of_setSystemRepoTo (h : Sound w) {sruri : Option ℕ} (hnone : w.systemRepo = none)
    (hkind : ∀ id, sruri = some id → id < w.next ∧ (w.object id).isSystem)
    (hexec : exec (setSystemRepoTo sruri) w = (.ok (), w')) : Sound w' := by
  have houtcome : Outcome w (setSystemRepoTo sruri) := by
    refine Outcome.setSystemRepoTo h hkind fun id hid hsame ↦ Bool.eq_false_iff.mpr fun htext ↦ ?_
    subst hid
    have hcleared : (cleared w (some id)).hasText ((cleared w (some id)).object id).uri = true := by
      unfold cleared
      rw [hnone]
      exact htext
    rw [exec_setSystemRepoTo, if_neg (Bool.eq_false_iff.mp hsame)] at hexec
    dsimp only at hexec
    rw [exec_addUri, if_pos hcleared] at hexec
    cases hexec
  unfold Outcome at houtcome
  rw [hexec] at houtcome
  exact houtcome.1

theorem Start.sound {start : World} {origins : List Argument} {systemRepo : Option ℕ}
    (h : Start start origins systemRepo) : Sound start where
  sorted := by
    rw [h.origins_nil]
    exact List.Pairwise.nil
  distinct := by
    rw [h.origins_nil]
    exact List.Pairwise.nil
  allocated i hi := by
    rw [h.origins_nil] at hi
    cases hi
  system id hid := by
    rw [h.systemRepo_none] at hid
    cases hid

/-- A repository that is made has sound origins if those of the list are distinct. -/
theorem sound_of_construct {urls : Urls} {files : Files} {start : World} {origins : List Argument}
    {systemRepo : Option ℕ} (hstart : Start start origins systemRepo)
    (hdistinct : Distinct urls files start origins)
    (hexec : exec (construct urls files origins systemRepo) start = (.ok (), w)) : Sound w := by
  obtain ⟨made, hmade, hsound, hnext, hsystemRepo, hkind⟩ :=
    exec_setOrigins_of_distinct urls files hstart.sound hstart.origins_exist hdistinct
  rw [construct, exec_bind, hmade] at hexec
  refine hsound.of_setSystemRepoTo (hsystemRepo.trans hstart.systemRepo_none)
    (fun id hid ↦ ?_) hexec
  obtain ⟨hlt, hsystem⟩ := hstart.system_exists id hid
  exact ⟨hlt.trans_le hnext, (hkind id hlt).trans hsystem⟩

/-- In every run that makes a repository of distinct origins, and whose calls are harmless, the
origins are right in every state and a call that fails changes nothing. -/
theorem keeps_of_allHarmless (urls : Urls) (files : Files) (start : World) (origins : List Argument)
    (systemRepo : Option ℕ) (calls : List (Files × Call)) (hstart : Start start origins systemRepo)
    (hdistinct : Distinct urls files start origins)
    (hmade : exec (construct urls files origins systemRepo) start = (.ok (), w))
    (hcalls : AllHarmless urls w calls) :
    Keeps urls w calls :=
  keeps_of_sound (sound_of_construct hstart hdistinct hmade) hcalls

/-! ### Origins that are equal, and a failure that changes the repository -/

/-- What `urlsplit` makes of the only location there is here. -/
def sampleUrls : Urls where
  urlsplit _ := ("http".toList, "a".toList)
  validPubUrl _ := true

/-- No files. -/
def sampleFiles : Files where
  abspath filename := filename
  pathExists _ := false
  abspath_abspath _ := rfl

/-- An origin and a system repository with the same text. -/
def sampleStart : World where
  object id := ⟨id = 1, some id, "http://a/".toList, none, none, none, true⟩
  next := 2
  origins := []
  systemRepo := none

theorem slashed_sample (id : ℕ) :
    slashed sampleUrls (sampleStart.object id) = .ok (sampleStart.object id) :=
  rfl

theorem exec_replaceEach_sample (ids : List ℕ) :
    exec (replaceEach sampleUrls sampleFiles (ids.map Argument.object)) sampleStart =
    (.ok ids, sampleStart) := by
  induction ids with
  | nil => rfl
  | cons id rest ih =>
    rw [List.map_cons, exec_replaceEach_object, slashed_sample]
    dsimp only
    rw [update_object, exec_map, ih]

theorem exec_construct_sample (ids : List ℕ) :
    exec (construct sampleUrls sampleFiles (ids.map Argument.object) none) sampleStart =
      (.ok (), { sampleStart with origins := sampleStart.sorted ids }) := by
  rw [construct, exec_bind,
    exec_setOrigins_of_none sampleUrls sampleFiles (exec_replaceEach_sample ids) rfl]
  rfl

theorem keeps_of_allHarmless_sample :
    Keeps sampleUrls { sampleStart with origins := [0] }
      [(sampleFiles, .resetOrigins), (sampleFiles, .setSystemRepo (.object 1) none none),
        (sampleFiles, .addOrigin (.text "http://a/".toList) none none none),
          (sampleFiles, .removeOrigin (.object 0)),
        (sampleFiles, .clearSystemRepo),
            (sampleFiles, .addOrigin (.text "http://a".toList) none none none)] := by
  refine keeps_of_allHarmless sampleUrls sampleFiles sampleStart [.object 0] none _ ?_ ?_
    (exec_construct_sample [0]) ?_
  · refine ⟨rfl, rfl, fun argument hmem id hid ↦ ?_, fun _ h ↦ (nomatch h)⟩
    obtain rfl := List.mem_singleton.mp hmem
    cases hid
    exact Nat.zero_lt_two
  · exact ⟨["http://a/".toList], rfl, List.nodup_singleton _, fun _ h ↦ (nomatch h)⟩
  · refine ⟨trivial, ⟨fun id hid ↦ ?_, fun text htext ↦ Or.inr ?_⟩, nofun, fun id hid ↦ ?_, trivial,
      nofun, trivial⟩
    · cases hid
      exact Nat.one_lt_two
    · cases htext
      rfl
    · cases hid
      decide

/-- A list with a location twice gives two equal origins, and a system repository with the text of
an origin is set although the call fails. -/
theorem not_keeps_of_equal :
    (exec (construct sampleUrls sampleFiles [.object 0, .object 1] none) sampleStart =
        (.ok (), { sampleStart with origins := [0, 1] }) ∧
      ¬ Keeps sampleUrls { sampleStart with origins := [0, 1] } []) ∧
    (exec (construct sampleUrls sampleFiles [.object 0] none) sampleStart =
        (.ok (), { sampleStart with origins := [0] }) ∧
      ¬ Keeps sampleUrls { sampleStart with origins := [0] }
        [(sampleFiles, .setSystemRepo (.object 1) none none)]) := by
  refine ⟨⟨?_, fun h ↦ ?_⟩, ⟨?_, fun h ↦ ?_⟩⟩
  · have hsorted : sampleStart.sorted [0, 1] = [0, 1] := by decide
    exact (exec_construct_sample [0, 1]).trans (by rw [hsorted])
  · exact (List.nodup_cons.mp h.distinct).1 List.mem_cons_self
  · exact exec_construct_sample [0]
  · have hview := h.2.1 (.duplicateRepositoryOrigin "http://a/".toList) rfl
    cases hview.systemRepo

end Userland.Pkg.Publisher
