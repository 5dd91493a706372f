import Modary.Starter.Layout

/-! # Runs of `writeProject`

How a run ends, and when it keeps its promise: after an error the parent directory holds what it held,
what was there is never touched, and without an error the destination holds exactly the project. -/

namespace Modary.Starter.Creation

open Modary.Lib.FileTree Modary.Starter.Write Modary.Starter.Growth Modary.Starter.Layout

variable {plan : Plan} {base : String} {start made : List Entry} {w : World}
  {files : List RenderedFile}

/-! ### The clean-up -/

/-- The destination is on top of the start when it was created, and in the start otherwise. -/
structure Destined (base : String) (start : List Entry) (createdDestination : Bool) (dest : Entry) :
    Prop where
  path : dest.path = [base]
  kind : dest.kind = .directory
  sound : Sound start
  found : createdDestination = false → dest ∈ start
  absent : createdDestination = true → [base] ∉ start.map Entry.path

/-- What was made of the destination itself. -/
def ofDestination (createdDestination : Bool) (dest : Entry) : List Entry :=
  if createdDestination then [dest] else []

variable {createdDestination : Bool} {dest : Entry}

theorem Destined.mem (h : Destined base start createdDestination dest)
    (hgrown : Grown start (ofDestination createdDestination dest ++ made) w) : dest ∈ w.entries := by
  rw [hgrown.entries]
  cases createdDestination with
  | false => exact List.mem_append_left _ (h.found rfl)
  | true => exact List.mem_append_right _ (List.mem_append_left _ List.mem_cons_self)

theorem Destined.mem_bare (h : Destined base start createdDestination dest)
    (hgrown : Grown start (ofDestination createdDestination dest) w) : dest ∈ w.entries := by
  rw [← List.append_nil (ofDestination createdDestination dest)] at hgrown
  exact h.mem hgrown

/-- The destination is removed when it was created, unless it cannot be looked at. -/
theorem removeCreated_entries (h : Destined base start createdDestination dest)
    (hremoves : Removes plan) (hgrown : Grown start (ofDestination createdDestination dest) w) :
    (removeCreated plan base createdDestination dest w).entries =
      if createdDestination && plan.fails .lstatCleanup then start ++ [dest] else start := by
  have hsound : Sound w.entries := hgrown.entries ▸ hgrown.stack.sound
  have hmem : dest ∈ w.entries := h.mem_bare hgrown
  have hfound := (lookup_eq_some hsound.nodup).mpr ⟨hmem, h.path⟩
  rw [removeCreated, destinationMatches, hfound, hremoves.2]
  cases createdDestination with
  | false =>
    have hentries := hgrown.entries
    rw [ofDestination, if_neg Bool.false_ne_true, List.append_nil] at hentries
    simpa using hentries
  | true =>
    have hone : Grown start ([] ++ [dest]) w := hgrown
    by_cases hfails : plan.fails .lstatCleanup = true
    · rw [hfails]
      simpa using hone.entries
    · rw [Bool.not_eq_true] at hfails
      have hremoved := hone.remove.entries
      rw [h.path, List.append_nil] at hremoved
      simp only [hfails, h.kind, Option.any_some, Bool.not_false, beq_self_eq_true, Bool.and_self,
        Bool.and_false, Bool.false_eq_true, if_true, if_false]
      exact hremoved

theorem removeCreated_kept (h : Destined base start createdDestination dest) (hkept : Kept start w) :
    Kept start (removeCreated plan base createdDestination dest w) := by
  rw [removeCreated]
  by_cases hremove : (createdDestination &&
      destinationMatches plan .lstatCleanup base dest w) = true
  · rw [if_pos hremove]
    rw [Bool.and_eq_true] at hremove
    exact hkept.tryRemove _ (h.absent hremove.1)
  · rw [if_neg hremove]
    exact hkept

/-- The deferred clean-up undoes what was filled in. -/
theorem cleanUp_entries {directories written : List Entry} {filled : Filled}
    (h : Destined base start createdDestination dest) (hremoves : Removes plan)
    (hmakes : FillMakes base files start (ofDestination createdDestination dest) directories written
      filled) :
    (cleanUp plan base createdDestination dest filled).entries =
      if createdDestination && plan.fails .lstatCleanup then start ++ [dest] else start := by
  have hgrown := hmakes.grown
  rw [← List.append_assoc] at hgrown
  have hdirectories := hgrown.undo hremoves hmakes.filePaths
  exact removeCreated_entries h hremoves (hdirectories.undo hremoves hmakes.directoryPaths)

theorem cleanUp_kept {directories written : List Entry} {filled : Filled}
    (h : Destined base start createdDestination dest)
    (hmakes : FillMakes base files start (ofDestination createdDestination dest) directories written
      filled) :
    Kept start (cleanUp plan base createdDestination dest filled) := by
  have hnew : ∀ {made : List Entry} {paths : List Path}, made ⊆ directories ++ written →
      made.map Entry.path = paths.map (base :: ·) →
      ∀ path ∈ paths, base :: path ∉ start.map Entry.path := by
    intro made paths hsub hpaths path hpath
    have hmem : base :: path ∈ made.map Entry.path := hpaths ▸ List.mem_map_of_mem hpath
    obtain ⟨e, he, hepath⟩ := List.mem_map.mp hmem
    rw [← hepath]
    exact hmakes.grown.stack.fresh (List.mem_append_right _ (hsub he))
  have hfiles := hmakes.grown.kept.removePaths plan
    (hnew (List.subset_append_right directories written) hmakes.filePaths)
  exact removeCreated_kept h (hfiles.removePaths plan
    (hnew (List.subset_append_left directories written) hmakes.directoryPaths))

/-! ### Runs -/

/-- Nothing fails from the opening of the destination to the end. -/
def Opens (plan : Plan) (base : String) (files : List RenderedFile) (entries : List Entry) : Prop :=
  plan.fails .openRoot = false ∧ plan.fails .statRoot = false ∧ Fills plan files ∧
    EmptyBelow base entries

/-- What a run leaves. -/
structure Left (base : String) (files : List RenderedFile) (start : List Entry)
    (createdDestination : Bool) (dest : Entry) (w : World) : Prop where
  kept : Kept start w
  holds : Holds base files w.entries
  same : w.entries = start ↔ createdDestination = false ∧ files = []

theorem inDestination_done (rendering : Rendering)
    (h : Destined base start createdDestination dest)
    (hgrown : Grown start (ofDestination createdDestination dest) w)
    (hopens : Opens plan base rendering.files w.entries) :
    (inDestination plan base rendering.files createdDestination dest w).2 =
      closed (plan.fails .closeRoot) ∧
    Left base rendering.files start createdDestination dest
      (inDestination plan base rendering.files createdDestination dest w).1 := by
  obtain ⟨hroot, hstat, hfills, hempty⟩ := hopens
  have hsound : Sound w.entries := hgrown.entries ▸ hgrown.stack.sound
  have hmem : dest ∈ w.entries := h.mem_bare hgrown
  have hfound := (lookup_eq_some hsound.nodup).mpr ⟨hmem, h.path⟩
  have hnone := (fill_none_iff hgrown hmem h.path h.kind rendering.nodup rendering.named).mpr
    ⟨hfills, hempty⟩
  obtain ⟨ds, fs, hmakes⟩ := fill_makes plan base rendering.files dest hgrown
  obtain ⟨hcreated, hkinds, hpairs⟩ := hmakes.whole hnone
  have hentries := hmakes.grown.entries
  have hlaid : Laid base rendering.files w.entries ds fs (fill plan base rendering.files dest w).world := by
    refine ⟨?_, hentries ▸ hmakes.grown.stack.sound, ?_, ?_, hkinds, hpairs⟩
    · rw [hentries, ← List.append_assoc, ← hgrown.entries]
    · exact fun e he => empty_below hsound hempty _ le_rfl he
    · rw [hmakes.directoryPaths, hcreated]
  rw [inDestination, hroot, hfound]
  simp only [Bool.false_eq_true, if_false, hstat, bne_self_eq_false, Bool.or_self, hnone]
  refine ⟨trivial, hmakes.grown.kept, hlaid.holds hmem h.path h.kind, ?_⟩
  rw [hentries, List.append_right_eq_self, List.append_eq_nil_iff, List.append_eq_nil_iff]
  constructor
  · rintro ⟨hdest, -, hwritten⟩
    rw [hwritten, List.map_nil, eq_comm, List.map_eq_nil_iff] at hpairs
    refine ⟨?_, hpairs⟩
    cases createdDestination with
    | false => rfl
    | true => exact absurd hdest (List.cons_ne_nil dest [])
  · rintro ⟨rfl, hfiles⟩
    have hdirectories := hmakes.directoryPaths
    rw [hfiles] at hpairs
    rw [hcreated, hfiles, profileDirectories_nil, List.map_nil, List.map_eq_nil_iff] at hdirectories
    rw [List.map_nil, List.map_eq_nil_iff] at hpairs
    exact ⟨rfl, hdirectories, hpairs⟩

theorem inDestination_failed (rendering : Rendering)
    (h : Destined base start createdDestination dest)
    (hgrown : Grown start (ofDestination createdDestination dest) w)
    (hopens : ¬ Opens plan base rendering.files w.entries) :
    (inDestination plan base rendering.files createdDestination dest w).2 ≠ [] ∧
    Kept start (inDestination plan base rendering.files createdDestination dest w).1 ∧
    (Removes plan →
      (inDestination plan base rendering.files createdDestination dest w).1.entries =
        if createdDestination && plan.fails .lstatCleanup then start ++ [dest] else start) := by
  have hsound : Sound w.entries := hgrown.entries ▸ hgrown.stack.sound
  have hmem : dest ∈ w.entries := h.mem_bare hgrown
  have hfound := (lookup_eq_some hsound.nodup).mpr ⟨hmem, h.path⟩
  rw [inDestination, hfound]
  by_cases hroot : plan.fails .openRoot = true
  · rw [if_pos hroot]
    exact ⟨List.cons_ne_nil _ _, removeCreated_kept h hgrown.kept,
      fun hremoves => removeCreated_entries h hremoves hgrown⟩
  · rw [if_neg hroot]
    rw [Bool.not_eq_true] at hroot
    simp only [bne_self_eq_false, Bool.or_false]
    by_cases hstat : plan.fails .statRoot = true
    · rw [if_pos hstat]
      exact ⟨List.cons_ne_nil _ _, removeCreated_kept h hgrown.kept,
        fun hremoves => removeCreated_entries h hremoves hgrown⟩
    · rw [if_neg hstat]
      rw [Bool.not_eq_true] at hstat
      obtain ⟨ds, fs, hmakes⟩ := fill_makes plan base rendering.files dest hgrown
      cases herr : (fill plan base rendering.files dest w).err with
      | none =>
        have hfills := (fill_none_iff hgrown hmem h.path h.kind rendering.nodup
          rendering.named).mp herr
        exact absurd ⟨hroot, hstat, hfills.1, hfills.2⟩ hopens
      | some err =>
        exact ⟨List.cons_ne_nil _ _, cleanUp_kept h hmakes,
          fun hremoves => cleanUp_entries h hremoves hmakes⟩

/-- The parent directory before a run. -/
structure Folder where
  entries : List Entry
  sound : Sound entries

/-- The run creates the destination. -/
structure Creates (plan : Plan) (base : String) (entries : List Entry) : Prop where
  parent : plan.fails .openParent = false
  inspected : plan.fails .lstatDestination = false
  absent : [base] ∉ entries.map Entry.path
  made : plan.fails .mkdirDestination = false

/-- The run finds its destination: an empty directory, or one it creates and can look at. -/
def Finds (plan : Plan) (base : String) (entries : List Entry) : Prop :=
  Creates plan base entries ∧ plan.fails .lstatCreated = false ∨
    plan.fails .openParent = false ∧ plan.fails .lstatDestination = false ∧
      ∃ e ∈ entries, e.path = [base] ∧ e.kind = .directory

/-- Nothing is in the way of the run before it closes the destination and its parent. -/
def Completes (plan : Plan) (base : String) (files : List RenderedFile) (entries : List Entry) : Prop :=
  Finds plan base entries ∧ Opens plan base files entries

theorem closed_eq_nil {fails : Bool} : closed fails = [] ↔ fails = false := by
  cases fails with
  | false => simp [closed]
  | true => simp [closed]

/-- How a run ends: with nothing done, with the destination created and not looked at, completed, or
cleaned up. -/
inductive Ending (plan : Plan) (base : String) (files : List RenderedFile) (start : List Entry) :
    World → List Err → Prop
  | nothing {w errs} : ¬ Creates plan base start → ¬ Finds plan base start → errs ≠ [] →
      Kept start w → w.entries = start → Ending plan base files start w errs
  | abandoned {w errs dest} : Creates plan base start → plan.fails .lstatCreated = true → errs ≠ [] →
      Kept start w → w.entries = start ++ [dest] → Ending plan base files start w errs
  | completed {w dest created} : Completes plan base files start →
      (created = true ↔ Creates plan base start) → Left base files start created dest w →
      Ending plan base files start w (closed (plan.fails .closeRoot) ++ closed (plan.fails .closeParent))
  | cleaned {w errs dest created} : ¬ Completes plan base files start →
      (Creates plan base start → plan.fails .lstatCreated = false) →
      (created = true ↔ Creates plan base start) → errs ≠ [] → Kept start w →
      (Removes plan → w.entries = if created && plan.fails .lstatCleanup then start ++ [dest] else start) →
      Ending plan base files start w errs

theorem emptyBelow_destination {entries : List Entry} (hpath : dest.path = [base]) :
    EmptyBelow base (entries ++ [dest]) ↔ EmptyBelow base entries := by
  constructor
  · exact fun h e he => h e (List.mem_append_left _ he)
  · intro h e he
    rcases List.mem_append.mp he with he | he
    · exact h e he
    · rw [List.mem_singleton.mp he, hpath]
      exact fun h => nomatch h

/-- A run that has found its destination is completed or cleaned up. -/
theorem ending_found (rendering : Rendering) (h : Destined base start createdDestination dest)
    (hgrown : Grown start (ofDestination createdDestination dest) w)
    (hcreates : createdDestination = true ↔ Creates plan base start) (hfinds : Finds plan base start)
    (hlooked : Creates plan base start → plan.fails .lstatCreated = false) :
    Ending plan base rendering.files start
      (inDestination plan base rendering.files createdDestination dest w).1
      ((inDestination plan base rendering.files createdDestination dest w).2 ++
        closed (plan.fails .closeParent)) := by
  have hempty : EmptyBelow base w.entries ↔ EmptyBelow base start := by
    rw [hgrown.entries]
    cases createdDestination with
    | false => rw [ofDestination, if_neg Bool.false_ne_true, List.append_nil]
    | true => exact emptyBelow_destination h.path
  have hopens : Opens plan base rendering.files w.entries ↔
      Opens plan base rendering.files start := by
    rw [Opens, Opens, hempty]
  by_cases hdone : Opens plan base rendering.files w.entries
  · obtain ⟨herrs, hleft⟩ := inDestination_done rendering h hgrown hdone
    rw [herrs]
    exact .completed ⟨hfinds, hopens.mp hdone⟩ hcreates hleft
  · obtain ⟨herrs, hkept, hentries⟩ := inDestination_failed rendering h hgrown hdone
    refine .cleaned ?_ hlooked hcreates ?_ hkept hentries
    · exact fun hcompletes => hdone (hopens.mpr hcompletes.2)
    · exact fun hnil => herrs (List.append_eq_nil_iff.mp hnil).1

theorem writeProject_ending (plan : Plan) (base : String) (folder : Folder) (rendering : Rendering) :
    Ending plan base rendering.files folder.entries
      (writeProject plan base rendering.files (World.start folder.entries)).1
      (writeProject plan base rendering.files (World.start folder.entries)).2 := by
  have hgrown := grown_start folder.sound
  have hentries : (World.start folder.entries).entries = folder.entries := rfl
  rw [writeProject]
  by_cases hparent : plan.fails .openParent = true
  · rw [if_pos hparent]
    refine .nothing (fun h => ?_) (fun h => ?_) (List.cons_ne_nil _ _) hgrown.kept rfl
    · exact absurd (h.parent.symm.trans hparent) Bool.false_ne_true
    · rcases h with ⟨h, -⟩ | ⟨h, -⟩
      · exact absurd (h.parent.symm.trans hparent) Bool.false_ne_true
      · exact absurd (h.symm.trans hparent) Bool.false_ne_true
  · rw [if_neg hparent]
    rw [Bool.not_eq_true] at hparent
    rw [inParent, hentries]
    by_cases hlstat : plan.fails .lstatDestination = true
    · rw [if_pos hlstat]
      refine .nothing (fun h => ?_) (fun h => ?_) (List.cons_ne_nil _ _) hgrown.kept rfl
      · exact absurd (h.inspected.symm.trans hlstat) Bool.false_ne_true
      · rcases h with ⟨h, -⟩ | ⟨-, h, -⟩
        · exact absurd (h.inspected.symm.trans hlstat) Bool.false_ne_true
        · exact absurd (h.symm.trans hlstat) Bool.false_ne_true
    · rw [if_neg hlstat]
      rw [Bool.not_eq_true] at hlstat
      cases hlookup : lookup folder.entries [base] with
      | none =>
        have habsent := lookup_eq_none.mp hlookup
        have hfound : ¬ ∃ e ∈ folder.entries, e.path = [base] ∧ e.kind = .directory := by
          rintro ⟨e, he, hpath, -⟩
          exact habsent (hpath ▸ List.mem_map_of_mem he)
        simp only
        by_cases hmkdir : plan.fails .mkdirDestination = true
        · rw [if_pos hmkdir]
          have hcreates : ¬ Creates plan base folder.entries := by
            intro h
            exact absurd (h.made.symm.trans hmkdir) Bool.false_ne_true
          refine .nothing hcreates (fun h => ?_) (List.cons_ne_nil _ _) hgrown.kept rfl
          rcases h with ⟨h, -⟩ | ⟨-, -, h⟩
          · exact hcreates h
          · exact hfound h
        · rw [if_neg hmkdir]
          rw [Bool.not_eq_true] at hmkdir
          have hcreates : Creates plan base folder.entries := ⟨hparent, hlstat, habsent, hmkdir⟩
          obtain ⟨w, hmake, hmade⟩ := make_of_free (w := World.start folder.entries) .directory
            (List.cons_ne_nil base []) habsent rfl
          have hnext : Grown folder.entries
              [⟨[base], (World.start folder.entries).fresh, .directory⟩] w := hgrown.make hmake
          rw [hmake]
          simp only
          by_cases hcreated : plan.fails .lstatCreated = true
          · rw [if_pos hcreated]
            exact .abandoned hcreates hcreated (List.cons_ne_nil _ _) hnext.kept hnext.entries
          · rw [if_neg hcreated]
            rw [Bool.not_eq_true] at hcreated
            have hsound : Sound w.entries := hnext.entries ▸ hnext.stack.sound
            have hdest : lookup w.entries [base] =
                some ⟨[base], (World.start folder.entries).fresh, .directory⟩ := by
              refine (lookup_eq_some hsound.nodup).mpr ⟨?_, rfl⟩
              rw [hmade]
              exact List.mem_append_right _ List.mem_cons_self
            rw [hdest]
            refine ending_found rendering ⟨rfl, rfl, folder.sound, fun h => (nomatch h), fun _ => habsent⟩
              hnext ⟨fun _ => hcreates, fun _ => rfl⟩ (.inl ⟨hcreates, hcreated⟩) fun _ => hcreated
      | some info =>
        obtain ⟨hmem, hpath⟩ := (lookup_eq_some folder.sound.nodup).mp hlookup
        have hcreates : ¬ Creates plan base folder.entries :=
          fun h => h.absent (hpath ▸ List.mem_map_of_mem hmem)
        simp only
        by_cases hkind : info.kind = .directory
        · rw [if_neg (by simp [hkind])]
          refine ending_found rendering ⟨hpath, hkind, folder.sound, fun _ => hmem, fun h => (nomatch h)⟩
            ?_ ⟨fun h => (nomatch h), fun h => absurd h hcreates⟩
            (.inr ⟨hparent, hlstat, info, hmem, hpath, hkind⟩) fun h => absurd h hcreates
          exact hgrown
        · rw [if_pos (by simpa using hkind)]
          refine .nothing hcreates (fun h => ?_) (List.cons_ne_nil _ _) hgrown.kept rfl
          rcases h with ⟨h, -⟩ | ⟨-, -, e, he, hepath, hekind⟩
          · exact hcreates h
          · have hsame : info = e := by
              have hother := (lookup_eq_some folder.sound.nodup).mpr ⟨he, hepath⟩
              rw [hlookup] at hother
              exact Option.some.inj hother
            exact hkind (hsame ▸ hekind)

/-- What is promised of a run: after an error the parent directory holds what it held, when the
removals of the clean-up do not fail; what was there is never touched; and a run without an error
leaves exactly the project in its destination. -/
structure Promised (plan : Plan) (base : String) (files : List RenderedFile) (start : List Entry)
    (w : World) (errs : List Err) : Prop where
  restored : Removes plan → errs ≠ [] → w.entries = start
  untouched : ∀ s ∈ w.history, ∀ e ∈ start, e ∈ s
  written : errs = [] → Holds base files w.entries

/-- The run does not fail where nothing is undone: a created destination can be looked at, when it is
made and when it is cleaned up, and what was opened can be closed behind a project that was
written. -/
structure Undone (plan : Plan) (base : String) (files : List RenderedFile) (start : List Entry) :
    Prop where
  created : Creates plan base start → plan.fails .lstatCreated = false
  matched : Creates plan base start → ¬ Completes plan base files start →
    plan.fails .lstatCleanup = false
  closed : Completes plan base files start → Creates plan base start ∨ files ≠ [] →
    plan.fails .closeRoot = false ∧ plan.fails .closeParent = false

/-- **The writing of a project** keeps its promise exactly when it does not fail where nothing is
undone. -/
theorem writeProject_promised_iff (plan : Plan) (base : String) (folder : Folder)
    (rendering : Rendering) :
    Promised plan base rendering.files folder.entries
        (writeProject plan base rendering.files (World.start folder.entries)).1
        (writeProject plan base rendering.files (World.start folder.entries)).2 ↔
      (Removes plan → Undone plan base rendering.files folder.entries) := by
  have hending := writeProject_ending plan base folder rendering
  generalize (writeProject plan base rendering.files (World.start folder.entries)).1 = w at hending ⊢
  generalize (writeProject plan base rendering.files (World.start folder.entries)).2 = errs
    at hending ⊢
  have untouched : Kept folder.entries w → ∀ s ∈ w.history, ∀ e ∈ folder.entries, e ∈ s :=
    fun hkept s hs e he => (hkept.always s hs).subset he
  have grown : ∀ dest : Entry, folder.entries ++ [dest] ≠ folder.entries := by
    intro dest heq
    exact List.cons_ne_nil dest [] (List.append_right_eq_self.mp heq)
  cases hending with
  | nothing hcreates hfinds herrs hkept hentries =>
    constructor
    · intro _ _
      exact ⟨fun h => absurd h hcreates, fun h => absurd h hcreates, fun h => absurd h.1 hfinds⟩
    · intro _
      exact ⟨fun _ _ => hentries, untouched hkept, fun h => absurd h herrs⟩
  | @abandoned _ dest hcreates hfails herrs hkept hentries =>
    constructor
    · intro hpromised hremoves
      exact absurd (hentries.symm.trans (hpromised.restored hremoves herrs)) (grown dest)
    · intro hundone
      refine ⟨fun hremoves _ => ?_, untouched hkept, fun h => absurd h herrs⟩
      exact absurd (((hundone hremoves).created hcreates).symm.trans hfails) Bool.false_ne_true
  | @completed _ created hcompletes hcreated hleft =>
    have hclosed : closed (plan.fails .closeRoot) ++ closed (plan.fails .closeParent) = [] ↔
        plan.fails .closeRoot = false ∧ plan.fails .closeParent = false := by
      rw [List.append_eq_nil_iff, closed_eq_nil, closed_eq_nil]
    have hlooked : Creates plan base folder.entries → plan.fails .lstatCreated = false := by
      intro hcreates
      rcases hcompletes.1 with ⟨-, h⟩ | ⟨-, -, e, he, hpath, -⟩
      · exact h
      · exact absurd (hpath ▸ List.mem_map_of_mem he) hcreates.absent
    constructor
    · intro hpromised hremoves
      refine ⟨hlooked, fun _ h => absurd hcompletes h, fun _ hmore => ?_⟩
      by_contra hfails
      obtain ⟨hfalse, hnil⟩ :=
        hleft.same.mp (hpromised.restored hremoves fun h => hfails (hclosed.mp h))
      rcases hmore with hcreates | hfiles
      · rw [hcreated.mpr hcreates] at hfalse
        exact nomatch hfalse
      · exact hfiles hnil
    · intro hundone
      refine ⟨fun hremoves herrs => ?_, untouched hleft.kept, fun _ => hleft.holds⟩
      by_contra hchanged
      refine herrs (hclosed.mpr ((hundone hremoves).closed hcompletes ?_))
      rw [hleft.same, not_and_or, Bool.not_eq_false, hcreated] at hchanged
      exact hchanged
  | @cleaned _ dest created hcompletes hlooked hcreated herrs hkept hentries =>
    constructor
    · intro hpromised hremoves
      refine ⟨hlooked, fun hcreates _ => ?_, fun h => absurd h hcompletes⟩
      by_contra hfails
      rw [Bool.not_eq_false] at hfails
      have hrestored := hpromised.restored hremoves herrs
      rw [hentries hremoves, hcreated.mpr hcreates, hfails] at hrestored
      exact grown dest hrestored
    · intro hundone
      refine ⟨fun hremoves _ => ?_, untouched hkept, fun h => absurd h herrs⟩
      rw [hentries hremoves]
      by_cases hcreates : Creates plan base folder.entries
      · rw [(hundone hremoves).matched hcreates hcompletes, Bool.and_false,
          if_neg Bool.false_ne_true]
      · have hfalse : created = false := by
          rw [← Bool.not_eq_true, hcreated]
          exact hcreates
        rw [hfalse, Bool.false_and, if_neg Bool.false_ne_true]

/-- Only the look at the created destination fails. -/
def lookFails : Plan := ⟨fun site => site == .lstatCreated, fun _ => 0, fun _ => false⟩

/-- A destination that was created and cannot be looked at stays behind. -/
theorem created_destination_left :
    ¬ ∀ (plan : Plan) (base : String) (folder : Folder) (rendering : Rendering),
      Promised plan base rendering.files folder.entries
        (writeProject plan base rendering.files (World.start folder.entries)).1
        (writeProject plan base rendering.files (World.start folder.entries)).2 := by
  intro hall
  have hsound : Sound [] := ⟨List.nodup_nil, fun e he => (nomatch he), fun e he => (nomatch he)⟩
  have hpromised := hall lookFails "app" ⟨[], hsound⟩
    ⟨[], List.nodup_nil, fun file hfile => (nomatch hfile), fun file hfile => (nomatch hfile)⟩
  have hrestored : [(⟨["app"], 1, .directory⟩ : Entry)] = [] :=
    hpromised.restored ⟨fun _ => rfl, rfl⟩ (List.cons_ne_nil _ _)
  exact List.cons_ne_nil _ _ hrestored

end Modary.Starter.Creation
