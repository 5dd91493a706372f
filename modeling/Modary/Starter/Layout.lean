import Modary.Starter.Growth

/-! # The layout of a project

The directories of a project, its verification, and the filling of its destination: it succeeds
exactly when nothing is in its way, and leaves the files with the directories they are in. -/

namespace Modary.Starter.Layout

open Modary.Lib.FileTree Modary.Lib.Sorting Modary.Starter.Write Modary.Starter.Growth

variable {plan : Plan} {base : String} {start made : List Entry} {w : World}

/-! ### The directories of a project -/

theorem mem_parentsLoop : ∀ (n : ℕ) {directory d : Path}, directory.length ≤ n →
    (d ∈ parentsLoop n directory ↔ d ≠ [] ∧ d <+: directory) := by
  intro n
  induction n with
  | zero =>
    intro directory d hlength
    rw [List.length_eq_zero_iff.mp (Nat.le_zero.mp hlength), parentsLoop, List.prefix_nil]
    exact ⟨fun h => absurd h List.not_mem_nil, fun h => absurd h.2 h.1⟩
  | succ n ih =>
    intro directory d hlength
    rw [parentsLoop]
    by_cases hroot : directory = []
    · rw [if_pos hroot, hroot, List.prefix_nil]
      exact ⟨fun h => absurd h List.not_mem_nil, fun h => absurd h.2 h.1⟩
    · have hshorter : directory.dropLast.length ≤ n := by
        rw [List.length_dropLast]
        omega
      have hsplit := List.dropLast_concat_getLast hroot
      have hstep : d <+: directory ↔ d = directory ∨ d <+: directory.dropLast := by
        conv_lhs => rw [← hsplit]
        rw [List.prefix_concat_iff, hsplit]
      rw [if_neg hroot, List.mem_cons, ih hshorter, hstep]
      constructor
      · rintro (rfl | ⟨hd, hprefix⟩)
        · exact ⟨hroot, .inl rfl⟩
        · exact ⟨hd, .inr hprefix⟩
      · rintro ⟨hd, rfl | hprefix⟩
        · exact .inl rfl
        · exact .inr ⟨hd, hprefix⟩

variable {files : List RenderedFile}

/-- The directories are the proper parents of the files. -/
theorem mem_profileDirectories {d : Path} :
    d ∈ profileDirectories files ↔ d ≠ [] ∧ ∃ file ∈ files, d <+: file.path.dropLast := by
  rw [profileDirectories, mem_sortOn, List.mem_dedup, List.mem_flatMap]
  constructor
  · rintro ⟨file, hfile, hd⟩
    rw [mem_parentsLoop _ (by rw [List.length_dropLast]; omega)] at hd
    exact ⟨hd.1, file, hfile, hd.2⟩
  · rintro ⟨hne, file, hfile, hd⟩
    refine ⟨file, hfile, ?_⟩
    rw [mem_parentsLoop _ (by rw [List.length_dropLast]; omega)]
    exact ⟨hne, hd⟩

theorem nodup_profileDirectories : (profileDirectories files).Nodup :=
  (sortOn_perm _ _).nodup_iff.mpr (List.nodup_dedup _)

theorem profileDirectories_nil : profileDirectories [] = [] := by
  rw [List.eq_nil_iff_forall_not_mem]
  intro d hd
  obtain ⟨-, file, hfile, -⟩ := mem_profileDirectories.mp hd
  exact absurd hfile List.not_mem_nil

/-- A directory comes after the one it is in. -/
theorem parent_before {before after : List Path} {d : Path}
    (h : profileDirectories files = before ++ d :: after) : d.dropLast = [] ∨ d.dropLast ∈ before := by
  by_cases hroot : d.dropLast = []
  · exact .inl hroot
  · right
    have hmem : d ∈ profileDirectories files := by
      rw [h]
      exact List.mem_append_right _ List.mem_cons_self
    obtain ⟨hd, file, hfile, hprefix⟩ := mem_profileDirectories.mp hmem
    have hparent : d.dropLast ∈ profileDirectories files :=
      mem_profileDirectories.mpr ⟨hroot, file, hfile, (List.dropLast_prefix d).trans hprefix⟩
    have hshorter : d.dropLast.length < d.length := by
      rw [List.length_dropLast]
      have hpos := List.length_pos_iff.mpr hd
      omega
    rw [h] at hparent
    rcases List.mem_append.mp hparent with hbefore | hafter
    · exact hbefore
    · exfalso
      rcases List.mem_cons.mp hafter with hself | hafter
      · rw [hself] at hshorter
        exact absurd hshorter (lt_irrefl _)
      · have hascending := sortOn_ascending (fun directory : Path =>
          toLex (directory.length, slash directory))
          (files.flatMap fun file => parentsLoop file.path.length file.path.dropLast).dedup
        rw [← profileDirectories, h, List.pairwise_append] at hascending
        have hle := (List.pairwise_cons.mp hascending.2.1).1 d.dropLast hafter
        rw [Prod.Lex.le_iff] at hle
        rcases hle with hlt | ⟨heq, -⟩
        · exact absurd hlt (by simp only [ofLex_toLex]; omega)
        · simp only [ofLex_toLex] at heq
          omega

/-! ### The verification -/

theorem walkTree_ok {expected : List Path} : ∀ (es : List Entry) (seen n : ℕ),
    walkTree plan expected seen es = .ok n ↔ n = seen + es.length ∧ ∀ e ∈ es,
      e.kind ≠ .symlink ∧ e.path.tail ∈ expected ∧
        (e.kind = .directory → plan.fails (.readTree e.path.tail) = false) := by
  intro es
  induction es with
  | nil =>
    intro seen n
    rw [walkTree, List.length_nil, Nat.add_zero]
    constructor
    · intro h
      exact ⟨(Except.ok.inj h).symm, fun e he => absurd he List.not_mem_nil⟩
    · rintro ⟨rfl, -⟩
      rfl
  | cons e es ih =>
    intro seen n
    rw [walkTree, List.forall_mem_cons]
    by_cases hlink : e.kind = .symlink
    · rw [if_pos hlink]
      exact ⟨fun h => (nomatch h), fun h => absurd hlink h.2.1.1⟩
    · rw [if_neg hlink]
      by_cases hexpected : e.path.tail ∈ expected
      · rw [if_neg (not_not.mpr hexpected)]
        by_cases hread : (e.kind == .directory && plan.fails (.readTree e.path.tail)) = true
        · rw [if_pos hread]
          rw [Bool.and_eq_true, beq_iff_eq] at hread
          refine ⟨fun h => (nomatch h), fun h => ?_⟩
          rw [h.2.1.2.2 hread.1] at hread
          exact absurd hread.2 Bool.false_ne_true
        · rw [if_neg hread, ih, List.length_cons]
          rw [Bool.and_eq_true, beq_iff_eq, not_and, Bool.not_eq_true] at hread
          constructor
          · rintro ⟨rfl, hrest⟩
            exact ⟨by omega, ⟨hlink, hexpected, hread⟩, hrest⟩
          · rintro ⟨rfl, -, hrest⟩
            exact ⟨by omega, hrest⟩
      · rw [if_pos hexpected]
        exact ⟨fun h => (nomatch h), fun h => absurd h.2.1.2.1 hexpected⟩

theorem mem_tree {entries : List Entry} {e : Entry} :
    e ∈ tree base entries ↔ e ∈ entries ∧ e.path.head? = some base ∧ e.path ≠ [base] := by
  rw [tree, mem_sortOn, List.mem_filter, Bool.and_eq_true, beq_iff_eq, bne_iff_ne]

/-- Without an entry in the destination there is none below it. -/
theorem empty_below {entries : List Entry} (hsound : Sound entries)
    (hempty : ∀ e ∈ entries, e.path.dropLast ≠ [base]) :
    ∀ (n : ℕ) {e : Entry}, e.path.length ≤ n → e ∈ entries → e.path.head? = some base →
      e.path = [base] := by
  intro n
  induction n with
  | zero =>
    intro e hlength he _
    exact absurd (List.length_eq_zero_iff.mp (Nat.le_zero.mp hlength)) (hsound.named e he)
  | succ n ih =>
    intro e hlength he hhead
    obtain ⟨rest, hpath⟩ : ∃ rest, e.path = base :: rest := by
      cases hcases : e.path with
      | nil =>
        rw [hcases] at hhead
        exact nomatch hhead
      | cons first rest =>
        rw [hcases] at hhead
        exact ⟨rest, by rw [Option.some.inj hhead]⟩
    cases rest with
    | nil => exact hpath
    | cons x rest =>
      exfalso
      have hdrop : e.path.dropLast = base :: (x :: rest).dropLast := by rw [hpath]; rfl
      rcases houses_iff.mp (hsound.housed e he) with hroot | ⟨d, hd, hdpath, -⟩
      · rw [hdrop] at hroot
        exact nomatch hroot
      · have hdlength : d.path.length ≤ n := by
          rw [hdpath, List.length_dropLast]
          omega
        have hdhead : d.path.head? = some base := by rw [hdpath, hdrop]; rfl
        have hdbase := ih hdlength hd hdhead
        exact hempty e he (hdpath.symm.trans hdbase)

/-! ### Filling the destination -/

/-- A name in a path of `io/fs`. -/
def ValidName (name : String) : Prop := name ≠ "" ∧ name ≠ "." ∧ name ≠ ".." ∧ '/' ∉ name.toList

/-- The files of a project: valid paths that tell them apart. -/
structure Rendering where
  files : List RenderedFile
  nodup : (files.map RenderedFile.path).Nodup
  named : ∀ file ∈ files, file.path ≠ []
  valid : ∀ file ∈ files, ∀ name ∈ file.path, ValidName name

/-- Nothing fails and nothing is cancelled between the reading of the destination and the end, and
no file has the path of a directory. -/
structure Fills (plan : Plan) (files : List RenderedFile) : Prop where
  read : plan.fails .readDestination = false
  eachDirectory : ∀ d ∈ profileDirectories files, ClearDirectory plan d
  eachFile : ∀ file ∈ files, ClearFile plan file.path
  free : ∀ file ∈ files, file.path ∉ profileDirectories files
  verify : plan.cancelled .verify = false
  stat : plan.fails .statTree = false
  readRoot : plan.fails (.readTree []) = false
  readTree : ∀ d ∈ profileDirectories files, plan.fails (.readTree d) = false
  final : plan.fails .lstatFinal = false

/-- Nothing is in the destination. -/
def EmptyBelow (base : String) (entries : List Entry) : Prop :=
  ∀ e ∈ entries, e.path.dropLast ≠ [base]

/-- What filling has made: directories and then files. -/
structure FillMakes (base : String) (files : List RenderedFile) (start made directories written :
    List Entry) (filled : Filled) : Prop where
  grown : Grown start (made ++ (directories ++ written)) filled.world
  directoryPaths : directories.map Entry.path = filled.directories.map (base :: ·)
  filePaths : written.map Entry.path = filled.files.map (base :: ·)
  whole : filled.err = none → filled.directories = profileDirectories files ∧
    (∀ e ∈ directories, e.kind = .directory) ∧
    written.map (fun e => (e.path, e.kind)) =
      files.map (fun file => (base :: file.path, Kind.file file.data))

theorem emptyBelow_iff {entries : List Entry} :
    entries.any (fun e => e.path.dropLast == [base]) = false ↔ EmptyBelow base entries := by
  rw [List.any_eq_false]
  constructor
  · intro h e he hpath
    exact h e he (beq_iff_eq.mpr hpath)
  · intro h e he hpath
    exact h e he (beq_iff_eq.mp hpath)

theorem fill_makes (plan : Plan) (base : String) (files : List RenderedFile) (rootInfo : Entry)
    (h : Grown start made w) :
    ∃ directories written, FillMakes base files start made directories written
      (fill plan base files rootInfo w) := by
  have nothing : ∀ err : Err, FillMakes base files start made [] [] ⟨w, [], [], some err⟩ := by
    intro err
    refine ⟨?_, rfl, rfl, fun herr => nomatch herr⟩
    rwa [List.append_nil, List.append_nil]
  rw [fill]
  by_cases hread : plan.fails .readDestination = true
  · rw [if_pos hread]
    exact ⟨[], [], nothing _⟩
  · rw [if_neg hread]
    by_cases hempty : w.entries.any (fun e => e.path.dropLast == [base]) = true
    · rw [if_pos hempty]
      exact ⟨[], [], nothing _⟩
    · rw [if_neg hempty]
      obtain ⟨ds, hds, hdsdone⟩ := createDirectories_makes plan base (profileDirectories files) h
      simp only
      cases hderr : (createDirectories plan base (profileDirectories files) w).err with
      | some err =>
        refine ⟨ds, [], ?_, hds.paths, rfl, fun herr => nomatch herr⟩
        rw [List.append_nil]
        exact hds.grown
      | none =>
        obtain ⟨hcreated, hkinds, -⟩ := hdsdone hderr
        obtain ⟨fs, hfs, hfsdone⟩ := createFiles_makes plan base files hds.grown
        have hgrown := hfs.grown
        rw [List.append_assoc] at hgrown
        simp only
        cases hferr : (createFiles plan base files
            (createDirectories plan base (profileDirectories files) w).world).err with
        | some err => exact ⟨ds, fs, hgrown, hds.paths, hfs.paths, fun herr => nomatch herr⟩
        | none =>
          exact ⟨ds, fs, hgrown, hds.paths, hfs.paths,
            fun _ => ⟨hcreated, hkinds, (hfsdone hferr).1⟩⟩

/-- The destination filled with the directories and the files. -/
structure Laid (base : String) (files : List RenderedFile) (before directories written : List Entry)
    (w : World) : Prop where
  entries : w.entries = before ++ (directories ++ written)
  sound : Sound w.entries
  bare : ∀ e ∈ before, e.path.head? = some base → e.path = [base]
  directoryPaths : directories.map Entry.path = (profileDirectories files).map (base :: ·)
  kinds : ∀ e ∈ directories, e.kind = .directory
  filePairs : written.map (fun e => (e.path, e.kind)) =
    files.map fun file => (base :: file.path, Kind.file file.data)

section Laid

variable {before directories written : List Entry}

theorem Laid.paths (h : Laid base files before directories written w) :
    written.map Entry.path = (files.map RenderedFile.path).map (base :: ·) := by
  have hpairs := congrArg (List.map Prod.fst) h.filePairs
  rw [List.map_map, List.map_map] at hpairs
  rw [List.map_map]
  exact hpairs

/-- A path made is that of a directory or of a file. -/
theorem Laid.at_path (h : Laid base files before directories written w) {e : Entry}
    (he : e ∈ directories ++ written) : ∃ path, e.path = base :: path ∧
      (path ∈ profileDirectories files ∧ e.kind = .directory ∨
        ∃ file ∈ files, file.path = path ∧ e.kind = .file file.data) := by
  rcases List.mem_append.mp he with he | he
  · have hpath : e.path ∈ (profileDirectories files).map (base :: ·) :=
      h.directoryPaths ▸ List.mem_map_of_mem he
    obtain ⟨path, hmem, hpath⟩ := List.mem_map.mp hpath
    exact ⟨path, hpath.symm, .inl ⟨hmem, h.kinds e he⟩⟩
  · have hpair : (e.path, e.kind) ∈ files.map fun file => (base :: file.path, Kind.file file.data) :=
      h.filePairs ▸ List.mem_map_of_mem (f := fun e => (e.path, e.kind)) he
    obtain ⟨file, hfile, hpair⟩ := List.mem_map.mp hpair
    obtain ⟨hpath, hkind⟩ := Prod.mk.inj hpair
    exact ⟨file.path, hpath.symm, .inr ⟨file, hfile, rfl, hkind.symm⟩⟩

theorem Laid.mem_tree (h : Laid base files before directories written w)
    (hnamed : ∀ file ∈ files, file.path ≠ []) {e : Entry} :
    e ∈ tree base w.entries ↔ e ∈ directories ++ written := by
  rw [Layout.mem_tree, h.entries, List.mem_append]
  constructor
  · rintro ⟨he | he, hhead, hne⟩
    · exact absurd (h.bare e he hhead) hne
    · exact he
  · intro he
    obtain ⟨path, hpath, hcases⟩ := h.at_path he
    have hpath_ne : path ≠ [] := by
      rcases hcases with ⟨hmem, -⟩ | ⟨file, hfile, rfl, -⟩
      · exact (mem_profileDirectories.mp hmem).1
      · exact hnamed file hfile
    refine ⟨.inr he, by rw [hpath]; rfl, ?_⟩
    rw [hpath]
    intro heq
    exact hpath_ne (List.cons.inj heq).2

/-- The paths the verification expects are told apart. -/
theorem Laid.nodup (h : Laid base files before directories written w) :
    (files.map RenderedFile.path ++ profileDirectories files).Nodup := by
  have hnodup := h.sound.nodup
  rw [h.entries, List.map_append, List.nodup_append] at hnodup
  have hmade := hnodup.2.1
  rw [List.map_append, h.directoryPaths, h.paths, ← List.map_append] at hmade
  exact List.nodup_append_comm.mp (List.Nodup.of_map _ hmade)

theorem Laid.length_tree (h : Laid base files before directories written w)
    (hnamed : ∀ file ∈ files, file.path ≠ []) :
    (tree base w.entries).length =
      (files.map RenderedFile.path ++ profileDirectories files).dedup.length := by
  have hsame : (tree base w.entries).Perm (directories ++ written) := by
    refine (List.perm_ext_iff_of_nodup ?_ ?_).mpr fun e => h.mem_tree hnamed
    · exact (sortOn_perm _ _).nodup_iff.mpr ((List.Nodup.of_map _ h.sound.nodup).filter _)
    · have hnodup := List.Nodup.of_map _ h.sound.nodup
      rw [h.entries, List.nodup_append] at hnodup
      exact hnodup.2.1
  have hdirectories := congrArg List.length h.directoryPaths
  have hwritten := congrArg List.length h.paths
  rw [List.length_map, List.length_map] at hdirectories
  rw [List.length_map, List.length_map] at hwritten
  rw [hsame.length_eq, h.nodup.dedup, List.length_append, List.length_append, hdirectories, hwritten]
  omega

/-- The verification passes when it can look at everything. -/
theorem Laid.verify_iff (h : Laid base files before directories written w) (plan : Plan)
    (hnamed : ∀ file ∈ files, file.path ≠ []) :
    verifyCreatedTree plan base files (profileDirectories files) w = none ↔
      plan.fails .statTree = false ∧ plan.fails (.readTree []) = false ∧
        ∀ d ∈ profileDirectories files, plan.fails (.readTree d) = false := by
  have hwalk : ∀ n, walkTree plan (files.map RenderedFile.path ++ profileDirectories files) 0
      (tree base w.entries) = .ok n ↔
        n = (files.map RenderedFile.path ++ profileDirectories files).dedup.length ∧
          ∀ d ∈ profileDirectories files, plan.fails (.readTree d) = false := by
    intro n
    rw [walkTree_ok, h.length_tree hnamed, Nat.zero_add]
    refine and_congr_right fun _ => ?_
    constructor
    · intro hall d hd
      have hpath : base :: d ∈ directories.map Entry.path := h.directoryPaths ▸ List.mem_map_of_mem hd
      obtain ⟨e, he, hpath⟩ := List.mem_map.mp hpath
      have hread := (hall e ((h.mem_tree hnamed).mpr (List.mem_append_left _ he))).2.2 (h.kinds e he)
      rw [hpath] at hread
      exact hread
    · intro hall e he
      obtain ⟨path, hpath, hcases⟩ := h.at_path ((h.mem_tree hnamed).mp he)
      rw [hpath, List.tail_cons]
      rcases hcases with ⟨hmem, hkind⟩ | ⟨file, hfile, rfl, hkind⟩
      · rw [hkind]
        exact ⟨by decide, List.mem_append_right _ hmem, fun _ => hall path hmem⟩
      · rw [hkind]
        exact ⟨by simp, List.mem_append_left _ (List.mem_map_of_mem hfile), fun heq => nomatch heq⟩
  rw [verifyCreatedTree]
  by_cases hstat : plan.fails .statTree = true
  · simp [hstat]
  · by_cases hroot : plan.fails (.readTree []) = true
    · simp [hroot]
    · rw [Bool.not_eq_true] at hstat hroot
      rw [hstat, hroot, Bool.or_self, if_neg Bool.false_ne_true]
      cases hok : walkTree plan (files.map RenderedFile.path ++ profileDirectories files) 0
          (tree base w.entries) with
      | error err =>
        refine ⟨fun hnone => (nomatch hnone), fun hall => ?_⟩
        have hsome := (hwalk _).mpr ⟨rfl, hall.2.2⟩
        rw [hok] at hsome
        exact nomatch hsome
      | ok seen =>
        obtain ⟨hseen, hall⟩ := (hwalk seen).mp hok
        simp only [hseen, ne_eq, not_true_eq_false, if_false]
        exact ⟨fun _ => ⟨trivial, trivial, hall⟩, fun _ => trivial⟩

end Laid

/-- The destination holds exactly the files and the directories they are in. -/
structure Holds (base : String) (files : List RenderedFile) (entries : List Entry) : Prop where
  destination : ∃ e ∈ entries, e.path = [base] ∧ e.kind = .directory
  below : ∀ (path : Path) (kind : Kind), path ≠ [] →
    ((∃ e ∈ entries, e.path = base :: path ∧ e.kind = kind) ↔
      (∃ file ∈ files, file.path = path ∧ kind = .file file.data) ∨
        kind = .directory ∧ ∃ file ∈ files, ∃ rest, rest ≠ [] ∧ file.path = path ++ rest)

/-- A directory a project needs is a proper parent of a file. -/
theorem needed_iff {path : Path} (hpath : path ≠ []) : path ∈ profileDirectories files ↔
    ∃ file ∈ files, ∃ rest, rest ≠ [] ∧ file.path = path ++ rest := by
  rw [mem_profileDirectories]
  constructor
  · rintro ⟨-, file, hfile, rest, hrest⟩
    have hne : file.path ≠ [] := by
      intro hnil
      rw [hnil] at hrest
      exact hpath (List.append_eq_nil_iff.mp hrest).1
    refine ⟨file, hfile, rest ++ [file.path.getLast hne], by simp, ?_⟩
    rw [← List.append_assoc, hrest, List.dropLast_concat_getLast]
  · rintro ⟨file, hfile, rest, hrest, hfilepath⟩
    refine ⟨hpath, file, hfile, rest.dropLast, ?_⟩
    rw [hfilepath, List.dropLast_append_of_ne_nil hrest]

theorem Laid.holds {before directories written : List Entry} {dest : Entry}
    (h : Laid base files before directories written w) (hdest : dest ∈ before)
    (hpath : dest.path = [base]) (hkind : dest.kind = .directory) : Holds base files w.entries := by
  refine ⟨⟨dest, ?_, hpath, hkind⟩, ?_⟩
  · rw [h.entries]
    exact List.mem_append_left _ hdest
  · intro path kind hne
    rw [← needed_iff hne]
    constructor
    · rintro ⟨e, he, hepath, rfl⟩
      rw [h.entries, List.mem_append] at he
      rcases he with he | he
      · have hbare := h.bare e he (by rw [hepath]; rfl)
        rw [hepath, List.cons.injEq] at hbare
        exact absurd hbare.2 hne
      · obtain ⟨path', hpath', hcases⟩ := h.at_path he
        have hsame : path' = path := (List.cons.inj (hpath'.symm.trans hepath)).2
        subst hsame
        rcases hcases with ⟨hmem, hkind⟩ | hfile
        · exact .inr ⟨hkind, hmem⟩
        · exact .inl hfile
    · rintro (⟨file, hfile, rfl, rfl⟩ | ⟨rfl, hmem⟩)
      · have hpair : (base :: file.path, Kind.file file.data) ∈
            written.map fun e => (e.path, e.kind) := by
          rw [h.filePairs]
          exact List.mem_map_of_mem (f := fun file : RenderedFile =>
            (base :: file.path, Kind.file file.data)) hfile
        obtain ⟨e, he, hpair⟩ := List.mem_map.mp hpair
        obtain ⟨hepath, hekind⟩ := Prod.mk.inj hpair
        refine ⟨e, ?_, hepath, hekind⟩
        rw [h.entries]
        exact List.mem_append_right _ (List.mem_append_right _ he)
      · have hpath : base :: path ∈ directories.map Entry.path :=
          h.directoryPaths ▸ List.mem_map_of_mem hmem
        obtain ⟨e, he, hpath⟩ := List.mem_map.mp hpath
        refine ⟨e, ?_, hpath, h.kinds e he⟩
        rw [h.entries]
        exact List.mem_append_right _ (List.mem_append_left _ he)

/-- Filling succeeds exactly when nothing is in its way; and then the destination is laid out. -/
theorem fill_none_iff {dest : Entry} (h : Grown start made w) (hdest : dest ∈ w.entries)
    (hpath : dest.path = [base]) (hkind : dest.kind = .directory)
    (hnodup : (files.map RenderedFile.path).Nodup) (hnamed : ∀ file ∈ files, file.path ≠ []) :
    (fill plan base files dest w).err = none ↔ Fills plan files ∧ EmptyBelow base w.entries := by
  have hsound : Sound w.entries := h.entries ▸ h.stack.sound
  have hmatches : ∀ {made : List Entry} {w' : World}, Grown start made w' → dest ∈ w'.entries →
      (destinationMatches plan .lstatFinal base dest w' = true ↔
        plan.fails .lstatFinal = false) := by
    intro made w' hgrown hmem
    have hsound' : Sound w'.entries := hgrown.entries ▸ hgrown.stack.sound
    have hfound := (lookup_eq_some hsound'.nodup).mpr ⟨hmem, hpath⟩
    rw [destinationMatches, hfound]
    simp [hkind]
  rw [fill]
  by_cases hread : plan.fails .readDestination = true
  · rw [if_pos hread]
    refine ⟨fun herr => (nomatch herr), fun hall => ?_⟩
    rw [hall.1.read] at hread
    exact absurd hread Bool.false_ne_true
  · rw [if_neg hread]
    rw [Bool.not_eq_true] at hread
    by_cases hany : w.entries.any (fun e => e.path.dropLast == [base]) = true
    · rw [if_pos hany]
      refine ⟨fun herr => (nomatch herr), fun hall => ?_⟩
      rw [emptyBelow_iff.mpr hall.2] at hany
      exact absurd hany Bool.false_ne_true
    · rw [if_neg hany]
      rw [Bool.not_eq_true] at hany
      have hempty : EmptyBelow base w.entries := emptyBelow_iff.mp hany
      have hbare : ∀ e ∈ w.entries, e.path.head? = some base → e.path = [base] :=
        fun e he => empty_below hsound hempty _ le_rfl he
      have hnew : ∀ path : Path, path ≠ [] → base :: path ∉ w.entries.map Entry.path := by
        intro path hne hmem
        obtain ⟨e, he, hepath⟩ := List.mem_map.mp hmem
        have hbase := hbare e he (by rw [hepath]; rfl)
        rw [hepath, List.cons.injEq] at hbase
        exact hne hbase.2
      have hhouse : houses w.entries [base] = true :=
        houses_iff.mpr (.inr ⟨dest, hdest, hpath, hkind⟩)
      obtain ⟨ds, hds, hdsdone⟩ := createDirectories_makes plan base (profileDirectories files) h
      obtain ⟨fs, hfs, hfsdone⟩ := createFiles_makes plan base files hds.grown
      simp only
      set first := createDirectories plan base (profileDirectories files) w
      set second := createFiles plan base files first.world
      have hgrown := hfs.grown
      rw [List.append_assoc] at hgrown
      -- what the two loops have laid out when neither ended with an error
      have laid : first.err = none → second.err = none →
          Laid base files w.entries ds fs second.world := by
        intro hderr hferr
        obtain ⟨hcreated, hkinds, -⟩ := hdsdone hderr
        refine ⟨?_, hgrown.entries ▸ hgrown.stack.sound, hbare, ?_, hkinds, (hfsdone hferr).1⟩
        · rw [hgrown.entries, ← List.append_assoc, ← h.entries]
        · rw [hds.paths, hcreated]
      have hkept : dest ∈ second.world.entries := by
        rw [hgrown.entries, ← List.append_assoc, ← h.entries]
        exact List.mem_append_left _ hdest
      constructor
      · intro herr
        cases hderr : first.err with
        | some err =>
          simp only [hderr] at herr
          exact nomatch herr
        | none =>
          simp only [hderr] at herr
          cases hferr : second.err with
          | some err =>
            simp only [hferr] at herr
            exact nomatch herr
          | none =>
            simp only [hferr] at herr
            have hlaid := laid hderr hferr
            rw [checkCreated] at herr
            by_cases hverify : plan.cancelled .verify = true
            · rw [if_pos hverify] at herr
              exact nomatch herr
            · rw [if_neg hverify] at herr
              cases hverified :
                  verifyCreatedTree plan base files (profileDirectories files) second.world with
              | some err =>
                rw [hverified] at herr
                exact nomatch herr
              | none =>
                simp only [hverified] at herr
                obtain ⟨hstat, hroot, htree⟩ := (hlaid.verify_iff plan hnamed).mp hverified
                have hfinal : plan.fails .lstatFinal = false := by
                  rw [← hmatches hgrown hkept]
                  by_contra hne
                  rw [Bool.not_eq_true] at hne
                  rw [hne] at herr
                  exact nomatch herr
                refine ⟨⟨hread, (hdsdone hderr).2.2, (hfsdone hferr).2, ?_,
                  Bool.not_eq_true _ ▸ hverify, hstat, hroot, htree, hfinal⟩, hempty⟩
                intro file hfile hdirectory
                have hapart := hlaid.nodup
                rw [List.nodup_append] at hapart
                exact hapart.2.2 file.path (List.mem_map_of_mem hfile) file.path hdirectory rfl
      · rintro ⟨hfills, -⟩
        have hderr : first.err = none := by
          refine createDirectories_none h hfills.eachDirectory nodup_profileDirectories ?_ ?_
          · exact fun d hd => hnew d (mem_profileDirectories.mp hd).1
          · intro before d after hsplit
            have hmem : d ∈ profileDirectories files := by
              rw [hsplit]
              exact List.mem_append_right _ List.mem_cons_self
            obtain ⟨top, rest, rfl⟩ := List.exists_cons_of_ne_nil (mem_profileDirectories.mp hmem).1
            rcases parent_before hsplit with hroot | hbefore
            · left
              rw [List.dropLast_cons_cons, hroot]
              exact hhouse
            · exact .inr ⟨_, hbefore, rfl⟩
        have hferr : second.err = none := by
          obtain ⟨hcreated, hkinds, -⟩ := hdsdone hderr
          have hentries := hds.grown.entries
          rw [← List.append_assoc, ← h.entries] at hentries
          have hpaths : ds.map Entry.path = (profileDirectories files).map (base :: ·) := by
            rw [hds.paths, hcreated]
          refine createFiles_none hds.grown hfills.eachFile hnodup ?_ ?_
          · intro file hfile
            rw [hentries, List.map_append, List.mem_append, not_or, hpaths]
            refine ⟨hnew file.path (hnamed file hfile), ?_⟩
            intro hmem
            obtain ⟨d, hd, hsame⟩ := List.mem_map.mp hmem
            rw [List.cons.injEq] at hsame
            exact hfills.free file hfile (hsame.2 ▸ hd)
          · intro file hfile
            obtain ⟨top, rest, hfilepath⟩ := List.exists_cons_of_ne_nil (hnamed file hfile)
            have hdrop : (base :: file.path).dropLast = base :: file.path.dropLast := by
              rw [hfilepath]
              rfl
            rw [hdrop, hentries]
            by_cases hroot : file.path.dropLast = []
            · rw [hroot]
              exact houses_append hhouse ds
            · have hmem : file.path.dropLast ∈ profileDirectories files :=
                mem_profileDirectories.mpr ⟨hroot, file, hfile, List.prefix_rfl⟩
              have hpath : base :: file.path.dropLast ∈ ds.map Entry.path :=
                hpaths ▸ List.mem_map_of_mem hmem
              obtain ⟨e, he, hepath⟩ := List.mem_map.mp hpath
              exact houses_iff.mpr (.inr ⟨e, List.mem_append_right _ he, hepath, hkinds e he⟩)
        simp only [hderr, hferr]
        have hverified := ((laid hderr hferr).verify_iff plan hnamed).mpr
          ⟨hfills.stat, hfills.readRoot, hfills.readTree⟩
        rw [checkCreated, hfills.verify, hverified]
        simp only [Bool.false_eq_true, if_false]
        rw [(hmatches hgrown hkept).mpr hfills.final]
        rfl

end Modary.Starter.Layout
