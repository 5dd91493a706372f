import Mathlib.Data.List.Infix
import Modary.Starter.Write

/-! # What the writing of a project makes

The operations of a run keep what was there and put entries on top of it; what the loops over the
directories and the files have made can be removed again in the reverse order. -/

namespace Modary.Starter.Growth

open Modary.Lib.FileTree Modary.Starter.Write

/-! ### What the operations keep -/

/-- The entries of the start are still there, and were all the time. -/
structure Kept (start : List Entry) (w : World) : Prop where
  now : start <+: w.entries
  always : ∀ s ∈ w.history, start <+: s

/-- The world is the start with entries made one after another. -/
structure Grown (start made : List Entry) (w : World) : Prop where
  entries : w.entries = start ++ made
  stack : Stack start made
  always : ∀ s ∈ w.history, start <+: s

variable {plan : Plan} {base : String} {start made : List Entry} {w : World}

theorem Grown.kept (h : Grown start made w) : Kept start w :=
  ⟨h.entries ▸ List.prefix_append start made, h.always⟩

theorem grown_start (h : Sound start) : Grown start [] (World.start start) := by
  refine ⟨(List.append_nil start).symm, .nil h, ?_⟩
  intro s hs
  rw [World.start, List.mem_singleton] at hs
  exact hs ▸ List.prefix_rfl

theorem make_eq_some {w' : World} {path : Path} {kind : Kind} :
    w.make path kind = some w' ↔ path ≠ [] ∧ path ∉ w.entries.map Entry.path ∧
      houses w.entries path.dropLast = true ∧
      w' = { w.hold (w.entries ++ [⟨path, w.fresh, kind⟩]) with fresh := w.fresh + 1 } := by
  rw [World.make, Option.map_eq_some_iff]
  constructor
  · rintro ⟨entries, hcreate, rfl⟩
    obtain ⟨hpath, hfree, hhoused, rfl⟩ := create_eq_some.mp hcreate
    exact ⟨hpath, hfree, hhoused, rfl⟩
  · rintro ⟨hpath, hfree, hhoused, rfl⟩
    exact ⟨_, create_eq_some.mpr ⟨hpath, hfree, hhoused, rfl⟩, rfl⟩

theorem make_of_free {path : Path} (kind : Kind) (hpath : path ≠ [])
    (hfree : path ∉ w.entries.map Entry.path) (hhoused : houses w.entries path.dropLast = true) :
    ∃ w', w.make path kind = some w' ∧ w'.entries = w.entries ++ [⟨path, w.fresh, kind⟩] :=
  ⟨_, make_eq_some.mpr ⟨hpath, hfree, hhoused, rfl⟩, rfl⟩

theorem Grown.hold (h : Grown start made w) {more : List Entry} (hstack : Stack start more) :
    Grown start more (w.hold (start ++ more)) := by
  refine ⟨rfl, hstack, ?_⟩
  intro s hs
  rcases List.mem_cons.mp hs with rfl | hs
  · exact List.prefix_append start more
  · exact h.always s hs

theorem Grown.make (h : Grown start made w) {w' : World} {path : Path} {kind : Kind}
    (hmake : w.make path kind = some w') : Grown start (made ++ [⟨path, w.fresh, kind⟩]) w' := by
  obtain ⟨hpath, hfree, hhoused, rfl⟩ := make_eq_some.mp hmake
  have hcreate : create w.entries ⟨path, w.fresh, kind⟩ =
      some (w.entries ++ [⟨path, w.fresh, kind⟩]) := create_eq_some.mpr ⟨hpath, hfree, hhoused, rfl⟩
  have hsound : Sound w.entries := h.entries ▸ h.stack.sound
  have hstack : Stack start (made ++ [⟨path, w.fresh, kind⟩]) := by
    refine h.stack.snoc ?_
    rw [← h.entries]
    exact hsound.create hcreate
  have hgrown := h.hold hstack
  refine ⟨?_, hstack, ?_⟩
  · show w.entries ++ [⟨path, w.fresh, kind⟩] = _
    rw [h.entries, List.append_assoc]
  · show ∀ s ∈ (w.entries ++ [⟨path, w.fresh, kind⟩]) :: w.history, start <+: s
    rw [h.entries, List.append_assoc]
    exact hgrown.always

theorem Grown.write {e : Entry} (h : Grown start (made ++ [e]) w) (data : List UInt8) :
    Grown start (made ++ [{ e with kind := .file data }]) (w.write e.path data) := by
  have hlast : Sound (start ++ made ++ [e]) := by
    rw [List.append_assoc]
    exact h.stack.sound
  have hstack : Stack start (made ++ [{ e with kind := .file data }]) :=
    h.stack.init.snoc (hlast.change_last h.stack.init.sound)
  have hstore : store w.entries e.path data = start ++ (made ++ [{ e with kind := .file data }]) := by
    rw [h.entries, ← List.append_assoc, hlast.store_last, List.append_assoc]
  rw [World.write, hstore]
  exact h.hold hstack

/-- What was made last is removed again. -/
theorem Grown.remove {e : Entry} (h : Grown start (made ++ [e]) w) :
    Grown start made (w.tryRemove false e.path) := by
  have hlast : Sound (start ++ made ++ [e]) := by
    rw [List.append_assoc]
    exact h.stack.sound
  have hremove : Lib.FileTree.remove w.entries e.path = some (start ++ made) := by
    rw [h.entries, ← List.append_assoc]
    exact hlast.remove_last h.stack.init.sound
  rw [World.tryRemove, if_neg Bool.false_ne_true, hremove]
  exact h.hold h.stack.init

theorem Kept.tryRemove (h : Kept start w) (fails : Bool) {path : Path}
    (hfree : path ∉ start.map Entry.path) : Kept start (w.tryRemove fails path) := by
  rw [World.tryRemove]
  cases fails with
  | true => exact h
  | false =>
    rw [if_neg Bool.false_ne_true]
    cases hremove : remove w.entries path with
    | none => exact h
    | some after =>
      obtain ⟨more, hmore⟩ := h.now
      rw [← hmore] at hremove
      have hafter := remove_keeps hremove hfree
      refine ⟨hafter, ?_⟩
      intro s hs
      rcases List.mem_cons.mp hs with rfl | hs
      · exact hafter
      · exact h.always s hs

theorem Kept.removePaths (h : Kept start w) (plan : Plan) {paths : List Path}
    (hfree : ∀ path ∈ paths, base :: path ∉ start.map Entry.path) :
    Kept start (Write.removePaths plan base paths w) := by
  induction paths with
  | nil => exact h
  | cons path paths ih =>
    have hrest := ih fun p hp => hfree p (List.mem_cons_of_mem path hp)
    exact hrest.tryRemove _ (hfree path List.mem_cons_self)

/-- No removal of a path below the destination fails. -/
def Removes (plan : Plan) : Prop :=
  (∀ path, plan.fails (.remove path) = false) ∧ plan.fails .removeDestination = false

/-- **Undoing**: the paths made last are removed, the last one first. -/
theorem Grown.undo (hremoves : Removes plan) {more : List Entry} {paths : List Path} {w : World}
    (h : Grown start (made ++ more) w) (hpaths : more.map Entry.path = paths.map (base :: ·)) :
    Grown start made (Write.removePaths plan base paths w) := by
  induction more using List.reverseRecOn generalizing paths w with
  | nil =>
    have hnil : paths = [] := by
      rw [List.map_nil, eq_comm, List.map_eq_nil_iff] at hpaths
      exact hpaths
    rw [hnil]
    rwa [List.append_nil] at h
  | append_singleton more e ih =>
    rw [List.map_append, List.map_singleton] at hpaths
    obtain ⟨front, last, rfl, hfront, hlast⟩ := List.map_eq_append_iff.mp hpaths.symm
    obtain ⟨path, rfl, hpath⟩ := List.map_eq_singleton_iff.mp hlast
    rw [Write.removePaths, List.foldr_append]
    rw [← List.append_assoc] at h
    refine ih ?_ hfront.symm
    show Grown start (made ++ more) (w.tryRemove (plan.fails (.remove path)) (base :: path))
    rw [hremoves.1 path, hpath]
    exact h.remove

/-! ### The loops -/

/-- The directory is made where it is its turn. -/
def ClearDirectory (plan : Plan) (directory : Path) : Prop :=
  plan.cancelled (.directory directory) = false ∧ plan.fails (.mkdir directory) = false

def ClearFile (plan : Plan) (path : Path) : Prop :=
  plan.cancelled (.file path) = false ∧ plan.fails (.openFile path) = false ∧
    plan.fails (.write path) = false ∧ plan.fails (.closeFile path) = false

/-- What a loop has made: entries on top of the old ones, at the paths it reports. -/
structure Makes (base : String) (start made more : List Entry) (progress : Progress) : Prop where
  grown : Grown start (made ++ more) progress.world
  paths : more.map Entry.path = progress.created.map (base :: ·)

theorem Makes.none (h : Grown start made w) (err : Option Err) :
    Makes base start made [] ⟨w, [], err⟩ :=
  ⟨by rwa [List.append_nil], rfl⟩

theorem Makes.cons {e : Entry} {path : Path} {more : List Entry} {progress : Progress}
    (h : Makes base start (made ++ [e]) more progress) (he : e.path = base :: path) :
    Makes base start made (e :: more) { progress with created := path :: progress.created } := by
  refine ⟨?_, ?_⟩
  · have hgrown := h.grown
    rwa [List.append_assoc, List.singleton_append] at hgrown
  · rw [List.map_cons, List.map_cons, h.paths, he]

theorem createDirectories_makes (plan : Plan) (base : String) (directories : List Path)
    (h : Grown start made w) :
    ∃ more, Makes base start made more (createDirectories plan base directories w) ∧
      ((createDirectories plan base directories w).err = none →
        (createDirectories plan base directories w).created = directories ∧
        (∀ e ∈ more, e.kind = .directory) ∧ ∀ d ∈ directories, ClearDirectory plan d) := by
  induction directories generalizing made w with
  | nil =>
    refine ⟨[], .none h none, fun _ => ⟨rfl, ?_, ?_⟩⟩
    · exact fun e he => absurd he List.not_mem_nil
    · exact fun d hd => absurd hd List.not_mem_nil
  | cons d ds ih =>
    rw [createDirectories]
    by_cases hcancelled : plan.cancelled (.directory d) = true
    · rw [if_pos hcancelled]
      exact ⟨[], .none h _, fun herr => nomatch herr⟩
    · rw [if_neg hcancelled]
      by_cases hfails : plan.fails (.mkdir d) = true
      · rw [if_pos hfails]
        exact ⟨[], .none h _, fun herr => nomatch herr⟩
      · rw [if_neg hfails]
        cases hmake : w.make (base :: d) .directory with
        | none => exact ⟨[], .none h _, fun herr => nomatch herr⟩
        | some w' =>
          obtain ⟨more, hmakes, hdone⟩ := ih (h.make hmake)
          refine ⟨_, hmakes.cons rfl, ?_⟩
          intro herr
          obtain ⟨hcreated, hkinds, hclear⟩ := hdone herr
          refine ⟨congrArg (d :: ·) hcreated, ?_, ?_⟩
          · intro e he
            rcases List.mem_cons.mp he with rfl | he
            · rfl
            · exact hkinds e he
          · intro p hp
            rcases List.mem_cons.mp hp with rfl | hp
            · exact ⟨Bool.not_eq_true _ ▸ hcancelled, Bool.not_eq_true _ ▸ hfails⟩
            · exact hclear p hp

theorem createFiles_makes (plan : Plan) (base : String) (files : List RenderedFile)
    (h : Grown start made w) :
    ∃ more, Makes base start made more (createFiles plan base files w) ∧
      ((createFiles plan base files w).err = none →
        more.map (fun e => (e.path, e.kind)) =
          files.map (fun file => (base :: file.path, Kind.file file.data)) ∧
        ∀ file ∈ files, ClearFile plan file.path) := by
  induction files generalizing made w with
  | nil =>
    refine ⟨[], .none h none, fun _ => ⟨rfl, ?_⟩⟩
    exact fun file hfile => absurd hfile List.not_mem_nil
  | cons file files ih =>
    rw [createFiles]
    by_cases hcancelled : plan.cancelled (.file file.path) = true
    · rw [if_pos hcancelled]
      exact ⟨[], .none h _, fun herr => nomatch herr⟩
    · rw [if_neg hcancelled]
      by_cases hopen : plan.fails (.openFile file.path) = true
      · rw [if_pos hopen]
        exact ⟨[], .none h _, fun herr => nomatch herr⟩
      · rw [if_neg hopen]
        cases hmake : w.make (base :: file.path) (.file []) with
        | none => exact ⟨[], .none h _, fun herr => nomatch herr⟩
        | some w' =>
          have hopened := h.make hmake
          -- whatever was written, the file is the one entry made
          have hone : ∀ (data : List UInt8) (err : Err), ∃ more, Makes base start made more
              ⟨w'.write (base :: file.path) data, [file.path], some err⟩ := by
            intro data err
            exact ⟨_, hopened.write data, rfl⟩
          simp only
          by_cases hwrite : plan.fails (.write file.path) = true
          · rw [if_pos hwrite]
            obtain ⟨more, hmakes⟩ := hone (file.data.take (plan.written file.path))
              (.failed ("write project file " ++ slash file.path))
            exact ⟨more, hmakes, fun herr => nomatch herr⟩
          · rw [if_neg hwrite]
            by_cases hclose : plan.fails (.closeFile file.path) = true
            · rw [if_pos hclose]
              obtain ⟨more, hmakes⟩ := hone file.data
                (.failed ("close project file " ++ slash file.path))
              exact ⟨more, hmakes, fun herr => nomatch herr⟩
            · rw [if_neg hclose]
              obtain ⟨more, hmakes, hdone⟩ := ih (hopened.write file.data)
              refine ⟨_, hmakes.cons rfl, ?_⟩
              intro herr
              obtain ⟨hkinds, hclear⟩ := hdone herr
              refine ⟨?_, ?_⟩
              · rw [List.map_cons, List.map_cons, hkinds]
              · intro other hother
                rcases List.mem_cons.mp hother with rfl | hother
                · exact ⟨Bool.not_eq_true _ ▸ hcancelled, Bool.not_eq_true _ ▸ hopen,
                    Bool.not_eq_true _ ▸ hwrite, Bool.not_eq_true _ ▸ hclose⟩
                · exact hclear other hother

/-- The directories can all be made: each is new and inside one made before. -/
theorem createDirectories_none {directories : List Path} (h : Grown start made w)
    (hclear : ∀ d ∈ directories, ClearDirectory plan d) (hnodup : directories.Nodup)
    (hfree : ∀ d ∈ directories, base :: d ∉ w.entries.map Entry.path)
    (hparent : ∀ before d after, directories = before ++ d :: after →
      houses w.entries (base :: d).dropLast = true ∨ ∃ p ∈ before, base :: p = (base :: d).dropLast) :
    (createDirectories plan base directories w).err = none := by
  induction directories generalizing made w with
  | nil => rfl
  | cons d ds ih =>
    obtain ⟨hcancelled, hfails⟩ := hclear d List.mem_cons_self
    have hhoused : houses w.entries (base :: d).dropLast = true := by
      rcases hparent [] d ds rfl with h | ⟨p, hp, -⟩
      · exact h
      · exact absurd hp List.not_mem_nil
    obtain ⟨w', hmake, hentries⟩ := make_of_free .directory (List.cons_ne_nil base d)
      (hfree d List.mem_cons_self) hhoused
    rw [createDirectories, hcancelled, hfails, hmake]
    refine ih (h.make hmake) (fun p hp => hclear p (List.mem_cons_of_mem d hp)) hnodup.of_cons ?_ ?_
    · intro p hp
      rw [hentries, List.map_append, List.mem_append, not_or]
      refine ⟨hfree p (List.mem_cons_of_mem d hp), ?_⟩
      rw [List.map_singleton, List.mem_singleton, List.cons.injEq, not_and]
      rintro - rfl
      exact (List.nodup_cons.mp hnodup).1 hp
    · intro before p after hsplit
      rw [hentries]
      rcases hparent (d :: before) p after (by rw [hsplit]; rfl) with hhoused | ⟨q, hq, hqd⟩
      · exact .inl (houses_append hhoused _)
      · rcases List.mem_cons.mp hq with rfl | hq
        · left
          rw [houses_iff, ← hqd]
          exact .inr ⟨_, List.mem_append_right _ List.mem_cons_self, rfl, rfl⟩
        · exact .inr ⟨q, hq, hqd⟩

/-- The files can all be made: each is new and inside a directory. -/
theorem createFiles_none {files : List RenderedFile} (h : Grown start made w)
    (hclear : ∀ file ∈ files, ClearFile plan file.path)
    (hnodup : (files.map RenderedFile.path).Nodup)
    (hfree : ∀ file ∈ files, base :: file.path ∉ w.entries.map Entry.path)
    (hparent : ∀ file ∈ files, houses w.entries (base :: file.path).dropLast = true) :
    (createFiles plan base files w).err = none := by
  induction files generalizing made w with
  | nil => rfl
  | cons file files ih =>
    obtain ⟨hcancelled, hopen, hwrite, hclose⟩ := hclear file List.mem_cons_self
    obtain ⟨w', hmake, -⟩ := make_of_free (.file []) (List.cons_ne_nil base file.path)
      (hfree file List.mem_cons_self) (hparent file List.mem_cons_self)
    have hwritten := (h.make hmake).write file.data
    have hentries := hwritten.entries
    rw [← List.append_assoc, ← h.entries] at hentries
    rw [createFiles, hcancelled, hopen, hmake]
    simp only [Bool.false_eq_true, if_false, hwrite, hclose]
    refine ih hwritten (fun other hother => hclear other (List.mem_cons_of_mem file hother))
      (by rw [List.map_cons] at hnodup; exact hnodup.of_cons) ?_ ?_
    · intro other hother
      rw [hentries, List.map_append, List.mem_append, not_or]
      refine ⟨hfree other (List.mem_cons_of_mem file hother), ?_⟩
      rw [List.map_singleton, List.mem_singleton, List.cons.injEq, not_and]
      rintro - hsame
      rw [List.map_cons, List.nodup_cons] at hnodup
      exact hnodup.1 (hsame ▸ List.mem_map_of_mem hother)
    · intro other hother
      rw [hentries]
      exact houses_append (hparent other (List.mem_cons_of_mem file hother)) _

end Modary.Starter.Growth
