import Mathlib.Data.List.Dedup
import Mathlib.Data.List.Lex
import Mathlib.Data.Prod.Lex
import Mathlib.Data.String.Basic
import Modary.Lib.FileTree
import Modary.Lib.Sorting

/-! # Writing a project

`writeProject` of the starter: a destination is created or found empty, filled with the rendered
files and the directories they need, and emptied again when something fails. Every file-system
operation may fail, and the context may be cancelled wherever the source looks at it. -/

namespace Modary.Starter.Write

open Modary.Lib.FileTree Modary.Lib.Sorting

/-! ### The operations -/

/-- `renderedFile`. -/
structure RenderedFile where
  path : Path
  data : List UInt8
  deriving DecidableEq, Repr

/-- The operations of a run. Paths are those below the destination; each operation is done once at
most. -/
inductive Site
  | openParent
  | lstatDestination
  | mkdirDestination
  | lstatCreated
  | openRoot
  | statRoot
  | readDestination
  | mkdir (path : Path)
  | openFile (path : Path)
  | write (path : Path)
  | closeFile (path : Path)
  | statTree
  | readTree (path : Path)
  | lstatFinal
  | remove (path : Path)
  | lstatCleanup
  | removeDestination
  | closeRoot
  | closeParent
  deriving DecidableEq, Repr

/-- Where `ctx.Err` is looked at. -/
inductive Check
  | directory (path : Path)
  | file (path : Path)
  | verify
  deriving DecidableEq, Repr

/-- Which operations fail, what a failing write has written, and where the context is cancelled. -/
structure Plan where
  fails : Site → Bool
  written : Path → ℕ
  cancelled : Check → Bool

inductive Err
  | failed (message : String)
  | cancelled
  | unsafeDestination (detail : String)
  | destinationNotEmpty (detail : String)
  | unexpectedPaths (expected found : ℕ)
  deriving DecidableEq, Repr

/-- The parent directory, the next identity of an entry, and everything the parent directory has
held. -/
structure World where
  entries : List Entry
  fresh : ℕ
  history : List (List Entry)

def World.start (entries : List Entry) : World where
  entries := entries
  fresh := (entries.map Entry.id).foldr max 0 + 1
  history := [entries]

def World.hold (w : World) (entries : List Entry) : World :=
  { w with entries := entries, history := entries :: w.history }

/-- `Mkdir`, and `OpenFile` with `O_CREATE|O_EXCL`. -/
def World.make (w : World) (path : Path) (kind : Kind) : Option World :=
  (create w.entries ⟨path, w.fresh, kind⟩).map fun entries =>
    { w.hold entries with fresh := w.fresh + 1 }

def World.write (w : World) (path : Path) (data : List UInt8) : World :=
  w.hold (store w.entries path data)

/-- `Remove` with its error dropped. -/
def World.tryRemove (w : World) (fails : Bool) (path : Path) : World :=
  if fails then w else ((remove w.entries path).map w.hold).getD w

/-! ### The code -/

/-- The loop of `profileDirectories` over the parents of a path. -/
def parentsLoop : ℕ → Path → List Path
  | 0, _ => []
  | n + 1, directory =>
    if directory = [] then [] else directory :: parentsLoop n directory.dropLast

def slash (path : Path) : String := "/".intercalate path

/-- `profileDirectories`: without repetition, in the order of depth and then of text. -/
def profileDirectories (files : List RenderedFile) : List Path :=
  sortOn (fun directory => toLex (directory.length, slash directory))
    (files.flatMap fun file => parentsLoop file.path.length file.path.dropLast).dedup

/-- What a loop over paths has done: the paths created and the error it ended with. -/
structure Progress where
  world : World
  created : List Path
  err : Option Err

/-- The loop of `writeProject` over the directories. -/
def createDirectories (plan : Plan) (base : String) : List Path → World → Progress
  | [], w => ⟨w, [], none⟩
  | directory :: rest, w =>
    if plan.cancelled (.directory directory) then ⟨w, [], some .cancelled⟩
    else if plan.fails (.mkdir directory) then
      ⟨w, [], some (.failed ("create project directory " ++ slash directory))⟩
    else
      match w.make (base :: directory) .directory with
      | none => ⟨w, [], some (.failed ("create project directory " ++ slash directory))⟩
      | some w =>
        let progress := createDirectories plan base rest w
        { progress with created := directory :: progress.created }

/-- The loop of `writeProject` over the files. -/
def createFiles (plan : Plan) (base : String) : List RenderedFile → World → Progress
  | [], w => ⟨w, [], none⟩
  | file :: rest, w =>
    if plan.cancelled (.file file.path) then ⟨w, [], some .cancelled⟩
    else if plan.fails (.openFile file.path) then
      ⟨w, [], some (.failed ("create project file " ++ slash file.path))⟩
    else
      match w.make (base :: file.path) (.file []) with
      | none => ⟨w, [], some (.failed ("create project file " ++ slash file.path))⟩
      | some w =>
        if plan.fails (.write file.path) then
          ⟨w.write (base :: file.path) (file.data.take (plan.written file.path)), [file.path],
            some (.failed ("write project file " ++ slash file.path))⟩
        else if plan.fails (.closeFile file.path) then
          ⟨w.write (base :: file.path) file.data, [file.path],
            some (.failed ("close project file " ++ slash file.path))⟩
        else
          let progress := createFiles plan base rest (w.write (base :: file.path) file.data)
          { progress with created := file.path :: progress.created }

/-- `destinationMatches`, with the operation it looks with. -/
def destinationMatches (plan : Plan) (site : Site) (base : String) (identity : Entry) (w : World) :
    Bool :=
  !plan.fails site &&
    (lookup w.entries [base]).any fun current =>
      current.kind == .directory && current.id == identity.id

/-- What is below the destination, in the order of `fs.WalkDir`. -/
def tree (base : String) (entries : List Entry) : List Entry :=
  sortOn Entry.path (entries.filter fun e => e.path.head? == some base && e.path != [base])

local instance lawfulPath : LawfulBEq Path := inferInstanceAs (LawfulBEq (List String))

/-- The walk of `verifyCreatedTree` behind the root of the tree: the paths seen. -/
def walkTree (plan : Plan) (expected : List Path) : ℕ → List Entry → Except Err ℕ
  | seen, [] => .ok seen
  | seen, e :: rest =>
    if e.kind = .symlink then
      .error (.unsafeDestination ("destination contains symlink " ++ slash e.path.tail))
    else if e.path.tail ∉ expected then
      .error (.destinationNotEmpty "destination changed during creation")
    else if e.kind == .directory && plan.fails (.readTree e.path.tail) then
      .error (.failed "read directory")
    else walkTree plan expected (seen + 1) rest

def verifyCreatedTree (plan : Plan) (base : String) (files : List RenderedFile)
    (directories : List Path) (w : World) : Option Err :=
  if plan.fails .statTree || plan.fails (.readTree []) then some (.failed "read directory")
  else
    match walkTree plan (files.map RenderedFile.path ++ directories) 0 (tree base w.entries) with
    | .error err => some err
    | .ok seen =>
      if seen ≠ (files.map RenderedFile.path ++ directories).dedup.length then
        some (.unexpectedPaths (files.map RenderedFile.path ++ directories).dedup.length seen)
      else none

/-- The end of `writeProject`, before `committed` is set. -/
def checkCreated (plan : Plan) (base : String) (files : List RenderedFile) (rootInfo : Entry)
    (w : World) : Option Err :=
  if plan.cancelled .verify then some .cancelled
  else
    match verifyCreatedTree plan base files (profileDirectories files) w with
    | some err => some err
    | none =>
      if !destinationMatches plan .lstatFinal base rootInfo w then
        some (.unsafeDestination "destination changed during creation")
      else none

/-- What the deferred clean-up knows of: the directories and the files created. -/
structure Filled where
  world : World
  directories : List Path
  files : List Path
  err : Option Err

/-- `writeProject` from the reading of the destination to the setting of `committed`. -/
def fill (plan : Plan) (base : String) (files : List RenderedFile) (rootInfo : Entry) (w : World) :
    Filled :=
  if plan.fails .readDestination then ⟨w, [], [], some (.failed "read destination")⟩
  else if w.entries.any (fun e => e.path.dropLast == [base]) then
    ⟨w, [], [], some (.destinationNotEmpty base)⟩
  else
    let made := createDirectories plan base (profileDirectories files) w
    match made.err with
    | some err => ⟨made.world, made.created, [], some err⟩
    | none =>
      let written := createFiles plan base files made.world
      match written.err with
      | some err => ⟨written.world, made.created, written.created, some err⟩
      | none =>
        ⟨written.world, made.created, written.created,
          checkCreated plan base files rootInfo written.world⟩

/-- The destination is removed if it was created and is still the same. -/
def removeCreated (plan : Plan) (base : String) (createdDestination : Bool) (identity : Entry)
    (w : World) : World :=
  if createdDestination && destinationMatches plan .lstatCleanup base identity w then
    w.tryRemove (plan.fails .removeDestination) [base]
  else w

/-- Removes paths, the last one first. -/
def removePaths (plan : Plan) (base : String) (paths : List Path) (w : World) : World :=
  paths.foldr (fun path w => w.tryRemove (plan.fails (.remove path)) (base :: path)) w

/-- The deferred clean-up. -/
def cleanUp (plan : Plan) (base : String) (createdDestination : Bool) (rootInfo : Entry)
    (filled : Filled) : World :=
  removeCreated plan base createdDestination rootInfo
    (removePaths plan base filled.directories (removePaths plan base filled.files filled.world))

/-- The error of a deferred `Close`. -/
def closed (fails : Bool) : List Err := if fails then [.failed "close"] else []

/-- `writeProject` with the information on its destination. -/
def inDestination (plan : Plan) (base : String) (files : List RenderedFile)
    (createdDestination : Bool) (info : Entry) (w : World) : World × List Err :=
  if plan.fails .openRoot then
    (removeCreated plan base createdDestination info w, [.failed "open destination"])
  else
    match lookup w.entries [base] with
    | none => (w, [.failed "open destination"])
    | some rootInfo =>
      if plan.fails .statRoot || info.id != rootInfo.id then
        (removeCreated plan base createdDestination info w,
          [.unsafeDestination "destination changed while opening"])
      else
        let filled := fill plan base files rootInfo w
        match filled.err with
        | none => (filled.world, closed (plan.fails .closeRoot))
        | some err =>
          (cleanUp plan base createdDestination rootInfo filled,
            err :: closed (plan.fails .closeRoot))

/-- `writeProject` with its parent opened. -/
def inParent (plan : Plan) (base : String) (files : List RenderedFile) (w : World) :
    World × List Err :=
  if plan.fails .lstatDestination then (w, [.failed "inspect destination"])
  else
    match lookup w.entries [base] with
    | none =>
      if plan.fails .mkdirDestination then (w, [.failed "create destination"])
      else
        match w.make [base] .directory with
        | none => (w, [.failed "create destination"])
        | some w =>
          if plan.fails .lstatCreated then (w, [.failed "inspect created destination"])
          else
            match lookup w.entries [base] with
            | none => (w, [.failed "inspect created destination"])
            | some info => inDestination plan base files true info w
    | some info =>
      if info.kind != .directory then (w, [.unsafeDestination base])
      else inDestination plan base files false info w

/-- `writeProject`: the world behind it, and the errors joined into the one it returns. -/
def writeProject (plan : Plan) (base : String) (files : List RenderedFile) (w : World) :
    World × List Err :=
  if plan.fails .openParent then (w, [.failed "open destination parent"])
  else
    let result := inParent plan base files w
    (result.1, result.2 ++ closed (plan.fails .closeParent))

end Modary.Starter.Write
