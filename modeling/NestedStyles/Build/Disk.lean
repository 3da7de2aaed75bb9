import NestedStyles.Build.Files
import NestedStyles.Build.Path

/-!
# A disk in memory

A disk holds directories and the texts of files by the names that lead to them from the working
directory. Its operations are those of `Files`, with the errors of a file system.
-/

namespace NestedStyles

/-- Directories and files by the names that lead to them. -/
structure Disk where
  /-- The directories below the working directory. -/
  directories : List (List String)
  /-- The files with their texts. -/
  files : List (List String × String)

namespace Disk

/-- The text of a file. -/
def text? (disk : Disk) (place : List String) : Option String := disk.files.lookup place

/-- A directory stands at a place. The root of the file system, the working directory and those
above it are there. -/
def isDirectory (disk : Disk) (place : List String) : Bool :=
  place == ["/"] || place.all (· == "..") || disk.directories.contains place

/-- A file or a directory stands at a place. -/
def isTaken (disk : Disk) (place : List String) : Bool :=
  disk.isDirectory place || (disk.text? place).isSome

/-- The place that a name leads to from a directory. The directory above the root is the root. -/
def step (place : List String) (name : String) : List String :=
  if name = "." then place
  else if name = ".." then
    if place = ["/"] then place
    else if place.all (· == "..") then place ++ [".."]
    else place.dropLast
  else place ++ [name]

/-- The most bytes of a name. -/
def longestName : Nat := 255

/-- The most bytes of a path. -/
def longestPath : Nat := 4095

/-- The place that names lead to, if every name but the last leads to a directory. -/
def walk (disk : Disk) : (place : List String) → List String → Except FileError (List String)
  | place, [] => .ok place
  | place, name :: rest =>
    if disk.isDirectory place then
      if name.utf8ByteSize ≤ longestName then disk.walk (step place name) rest
      else .error .nameTooLong
    else if (disk.text? place).isSome then .error .notDirectory
    else .error .notFound

/-- Refuses a path that no file or directory can have. -/
def checkPath (path : String) : Except FileError Unit :=
  if path.toList.contains (Char.ofNat 0) then .error .zeroInPath
  else if path = "" then .error .notFound
  else if path.utf8ByteSize ≤ longestPath then .ok ()
  else .error .nameTooLong

/-- Where a path begins. -/
def start (path : String) : List String := if Text.beginsWith "/" path then ["/"] else []

/-- The place of a path. -/
def locate (disk : Disk) (path : String) : Except FileError (List String) := do
  checkPath path
  disk.walk (start path) (Path.steps path)

/-- A path that can only be that of a directory. -/
def endsInSlash (path : String) : Bool := path.toList.getLast? == some '/'

/-- The text of a file. -/
def read (disk : Disk) (path : String) : Except FileError String := do
  let place ← disk.locate path
  if disk.isDirectory place then .error .isDirectory
  else
    match disk.text? place with
    | some text => if endsInSlash path then .error .notDirectory else .ok text
    | none => .error .notFound

/-- The disk with a text at a place. -/
def put (disk : Disk) (place : List String) (text : String) : Disk :=
  { disk with files := (place, text) :: disk.files.filter (·.1 != place) }

/-- The disk after a file is written. -/
def write (disk : Disk) (path text : String) : Except FileError Disk := do
  let place ← disk.locate path
  if disk.isDirectory place || endsInSlash path then .error .isDirectory
  else .ok (disk.put place text)

/-- The disk after a directory is made where names lead to. -/
def make (disk : Disk) (place names : List String) : Except FileError Disk := do
  let found ← disk.walk place names
  if disk.isTaken found then .error .alreadyThere
  else .ok { disk with directories := found :: disk.directories }

/-- The disk after a directory is made where names lead to, unless it is there. -/
def ensure (disk : Disk) (place names : List String) : Except FileError Disk :=
  match disk.make place names with
  | .ok made => .ok made
  | .error error =>
    match disk.walk place names with
    | .ok found => if disk.isDirectory found then .ok disk else .error error
    | .error _ => .error error

/-- The disk after a directory is made where names lead to, and first those above it, unless they
are there. `above` has the names of the directory above, the last name first. -/
def ensureAll (disk : Disk) (place names : List String) :
    (above : List String) → Except FileError Disk
  | [] => disk.ensure place names
  | name :: above =>
    match disk.make place names with
    | .error .notFound => do
      let disk ← disk.ensureAll place (name :: above).reverse above
      disk.ensure place names
    | _ => disk.ensure place names

/-- The disk after a directory and those above it are made. A `.` at the end of the path asks for a
directory that is there. -/
def makeDirectories (disk : Disk) (path : String) : Except FileError Disk := do
  checkPath path
  disk.ensureAll (start path) (Path.steps path) ((Path.names path).reverse.drop 1)

/-- The disk that holds the given files and the directories that lead to them. -/
def ofFiles (files : List (String × String)) : Disk :=
  files.foldl (fun disk (path, text) =>
    let names := Path.names path
    match disk.ensureAll [] names.dropLast (names.reverse.drop 2) with
    | .ok disk => disk.put names text
    | .error _ => disk) ⟨[], []⟩

/-- A place in the working directory or below it. -/
def isWithin (place : List String) : Bool := place.head? != some ".." && place.head? != some "/"

/-- The files in the working directory that are new or have another text than before, in the order
of their paths. -/
def changes (before after : Disk) : List (String × String) :=
  let changed := after.files.filter fun (place, text) =>
    isWithin place && before.text? place != some text
  (changed.map fun (place, text) => ("/".intercalate place, text)).mergeSort
    fun a b => !decide (b.1 < a.1)

/-- A change of the disk, or an error that leaves it as it is. -/
def change (operation : Disk → Except FileError Disk) : StateM Disk (Except FileError Unit) :=
  fun disk =>
    match operation disk with
    | .ok disk => (.ok (), disk)
    | .error error => (.error error, disk)

/-- The operations on a disk as those of a build. -/
def operations : Files (StateM Disk) where
  read path := fun disk => (disk.read path, disk)
  write path text := change (·.write path text)
  makeDirectories path := change (·.makeDirectories path)

end Disk

end NestedStyles
