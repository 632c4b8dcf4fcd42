/-
GrammarDiagram/Command/Files.lean

Files, as far as the command line needs them.

`Disk` is what a command asks of the place where files are kept: what stands
at a path, what a file holds, and to write a file.  `Tree` keeps files in
memory, below one root; commands run on it as they run on a real disk.  A path
that starts with a slash leads from the root, any other one from the home
folder, and no path leads above the root.
-/
import GrammarDiagram.Fault

namespace GrammarDiagram.Command

/-! ### Paths -/

/-- The parts of a path between its slashes. -/
def pathParts (path : String) : List String := (path.toList.splitOn '/').map String.ofList

/-- The slashes at the start of an absolute path: two stay two, any other
number is one. -/
def pathRoot (path : String) : String :=
  let slashes := (path.toList.takeWhile (· == '/')).length
  if slashes == 0 then "" else if slashes == 2 then "//" else "/"

/-- The character that no path may hold. -/
def nullCharacter : Char := '\x00'

/-- A path in its plain form: without empty parts and points, and a point if
nothing is left. -/
def plainPath (path : String) : String :=
  let parts := (pathParts path).filter fun p => p != "" && p != "."
  let plain := pathRoot path ++ String.intercalate "/" parts
  if plain == "" then "." else plain

/-- The path of a file in a folder, both in plain form. -/
def within (folder name : String) : String :=
  if folder == "." then name
  else if folder == "/" || folder == "//" then folder ++ name
  else folder ++ "/" ++ name

/-! ### What commands ask for -/

/-- What stands at a path. -/
inductive Entry where
  | file
  | folder
deriving DecidableEq, Repr

/-- A place where files are kept. -/
class Disk (m : Type → Type) where
  /-- What stands at a path. -/
  inspect : String → m (Except FileFault Entry)
  /-- What a file holds. -/
  read : String → m (Except FileFault (List UInt8))
  /-- Write a text to a file, in place of what it held. -/
  write : String → String → m (Except FileFault Unit)

/-! ### Files in memory -/

/-- A file with its bytes, a folder, or a device.  A device holds nothing, and
what is written to it is gone, provided that it has room. -/
inductive Item where
  | file (bytes : List UInt8)
  | folder
  | device (hasRoom : Bool)
deriving DecidableEq

/-- Files, folders and devices, each with its place: the parts of the path to it
from the root.  The home folder is there whether or not it is listed. -/
structure Tree where
  items : List (List String × Item) := []
  home : List String := []

namespace Tree

/-- The greatest number of bytes in a name. -/
def nameLimit : Nat := 255

/-- The greatest number of bytes in a path. -/
def pathLimit : Nat := 4095

/-- The folders at the root of a system. -/
def rootFolders : List String :=
  ["bin", "boot", "dev", "etc", "home", "lib", "media", "mnt", "opt", "proc", "root", "run", "sbin",
   "srv", "sys", "tmp", "usr", "var"]

/-- The devices of a system, and whether they have room. -/
def devices : List (String × Bool) := [("null", true), ("zero", true), ("full", false)]

/-- A system without any files. -/
def bare (home : List String) : Tree where
  items := rootFolders.map (fun f => ([f], .folder)) ++
    devices.map fun d => (["dev", d.1], .device d.2)
  home := home

/-- Whether a place has to be a folder: the root, the home folder, and whatever
lies above the home folder or above an item. -/
def isAbove (t : Tree) (place : List String) : Bool :=
  place.isEmpty || place.isPrefixOf t.home || t.items.any fun i => place.isPrefixOf i.1

/-- What stands at a place. -/
def at? (t : Tree) (place : List String) : Option Item :=
  match t.items.find? fun i => i.1 == place with
  | some i => some i.2
  | none => if t.isAbove place then some .folder else none

/-- Go from a place along the parts of a path, and return the place that they
lead to.  Every part but the last one has to lead to a folder. -/
def walk (t : Tree) (place : List String) : List String → Except FileFault (List String)
  | [] => .ok place
  | part :: rest =>
    match t.at? place with
    | none => .error .missing
    | some .folder =>
      if part == "" || part == "." then t.walk place rest
      else if part == ".." then t.walk place.dropLast rest
      else if nameLimit < part.utf8ByteSize then .error .nameTooLong
      else t.walk (place ++ [part]) rest
    | some _ => .error .notAFolder

/-- The place that a path names. -/
def resolve (t : Tree) (path : String) : Except FileFault (List String) :=
  if path == "" then .error .missing
  else if path.toList.contains nullCharacter then .error .nullCharacter
  else if pathLimit < path.utf8ByteSize then .error .nameTooLong
  else t.walk (if path.startsWith "/" then [] else t.home) (pathParts path)

/-- What stands at a path. -/
def get (t : Tree) (path : String) : Except FileFault Item := do
  match t.at? (← t.resolve path) with
  | some item => return item
  | none => throw .missing

/-- What a file holds. -/
def bytesOf (t : Tree) (path : String) : Except FileFault (List UInt8) := do
  match ← t.get path with
  | .file bytes => return bytes
  | .folder => throw .isFolder
  | .device _ => return []

/-- Put bytes into a file. -/
def put (t : Tree) (path : String) (bytes : List UInt8) : Except FileFault Tree := do
  let place ← t.resolve path
  match t.at? place with
  | some .folder => throw .isFolder
  | some (.device hasRoom) => if hasRoom then return t else throw .noRoom
  | _ => return { t with items := (t.items.filter fun i => i.1 != place) ++ [(place, .file bytes)] }

end Tree

/-- The bytes of a text. -/
def bytesOfText (s : String) : List UInt8 := s.toUTF8.toList

instance : Disk (StateM Tree) where
  inspect path := do
    return (← get).get path |>.map fun
      | .folder => .folder
      | _ => .file
  read path := do return (← get).bytesOf path
  write path text := do
    match (← get).put path (bytesOfText text) with
    | .ok t =>
      set t
      return .ok ()
    | .error f => return .error f

end GrammarDiagram.Command
