import RootedC.Command.Host
import RootedC.Command.Path

/-!
A tree of files in memory and the rules by which paths lead through it. A path starts at the root or
at the working directory, and every name on its way, a dot too, is looked up in a directory.
-/
namespace RootedC.Command

inductive Entry where
  | file (content : ByteArray)
  | directory
  /-- Reads as empty and forgets what is written to it. -/
  | sink

/-- Files and directories by their names from the root, which always exists. -/
structure FileTree where
  entries : List (List String × Entry)

namespace FileTree

/-- The place of the working directory. Its own name is empty, so that no path leads to it by
name. -/
def home : List String := ["tmp", ""]

/-- The names that a machine has below its root. -/
def systemDirectories : List String :=
  ["bin", "boot", "dev", "etc", "home", "lib", "media", "mnt", "opt", "proc", "root", "run", "sbin",
    "srv", "sys", "tmp", "usr", "var"]

/-- A tree with an empty working directory. -/
def initial : FileTree :=
  ⟨systemDirectories.map (fun name => ([name], .directory)) ++
    [(["dev", "null"], .sink), (home, .directory)]⟩

def get? (t : FileTree) : List String → Option Entry
  | [] => some .directory
  | place => t.entries.lookup place

def put (t : FileTree) (place : List String) (e : Entry) : FileTree :=
  ⟨(place, e) :: t.entries.filter (·.1 ≠ place)⟩

/-- The longest name that a directory can hold, in bytes. -/
def nameLimit : Nat := 255

/-- The longest path that is followed, in bytes. -/
def pathLimit : Nat := 4095

/-- Looks up a name in a directory. What it leads to need not exist. -/
def step (t : FileTree) (place : List String) (name : String) : Except HostError (List String) :=
  match t.get? place with
  | none => .error .notFound
  | some .directory =>
    if name = "." then .ok place
    else if name = ".." then .ok place.dropLast
    else if nameLimit < name.utf8ByteSize then .error .nameTooLong
    else .ok (place ++ [name])
  | some _ => .error .notDirectory

/-- Looks up names one in the other. -/
def walk (t : FileTree) (place : List String) : List String → Except HostError (List String)
  | [] => .ok place
  | name :: more => do walk t (← t.step place name) more

/-- Where a path starts. -/
def start (path : String) : List String := if Path.isAbsolute path then [] else home

/-- Looks up some names of a path from where it starts. The empty path leads nowhere. -/
def follow (t : FileTree) (path : String) (names : List String) : Except HostError (List String) :=
  if path = "" then .error .notFound
  else if pathLimit < path.utf8ByteSize then .error .nameTooLong
  else t.walk (start path) names

/-- The entry that a path leads to. Only a directory can be named with a slash at the end. -/
def find (t : FileTree) (path : String) : Except HostError Entry := do
  match t.get? (← t.follow path (Path.names path)) with
  | none => .error .notFound
  | some .directory => .ok .directory
  | some e => if Path.endsInSlash path then .error .notDirectory else .ok e

def readText (t : FileTree) (path : String) : Except HostError String := do
  match ← t.find path with
  | .directory => .error .isDirectory
  | .sink => .ok ""
  | .file content =>
    match String.fromUTF8? content with
    | some text => .ok text
    | none => .error .invalidText

/-- Writes a file, which may be new in its directory. With a slash at the end of the path the last
name is taken for a directory without being looked up. -/
def writeText (t : FileTree) (path text : String) : Except HostError FileTree := do
  if Path.endsInSlash path then
    let _ ← t.follow path ((Path.names path).dropLast ++ ["."])
    .error .isDirectory
  else
    let place ← t.follow path (Path.names path)
    match t.get? place with
    | some .directory => .error .isDirectory
    | some .sink => .ok t
    | _ => .ok (t.put place (.file text.toUTF8))

/-- Makes a directory and those around it, below a place. -/
def makeAll (t : FileTree) (place : List String) : List String → Except HostError FileTree
  | [] => .ok t
  | name :: more =>
    match t.get? (place ++ [name]) with
    | some .directory => makeAll t (place ++ [name]) more
    | some _ => .error (if more = [] then .alreadyExists else .notDirectory)
    | none => makeAll (t.put (place ++ [name]) .directory) (place ++ [name]) more

def makeDirectory (t : FileTree) (path : String) : Except HostError FileTree :=
  t.makeAll (start path) (Path.steps path)

/-- Puts a file where a path leads, with the directories around it. -/
def addFile (t : FileTree) (path : String) (content : ByteArray) : FileTree :=
  let steps := Path.steps path
  let inside := match t.makeAll (start path) steps.dropLast with
    | .ok t => t
    | .error _ => t
  inside.put (start path ++ steps) (.file content)

end FileTree

end RootedC.Command
