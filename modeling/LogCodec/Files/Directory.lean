import LogCodec.Files.Basic

/-! # Directories

    A directory is a tree of folders and files, given as what stands at each
    place.  A place is the list of the names that lead to it from the top.
    Paths may lead outside of the directory; there nothing is found.

    - `Directory.ofFiles`: the directory that holds some files.
    - `Directory.read`, `Directory.create` and `Directory.write`: the operations
      on the file that a path leads to.
    - `Directory.files`: the operations on a directory as a state. -/

namespace LogCodec

/-- What stands at a place. -/
inductive Directory.Node where
  | folder
  | file (data : Bytes)
deriving DecidableEq

/-- What stands at each place. -/
structure Directory where
  node? : List String → Option Directory.Node

namespace Directory

/-! ### Places -/

/-- The directory that holds nothing. -/
def empty : Directory := ⟨fun place => if place = [] then some .folder else none⟩

/-- Puts something at a place. -/
def put (d : Directory) (place : List String) (node : Node) : Directory :=
  ⟨fun other => if other = place then some node else d.node? other⟩

@[simp] theorem node?_put_self (d : Directory) (place : List String) (node : Node) :
    (d.put place node).node? place = some node := by simp [put]

@[simp] theorem node?_put_of_ne {d : Directory} {place other : List String} {node : Node}
    (h : other ≠ place) : (d.put place node).node? other = d.node? other := by simp [put, h]

/-- Adds a file and the folders above it. -/
def addFile (d : Directory) (name : String) (data : Bytes) : Directory :=
  let place := Path.parts name
  let folders := (List.range place.length).map place.take
  (folders.foldl (fun d folder => d.put folder .folder) d).put place (.file data)

/-- The directory that holds files with these names. -/
def ofFiles (files : List (String × Bytes)) : Directory :=
  files.foldl (fun d (name, data) => d.addFile name data) empty

/-- The data of the file with this name. -/
def file? (d : Directory) (name : String) : Option Bytes :=
  match d.node? (Path.parts name) with
  | some (.file data) => some data
  | _ => none

/-! ### Following paths -/

/-- Where a path has led so far. -/
inductive Position where
  | inside (place : List String)
  /-- A folder of which nothing is known. -/
  | outside
deriving DecidableEq

/-- What stands at a position. -/
def nodeAt? (d : Directory) : Position → Option Node
  | .inside place => d.node? place
  | .outside => some .folder

/-- The most bytes of a name. -/
def nameMax : Nat := 255

/-- The most bytes of a path. -/
def pathMax : Nat := 4095

/-- Follows one part of a path, which must start at a folder.  An empty part
    stays there. -/
def enter (d : Directory) (position : Position) (part : String) : Except FileFault Position :=
  match d.nodeAt? position with
  | none => .error .notFound
  | some (.file _) => .error .notAFolder
  | some .folder =>
    if nameMax < part.utf8ByteSize then .error .nameTooLong
    else
      match part, position with
      | "", _ | ".", _ => .ok position
      | "..", .inside (name :: place) => .ok (.inside (name :: place).dropLast)
      | "..", _ => .ok .outside
      | _, .inside place => .ok (.inside (place ++ [part]))
      | _, .outside => .error .notFound

/-- Follows the parts of a path. -/
def follow (d : Directory) (path : String) (parts : List String) : Except FileFault Position :=
  if path = "" then .error .notFound
  else if pathMax < path.utf8ByteSize then .error .nameTooLong
  else parts.foldlM d.enter (if path.startsWith "/" then .outside else .inside [])

/-! ### Operations -/

/-- Opens the file that a path leads to and reads it.  A folder can be opened but
    not read. -/
def read (d : Directory) (path : String) : Except FileFault Contents :=
  match d.follow path (Path.parts path) with
  | .error fault => .error fault
  | .ok position =>
    match d.nodeAt? position with
    | none => .error .notFound
    | some .folder => .ok ⟨[], some FileFault.isAFolder.message⟩
    | some (.file data) => .ok (Contents.ofBytes data)

/-- Do two paths lead to the same file? -/
def isSame (d : Directory) (path other : String) : Bool :=
  match d.follow path (Path.parts path), d.follow other (Path.parts other) with
  | .ok (.inside place), .ok (.inside place') =>
    place = place' &&
      match d.node? place with
      | some (.file _) => true
      | _ => false
  | _, _ => false

/-- The place for a new file.  A path that ends in `/` can only be a folder,
    whatever its last name is. -/
def placeFor (d : Directory) (path : String) : Except FileFault (List String) := do
  let parts := Path.parts path
  let named := (parts.reverse.dropWhile (· = "")).reverse
  let folder ← d.follow path named.dropLast
  if named.length < parts.length then
    let _ ← d.enter folder ""
    throw .isAFolder
  let position ← d.enter folder (named.getLast?.getD "")
  match position, d.nodeAt? position with
  | _, some .folder | .outside, _ => throw .isAFolder
  | .inside place, _ => return place

/-- Makes an empty file where a path leads to. -/
def create (d : Directory) (path : String) : Except FileFault Directory :=
  (d.placeFor path).map fun place => d.put place (.file [])

/-- Writes the file that a path leads to. -/
def write (d : Directory) (path : String) (data : Bytes) : Directory :=
  match d.placeFor path with
  | .ok place => d.put place (.file data)
  | .error _ => d

/-- The operations on a directory that is kept as a state, with an input of some
    bytes. -/
def files (input : Bytes) : Files (StateM Directory) where
  standardInput := pure (Contents.ofBytes input)
  read path := do return (← get).read path
  isSame path other := do return (← get).isSame path other
  create path := do
    match (← get).create path with
    | .error fault => return .error fault
    | .ok d => set d; return .ok ()
  write path data := modify fun d => d.write path data

end Directory

end LogCodec
