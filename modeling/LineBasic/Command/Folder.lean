import LineBasic.Input
import LineBasic.Text.Utf8

/-!
# Working folders

The files that a command finds, as values: the working folder holds named texts and nothing
below it. A path is followed name by name. Every name but the last has to lead to a folder, so
`a/.` asks more of `a` than `a/` does: the first passes through `a`, the second only ends in it.

Outside the working folder only the null device is known. Nothing else is found there, and what
is written there is out of sight. A folder can be opened for reading, but the first read fails.
-/

namespace LineBasic.Command

/-- Why a path cannot be used. -/
inductive PathFault where
  | missing
  | notFolder
  | isFolder
  | tooLong
  deriving DecidableEq, Repr

/-- The text of a fault, as the system gives it. -/
def PathFault.text : PathFault → String
  | missing => "No such file or directory (os error 2)"
  | notFolder => "Not a directory (os error 20)"
  | isFolder => "Is a directory (os error 21)"
  | tooLong => "File name too long (os error 36)"

/-- The most bytes that a name may have. -/
def nameLimit : Nat := 255

/-- The most bytes that a path may have. -/
def pathLimit : Nat := 4095

/-- A folder that a path can pass through. -/
inductive Station where
  /-- The working folder. -/
  | working
  /-- A folder above the working folder. -/
  | above
  /-- The folder that absolute paths start from. -/
  | root
  /-- The folder of the devices. -/
  | devices
  deriving DecidableEq, Repr

/-- The folder that holds a folder. The root holds itself. -/
def Station.parent : Station → Station
  | working => above
  | above => above
  | root => root
  | devices => root

/-- What a name in a folder stands for. -/
inductive Entry where
  /-- A file with its text. -/
  | text (content : String)
  /-- A folder. -/
  | folder (station : Station)
  /-- The device that is always empty and drops what is written to it. -/
  | null
  deriving DecidableEq, Repr

/-- Where a path leads. -/
inductive Place where
  /-- To a folder that was passed through or needs no name. -/
  | folder
  /-- To a name in a folder, with a slash after it or without. -/
  | name (station : Station) (name : String) (slash : Bool)
  deriving DecidableEq, Repr

/-- The texts between the slashes of a path, the empty ones too. -/
def segments : List Char → List (List Char)
  | [] => [[]]
  | c :: rest =>
    if c = '/' then [] :: segments rest
    else match segments rest with
      | [] => [[c]]
      | segment :: others => (c :: segment) :: others

/-- The files of a folder. -/
structure Folder where
  /-- The names and texts of the files. -/
  files : List (String × String)
  deriving DecidableEq, Repr

namespace Folder

/-- The text of a file. -/
def text? (folder : Folder) (name : String) : Option String :=
  folder.files.lookup name

/-- What a name stands for. -/
def entry? (folder : Folder) : Station → String → Option Entry
  | .working, name => (folder.text? name).map .text
  | .above, _ => none
  | .root, name => if name = "dev" then some (.folder .devices) else none
  | .devices, name => if name = "null" then some .null else none

/-- Looks a name up. -/
def find (folder : Folder) (station : Station) (name : String) : Except PathFault Entry :=
  if nameLimit < (Utf8.encode name).length then .error .tooLong
  else match folder.entry? station name with
    | some entry => .ok entry
    | none => .error .missing

/-- Passes through a name. One dot stays in the folder and two dots leave it. -/
def enter (folder : Folder) (station : Station) (name : String) : Except PathFault Station :=
  if name = "." then .ok station
  else if name = ".." then .ok station.parent
  else do
    match ← folder.find station name with
    | .folder inner => .ok inner
    | .text _ => .error .notFolder
    | .null => .error .notFolder

/-- Follows a path up to its last name. -/
def place (folder : Folder) (path : String) : Except PathFault Place :=
  if pathLimit < (Utf8.encode path).length then .error .tooLong
  else
    let parts := segments path.toList
    let names := (parts.filter (· ≠ [])).map String.ofList
    let start := if path.toList.head? = some '/' then Station.root else .working
    match names.getLast? with
    | none => if path = "" then .error .missing else .ok .folder
    | some last => do
      let station ← names.dropLast.foldlM folder.enter start
      if last = "." ∨ last = ".." then return .folder
      return .name station last (parts.getLast? = some [])

/-- What is read from a path. A slash after a name asks for a folder. -/
def read (folder : Folder) (path : String) : Except PathFault (List Read) := do
  match ← folder.place path with
  | .folder => return [.failed PathFault.isFolder.text]
  | .name station name slash =>
    match ← folder.find station name with
    | .folder _ => return [.failed PathFault.isFolder.text]
    | .text content =>
      if slash then throw .notFolder
      return (Utf8.encode content).map .byte
    | .null =>
      if slash then throw .notFolder
      return []

/-- The working folder with a text under a name. -/
def put (folder : Folder) (name text : String) : Folder :=
  ⟨(name, text) :: folder.files.filter (·.1 ≠ name)⟩

/-- The working folder once a text is written to a path. A name with a slash after it is
refused before it is looked up. -/
def write (folder : Folder) (path text : String) : Except PathFault Folder := do
  match ← folder.place path with
  | .folder => throw .isFolder
  | .name station name slash =>
    if slash then throw .isFolder
    match folder.find station name with
    | .ok (.folder _) => throw .isFolder
    | .ok .null => return folder
    | .ok (.text _) | .error .missing =>
      return if station = .working then folder.put name text else folder
    | .error fault => throw fault

end Folder

end LineBasic.Command
