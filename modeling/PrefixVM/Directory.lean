import PrefixVM.DataFile

/-!
A directory of files, and what a path finds in it. Paths start at the root and are taken apart at
slashes; empty parts and single dots stand for the folder reached so far, two dots for the folder around
it. Of the tree that the directory lies in only the folders on the way to it are known, and every other
name outside of it is free. A file that does not exist yet cannot be created under a path that ends in a
slash.
-/
namespace PrefixVM

structure Directory where
  files : List (String × Bytes) := []
  /-- The names of the folders from the directory up to the root; the root has none. -/
  base : List String := []
  deriving DecidableEq, Repr

inductive PathError where
  | notFound
  | notDirectory
  | isDirectory
  | nameTooLong
  | nul
  | other (reason : String)
  deriving DecidableEq, Repr

namespace PathError

def reason : PathError → String
  | notFound => "No such file or directory (os error 2)"
  | notDirectory => "Not a directory (os error 20)"
  | isDirectory => "Is a directory (os error 21)"
  | nameTooLong => "File name too long (os error 36)"
  | nul => "file name contained an unexpected NUL byte"
  | other reason => reason

end PathError

inductive Place where
  /-- A folder, given by the names from it up to the root. -/
  | folder (names : List String)
  | file (name : String) (content : Bytes)
  | vacant (folder : List String) (name : String)
  deriving DecidableEq, Repr

namespace Directory

def find? (d : Directory) (name : String) : Option Bytes :=
  d.files.lookup name

def insert (d : Directory) (name : String) (content : Bytes) : Directory :=
  if (d.find? name).isSome then
    { d with files := d.files.map fun entry => if entry.1 = name then (name, content) else entry }
  else { d with files := d.files ++ [(name, content)] }

def maxNameLength : Nat := 255

def maxPathLength : Nat := 4095

/-- The limit of the file system that the directory lies in. -/
def fileLimit : FileLimit :=
  { length := 0xFFFFFFFF000, reason := "File too large (os error 27)" }

def lookup (d : Directory) (folder : List String) (name : String) : Place :=
  if (name :: folder).isSuffixOf d.base then .folder (name :: folder)
  else if folder = d.base then
    match d.find? name with
    | some content => .file name content
    | none => .vacant folder name
  else .vacant folder name

def descend (d : Directory) (place : Place) (part : String) : Except PathError Place :=
  match place with
  | .file _ _ => .error .notDirectory
  | .vacant _ _ => .error .notFound
  | .folder names =>
    if part = "" || part = "." then .ok (.folder names)
    else if part = ".." then .ok (.folder names.tail)
    else if maxNameLength < part.utf8ByteSize then .error .nameTooLong
    else .ok (d.lookup names part)

/-- The parts of a path between its slashes, at least one. -/
def parts : List Char → List (List Char)
  | [] => [[]]
  | '/' :: rest => [] :: parts rest
  | c :: rest =>
    match parts rest with
    | [] => [[c]]
    | first :: more => (c :: first) :: more

def follow (d : Directory) (parts : List (List Char)) : Except PathError Place :=
  parts.foldlM (fun place part => d.descend place (String.ofList part)) (.folder [])

def checkPath (path : String) : Except PathError Unit :=
  if '\x00' ∈ path.toList then .error .nul
  else if maxPathLength < path.utf8ByteSize then .error .nameTooLong
  else .ok ()

def locate (d : Directory) (path : String) : Except PathError Place := do
  checkPath path
  d.follow (parts path.toList)

/-- Follows a path to a file that may have to be created. -/
def locateNew (d : Directory) (path : String) : Except PathError Place := do
  checkPath path
  match (parts path.toList).reverse with
  | [] :: rest =>
    -- in front of a slash at the end only a folder can stand, whether there is one or not
    match ← d.follow ((rest.dropWhile List.isEmpty).drop 1).reverse with
    | .folder _ => throw .isDirectory
    | .file _ _ => throw .notDirectory
    | .vacant _ _ => throw .notFound
  | parts => d.follow parts.reverse

def read (d : Directory) (path : String) : Except PathError Bytes := do
  match ← d.locate path with
  | .file _ content => return content
  | .vacant _ _ => throw .notFound
  | .folder _ => throw .isDirectory

/-- The directory after writing the file that a path leads to. A file outside of the directory leaves it
as it is. -/
def write (d : Directory) (path : String) (content : Bytes) : Except PathError Directory := do
  match ← d.locateNew path with
  | .file name _ => return d.insert name content
  | .vacant folder name => return if folder = d.base then d.insert name content else d
  | .folder _ => throw .isDirectory

def slot (d : Directory) (path : String) : FileSlot :=
  match d.locateNew path with
  | .ok (.file _ content) => .regular content
  | .ok (.vacant _ _) => .absent
  | .ok (.folder _) => .blocked PathError.isDirectory.reason
  | .error e => .blocked e.reason

end Directory

def Image.ofFile (path : String) (content : Except PathError Bytes) : Except ImageError Image :=
  match content with
  | .ok bytes => Image.ofBytes bytes
  | .error .notFound => .error (.missingFile path)
  | .error e => .error (.io e.reason)

def Directory.loadImage (d : Directory) (path : String) : Except ImageError Image :=
  Image.ofFile path (d.read path)

end PrefixVM
