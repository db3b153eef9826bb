import MonkeyScan.Utf8

/-!
# MonkeyScan.Command.Path

Names of files. A name is cut at its slashes. An empty component or a single dot stays where it
is and is left out where a name is shown; two dots lead up. A name that has no bytes or holds a
zero byte cannot be looked up at all, and one of `Path.limit` bytes or more leads nowhere.

`FileTree.find` looks a name up in a small tree of files and directories, seen from its top: of
what lies above, only directories are known to be there.
-/

namespace MonkeyScan
namespace Command

namespace Path

/-- The parts between separators; there is always at least one. -/
def split {α : Type} [DecidableEq α] (separator : α) : List α → List (List α)
  | [] => [[]]
  | x :: rest =>
    match split separator rest with
    | [] => [[x]]
    | part :: more => if x = separator then [] :: part :: more else (x :: part) :: more

def slash : CodePoint := .ofChar '/'

def dot : CodePoint := .ofChar '.'

/-- The slashes in front of a name: none, one, or exactly two. -/
def root (name : Text) : Text :=
  match (name.takeWhile (· == slash)).length with
  | 0 => []
  | 2 => [slash, slash]
  | _ => [slash]

def normalize (name : Text) : Text :=
  let parts := (split slash name).filter fun part => part != [] && part != [dot]
  match root name ++ [slash].intercalate parts with
  | [] => [dot]
  | shown => shown

def bytes? (name : Text) : Option Bytes :=
  match Utf8.encode name with
  | .ok bs => if Byte.nul ∈ bs then none else some bs
  | .error _ => none

/-- A name has to be shorter, its bytes counted. -/
def limit : Nat := 4096

/-- A name as it is shown in a message, with a replacement character where it is malformed. -/
def shown (name : Text) : String :=
  match Utf8.encode name with
  | .ok bs => Utf8.decodeLossy bs
  | .error _ => name.spelled

end Path

inductive Entry where
  | missing
  | unusable
  | directory
  | file (content : Bytes)
deriving DecidableEq

/-- The bytes of the components that lead from the top to a file or directory. -/
abbrev Steps := List Bytes

structure FileTree where
  files : List (Steps × Bytes)
  directories : List Steps

namespace FileTree

/-- The components of a name that are not needless. -/
def stepsOf (name : Text) : Steps :=
  match Utf8.encode (Path.normalize name) with
  | .ok bs => Path.split 47 bs
  | .error _ => []

/-- A tree of files with some directories beside those that hold the files. -/
def ofNames (files : List (Text × Bytes)) (directories : List Text) : FileTree where
  files := files.map fun (name, content) => (stepsOf name, content)
  directories := directories.map stepsOf

/-- A directory was named, or something lies below it. -/
def isDirectory (t : FileTree) (place : Steps) : Bool :=
  t.directories.any (place.isPrefixOf ·) || t.files.any (fun f => place.isPrefixOf f.1 && place != f.1)

/-- Follows components from a place in the tree, or from above it. -/
def walk (t : FileTree) : Option Steps → Steps → Entry
  | _, [] => .directory
  | place, step :: rest =>
    if step = [] ∨ step = [46] then t.walk place rest
    else
      match place with
      | none => if step = [46, 46] then t.walk none rest else .missing
      | some here =>
        if step = [46, 46] then t.walk (if here = [] then none else some here.dropLast) rest
        else
          let there := here ++ [step]
          if t.isDirectory there then t.walk (some there) rest
          else
            match t.files.lookup there, rest with
            | some content, [] => .file content
            | _, _ => .missing

/-- What a name leads to; the empty name leads nowhere. -/
def find (t : FileTree) (name : Text) : Entry :=
  match Path.bytes? name with
  | none => .unusable
  | some [] => .missing
  | some (first :: rest) =>
    if Path.limit ≤ (first :: rest).length then .missing
    else t.walk (if first = 47 then none else some []) (Path.split 47 (first :: rest))

end FileTree
end Command
end MonkeyScan
