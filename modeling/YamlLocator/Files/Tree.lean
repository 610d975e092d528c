import YamlLocator.Files.Access
import YamlLocator.Text.Pieces

/-!
# Trees of Files

A file system held in memory: some directories and files below a working directory. It
knows nothing of what lies around that directory, apart from there being directories
above it.

A path is followed component by component. An empty component and a single dot stay
where they are, two dots go up, and anything else goes to the member of that name. Every
step must start from a directory, so that a file with a slash behind it is no way to the
file.

## Main definitions

* `FileTree`: Directories and files.
* `FileTree.follow`: The place that a path leads to.
* `FileTree.access`: The tree as a file system.
-/

namespace YamlLocator

/-- Directories and files below a working directory, by the components of their paths. -/
structure FileTree where
  /-- The absolute path of the working directory. -/
  root : String
  directories : List (List String)
  files : List (List String × ByteArray)

namespace FileTree

/-- The components of a path. -/
def components (path : String) : List String := (Text.pieces '/' path.toList).map String.ofList

/-- The components of the path of a member, without those that go nowhere. -/
def memberPath (path : String) : List String :=
  (components path).filter fun component => component ≠ "" ∧ component ≠ "."

/-- A place that a path can lead to. -/
inductive Place where
  /-- A directory of the tree. -/
  | directory (path : List String)
  /-- A file of the tree. -/
  | file (path : List String) (contents : ByteArray)
  /-- A directory above the tree. -/
  | outside

/-- Whether the tree has a directory: the working directory, one that is listed, or one
    that lies on the way to something that is. -/
def hasDirectory (tree : FileTree) (path : List String) : Bool :=
  path.isEmpty || tree.directories.any (path.isPrefixOf ·)
    || tree.files.any fun file => path.isPrefixOf file.1.dropLast

/-- The member of a directory that a component names. -/
def member (tree : FileTree) (path : List String) (name : String) : Except FileError Place :=
  let path := path ++ [name]
  match tree.files.find? (·.1 = path) with
  | some (_, contents) => .ok (.file path contents)
  | none => if tree.hasDirectory path then .ok (.directory path) else .error .notFound

/-- The place one component further. -/
def enter (tree : FileTree) (place : Place) (component : String) : Except FileError Place :=
  match place with
  | .file _ _ => .error .notADirectory
  | .directory path =>
    if component = "" ∨ component = "." then .ok place
    else if component = ".." then
      if path.isEmpty then .ok .outside else .ok (.directory path.dropLast)
    else tree.member path component
  | .outside =>
    if component = "" ∨ component = "." ∨ component = ".." then .ok .outside
    else .error .notFound

/-- The place that a path leads to from the working directory. -/
def follow (tree : FileTree) (path : String) : Except FileError Place :=
  if path = "" then
    .error .notFound
  else
    let start := if path.toList.head? = some '/' then Place.outside else .directory []
    (components path).foldlM tree.enter start

/-- The contents of a file. -/
def read (tree : FileTree) (path : String) : Except FileError String := do
  match ← tree.follow path with
  | .file _ contents => decodeText contents
  | .directory _ => throw .isADirectory
  | .outside => throw .isADirectory

/-- The absolute path of a member of the tree. -/
def absolute (tree : FileTree) (path : List String) : String :=
  path.foldl (fun whole component => whole ++ "/" ++ component) tree.root

/-- The absolute path of what a path leads to. -/
def canonicalize (tree : FileTree) (path : String) : Except FileError String := do
  match ← tree.follow path with
  | .file path _ => return tree.absolute path
  | .directory path => return tree.absolute path
  | .outside => throw .notFound

/-- The tree as a file system. -/
def access (tree : FileTree) : FileAccess Id where
  read path := pure (tree.read path)
  canonicalize path := pure (tree.canonicalize path)

end FileTree

end YamlLocator
