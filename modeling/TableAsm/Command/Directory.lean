import TableAsm.Command.Run

/-! # A directory in memory

  Commands can be tried without a disk. A `Directory` holds files without
  subdirectories, and what was printed: `Directory.host` is the host that
  works on it.
-/

namespace TableAsm

/-- Files in a directory, and what has been written to the terminal. -/
structure Directory where
  /-- Names with contents, in the order of their creation. -/
  files : List (String × ByteArray) := []
  /-- The standard output. -/
  stdout : ByteArray := .empty
  /-- The standard error. -/
  stderr : String := ""

namespace Directory

/-- Longest file name, in bytes. -/
def maxName : Nat := 255

/-- Longest path, in bytes. -/
def maxPath : Nat := 4095

/-- What a path leads to. -/
inductive Place where
  /-- A file in the directory. -/
  | file (name : String)
  /-- The device that holds nothing and keeps nothing. -/
  | null
  /-- The standard output. -/
  | stdout
deriving DecidableEq, Repr

/-- What a path leads to. Steps that stay in the directory do not matter; a path that enters
    another directory leads nowhere, unless it names a device. The standard input is empty. -/
def place? (path : String) : Option Place :=
  let parts := (path.toList.splitOn '/').map String.ofList
  let last := parts.getLastD ""
  let steps := parts.dropLast.filter fun p => p != "" && p != "."
  if path.utf8ByteSize > maxPath || last == "" || last == "." || last == ".." then none
  else if parts.head? == some "" then
    match steps, last with
    | ["dev"], "null" => some .null
    | ["dev"], "stdin" => some .null
    | ["dev"], "stdout" => some .stdout
    | _, _ => none
  else if steps.isEmpty && decide (last.utf8ByteSize ≤ maxName) then some (.file last)
  else none

/-- The contents that reading a path gives. -/
def get? (d : Directory) (path : String) : Option ByteArray :=
  match place? path with
  | some (.file name) => d.files.lookup name
  | some .null => some .empty
  | _ => none

/-- Files with one of them created or replaced. -/
def put (name : String) (contents : ByteArray) :
    List (String × ByteArray) → List (String × ByteArray)
  | [] => [(name, contents)]
  | (n, c) :: rest =>
    if n = name then (name, contents) :: rest else (n, c) :: put name contents rest

/-- The host that works on a directory. -/
def host : Host (StateM Directory) where
  read path := do
    let d ← get
    return (d.get? path).bind String.fromUTF8?
  write path contents := do
    match place? path with
    | none => return false
    | some (.file name) =>
      modify fun d => { d with files := put name contents d.files }
      return true
    | some .null => return true
    | some .stdout =>
      modify fun d => { d with stdout := d.stdout ++ contents }
      return true
  print bytes := modify fun d => { d with stdout := d.stdout ++ bytes }
  complain line := modify fun d => { d with stderr := d.stderr ++ line ++ "\n" }

/-- Runs a command line in a directory; the exit status and the directory afterwards. -/
def runCommand (d : Directory) (args : List String) : UInt32 × Directory :=
  (TableAsm.runCommand host args).run d

end Directory

end TableAsm
