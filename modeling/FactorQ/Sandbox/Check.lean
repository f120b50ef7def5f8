/-
# `FactorQ.Sandbox.Check` — may a tool touch this path?

A tool that is about to touch the file system asks the sandbox first.  The sandbox resolves
the path and the granted prefixes and compares the results name by name; what it returns
is a resolved path, and that is what the tool opens.

A file to be written need not exist.  Then the sandbox splits the path as text into a
parent and a final name, resolves the parent only and joins the name to it, having made
sure that no link stands there.

The host's files are one tree, seen from a working directory; `links` is how many symbolic
links one resolution may take.
-/
import FactorQ.Lib.FileTree

namespace FactorQ.Sandbox

open Lib.FileTree

/-! ## The host -/

inductive Special where
  | fifo
  | socket
  | charDevice
  | blockDevice
deriving DecidableEq, Repr

/-- A name in a directory. -/
structure FileName where
  text : String
  plain : text ∉ ["", ".", ".."] ∧ '/' ∉ text.toList
deriving DecidableEq

abbrev FilePath := Path FileName
abbrev FileObject := Object FileName String Special

structure Host where
  tree : Tree FileName String Special
  cwd : List FileName
  links : Nat

def Piece.display : Piece FileName → String
  | .empty => ""
  | .dot => "."
  | .dotdot => ".."
  | .name n => n.text

def display (path : FilePath) : String :=
  (if path.absolute then "/" else "") ++ String.intercalate "/" (path.pieces.map Piece.display)

def Errno.display : Errno → String
  | .noEntry => "No such file or directory (os error 2)"
  | .notDirectory => "Not a directory (os error 20)"
  | .loop => "Too many levels of symbolic links (os error 40)"
  | .isDirectory => "Is a directory (os error 21)"
  | .noDevice => "No such device or address (os error 6)"

namespace Host

/-- `std::fs::canonicalize` -/
def canonicalize (host : Host) (path : FilePath) : Except Errno (List FileName) :=
  resolve host.tree true host.links host.cwd path

def stat (host : Host) (follow : Bool) (path : FilePath) : Except Errno FileObject :=
  (resolve host.tree follow host.links host.cwd path).bind fun q => (host.tree.get q).elim (.error .noEntry) .ok

/-- `std::fs::metadata` -/
def metadata (host : Host) : FilePath → Except Errno FileObject := host.stat true

/-- `std::fs::symlink_metadata` -/
def symlinkMetadata (host : Host) : FilePath → Except Errno FileObject := host.stat false

end Host

/-! ## Errors -/

inductive SandboxError where
  | permissionDenied (target : FilePath) (reason : String)
  | notFound (path : FilePath)
  | invalidPath (target : FilePath) (reason : String)
  | notRegularFile (target : FilePath) (wanted found : String)
  | io (path : FilePath) (source : Errno)
  | misquotedPath (target : FilePath)
  | unsubstitutedPlaceholder (target : FilePath)
deriving DecidableEq

/-- A failed check of a path that looks mangled is blamed on the path. -/
def flagMangled (target : FilePath) (err : SandboxError) : SandboxError :=
  let raw := (display target).toList
  if '"' ∈ raw ∨ '\\' ∈ raw then .misquotedPath target
  else if ['$', '\x7b'] <:+: raw then .unsubstitutedPlaceholder target
  else err

/-! ## Shapes -/

inductive FileShape where
  | regular
  | directory
deriving DecidableEq

def describeFileType : FileObject → String
  | .dir => "a directory"
  | .file _ => "a regular file"
  | .special .fifo => "a FIFO (named pipe), which would block forever waiting for a writer"
  | .special .socket => "a socket"
  | .special .charDevice => "a character device"
  | .special .blockDevice => "a block device"
  | .symlink _ => "neither a file nor a directory"

namespace FileShape

def accepts : FileShape → FileObject → Bool
  | regular, o => o.isFile
  | directory, o => o.isDir

def wanted : FileShape → String
  | regular => "a regular file"
  | directory => "a directory"

def check (shape : FileShape) (host : Host) (canonical : List FileName) (original : FilePath) :
    Except SandboxError Unit :=
  match host.metadata (.ofNames canonical) with
  | .error err => .error (.io original err)
  | .ok o =>
    if shape.accepts o then .ok ()
    else .error (.notRegularFile original shape.wanted (describeFileType o))

end FileShape

/-! ## Resolving what is asked for -/

/-- The path ends in `/` or `/.`, which asserts a directory. -/
def hasDirSuffix (target : FilePath) : Bool :=
  match target.pieces.getLast? with
  | none => target.absolute
  | some .empty => true
  | some .dot => target.absolute || 2 ≤ target.pieces.length
  | some _ => false

def canonicaliseExisting (host : Host) (target : FilePath) : Except Errno (List FileName) := host.canonicalize target

/-- The final component is absent, or a dangling link named with a slash at the end. -/
def canonicaliseParent (host : Host) (target : FilePath) : Except SandboxError (List FileName × Bool) :=
  match target.parent with
  | none => .error (.invalidPath target "path has no parent directory")
  | some parent =>
    match target.fileName with
    | none => .error (.invalidPath target "path has no final component")
    | some filename =>
      -- a lone file name lies in the working directory
      let parent := if parent.absolute = false ∧ parent.pieces.isEmpty then ⟨false, [.dot]⟩ else parent
      match host.canonicalize parent with
      | .error .noEntry => .error (.notFound parent)
      | .error err => .error (.io parent err)
      | .ok canonicalParent =>
        let candidate := canonicalParent ++ [filename]
        match host.symlinkMetadata (.ofNames candidate) with
        | .ok (.symlink _) =>
          .error (.permissionDenied target
            s!"write through dangling or unresolvable symlink {display (.ofNames candidate)} denied")
        | _ => .ok (candidate, false)

/-- The resolved path of a file to be written, and whether it exists. -/
def canonicaliseForWrite (host : Host) (target : FilePath) : Except SandboxError (List FileName × Bool) :=
  match host.symlinkMetadata target with
  | .ok o =>
    match host.canonicalize target with
    | .ok path => .ok (path, true)
    | .error err =>
      if o.isSymlink then
        .error (.permissionDenied target
          s!"write through dangling or unresolvable symlink {display target} denied: {Errno.display err}")
      else .error (.io target err)
  | .error .noEntry => canonicaliseParent host target
  | .error err =>
    if err = .notDirectory ∧ hasDirSuffix target then
      .error (.invalidPath target "trailing slash on a file path")
    else .error (.io target err)

/-! ## The sandbox -/

structure ToolSandbox where
  fsRead : List FilePath
  fsWrite : List FilePath
  execCwd : List FilePath

namespace ToolSandbox

def nothingGranted (target : FilePath) (dimension : String) : SandboxError :=
  .permissionDenied target s!"path {display target} denied; allowed {dimension} prefixes: (none)"

/-- A granted directory that does not exist contains nothing. -/
def within (host : Host) (canonical : List FileName) (granted : FilePath) : Bool :=
  match host.canonicalize granted with
  | .ok root => root.isPrefixOf canonical
  | .error _ => false

def checkWithin (host : Host) (canonical : List FileName) (prefixes : List FilePath) (dimension : String)
    (original : FilePath) : Except SandboxError (List FileName) :=
  if prefixes.any (within host canonical) then .ok canonical
  else
    .error (.permissionDenied original
      (s!"resolved path {display (.ofNames canonical)} is outside every allowed {dimension} prefix; allowed: " ++
        String.intercalate ", " (prefixes.map display)))

def checkReadImpl (self : ToolSandbox) (host : Host) (target : FilePath) (shape : FileShape) :
    Except SandboxError (List FileName) :=
  if self.fsRead.isEmpty then .error (nothingGranted target "fs_read")
  else
    match canonicaliseExisting host target with
    | .error .noEntry => .error (.notFound target)
    | .error err => .error (.io target err)
    | .ok canonical => do
        let canonical ← checkWithin host canonical self.fsRead "fs_read" target
        shape.check host canonical target
        return canonical

def checkRead (self : ToolSandbox) (host : Host) (target : FilePath) : Except SandboxError (List FileName) :=
  (self.checkReadImpl host target .regular).mapError (flagMangled target)

def checkReadDir (self : ToolSandbox) (host : Host) (target : FilePath) : Except SandboxError (List FileName) :=
  (self.checkReadImpl host target .directory).mapError (flagMangled target)

def checkWriteImpl (self : ToolSandbox) (host : Host) (target : FilePath) : Except SandboxError (List FileName) :=
  if self.fsWrite.isEmpty then .error (nothingGranted target "fs_write")
  else do
    let (canonical, present) ← canonicaliseForWrite host target
    let canonical ← checkWithin host canonical self.fsWrite "fs_write" target
    if present then
      FileShape.regular.check host canonical target
    return canonical

def checkWrite (self : ToolSandbox) (host : Host) (target : FilePath) : Except SandboxError (List FileName) :=
  (self.checkWriteImpl host target).mapError (flagMangled target)

/-- The shape is asked for before the grant here. -/
def checkExecCwdImpl (self : ToolSandbox) (host : Host) (target : FilePath) : Except SandboxError (List FileName) :=
  if self.execCwd.isEmpty then .error (nothingGranted target "exec_cwd")
  else
    match canonicaliseExisting host target with
    | .error .noEntry => .error (.notFound target)
    | .error err => .error (.io target err)
    | .ok canonical =>
      if isDir host canonical then checkWithin host canonical self.execCwd "exec_cwd" target
      else .error (.invalidPath target "exec cwd must be a directory")
where
  /-- `Path::is_dir`, false if there is no metadata -/
  isDir (host : Host) (canonical : List FileName) : Bool :=
    match host.metadata (.ofNames canonical) with
    | .ok o => o.isDir
    | .error _ => false

def checkExecCwd (self : ToolSandbox) (host : Host) (target : FilePath) : Except SandboxError (List FileName) :=
  (self.checkExecCwdImpl host target).mapError (flagMangled target)

end ToolSandbox

/-! ## The write tool -/

/-- The errors of the write tool; the source rewords those of the sandbox. -/
inductive ToolError where
  | sandbox (err : SandboxError)
  | permissionDenied (reason : String)
  | io (message : String)
deriving DecidableEq

/-- Create or truncate the file, never through a link.  A special file can be opened, and
is then found not to be regular; the message is the same as if it could not. -/
def writeNoFollow (host : Host) (path : FilePath) (content : String) :
    Except ToolError (Tree FileName String Special) :=
  match h : openEntry host.tree host.links host.cwd path with
  | .ok q => .ok (host.tree.write q content (openEntry_takes h))
  | .error .loop => .error (.permissionDenied s!"write through symlink {display path} denied")
  | .error .isDirectory => .error (.permissionDenied s!"write target {display path} is not a regular file")
  | .error .noDevice => .error (.permissionDenied s!"write target {display path} is not a regular file")
  | .error err => .error (.io s!"{display path}: {Errno.display err}")

/-- `FileWriteTool::execute`: the message for the caller, and the tree afterwards. -/
def execute (sandbox : ToolSandbox) (host : Host) (path : FilePath) (content : String) :
    Except ToolError (String × Tree FileName String Special) :=
  match sandbox.checkWrite host path with
  | .error err => .error (.sandbox err)
  | .ok canonical => do
      let tree ← writeNoFollow host (.ofNames canonical) content
      return (s!"Wrote {content.utf8ByteSize} bytes to {display (.ofNames canonical)}", tree)

end FactorQ.Sandbox
