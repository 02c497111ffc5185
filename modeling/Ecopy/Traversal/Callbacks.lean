import Ecopy.DirWalk.Walker
import Ecopy.HardLinks.Registry
import Ecopy.IdOptions
import Ecopy.Traversal.PrefixTests
import Ecopy.Verify.LocalItem

/-!
# What a local traversal leaves for the copy

The walker's callbacks write down each directory for the finalisation, make each symlink,
hand each regular file to the workers, and keep the further names of an inode for the end.
Every `struct stat` has the owner of `--uid` and `--gid` put in before. The callbacks of any
number of threads are one sequence here, the log of the walker; a directory's batch belongs
to its node.

The source does not change: each path names an object, and an object has one `struct stat`
and one content. Whether a file is skipped or queued is not followed, the metadata it gets is
the same. The failures that depend on the destination are left out; all of them mark the
traversal as failed.
-/
namespace Ecopy.Traversal
open Protocol (Bytes)
open Ecopy.Path Server HardLinks
open IdOptions (copyPolicyApplyIdOverride)

/-- `struct stat` with the number of links. -/
structure SourceStat extends Verify.LocalItem.Stat where
  nlink : UInt64

/-- `S_ISLNK` -/
def SourceStat.isLnk (st : SourceStat) : Bool := st.fileType == 0o120000

/-- What the metadata pass takes from a `struct stat`. -/
def SourceStat.attr (st : SourceStat) : Meta := ⟨st.uid, st.gid, st.mode, st.atime, st.mtime⟩

def SourceStat.inode (st : SourceStat) : Inode := (st.dev, st.ino)

/-- `target` is what `readlink` returns for a symlink, `data` what a file holds. -/
structure Source where
  object : Bytes → Inode
  statOf : Inode → SourceStat
  target : Inode → Bytes
  data : Inode → Bytes
  named : ∀ id, (statOf id).inode = id

def Source.lstat (src : Source) (path : Bytes) : SourceStat := src.statOf (src.object path)

theorem Source.inode_lstat (src : Source) (path : Bytes) :
    (src.lstat path).inode = src.object path :=
  src.named _

structure Options where
  uid : Option UInt32
  gid : Option UInt32
  preserveTimes : Bool

def Options.override (o : Options) (st : SourceStat) : SourceStat :=
  let owner := copyPolicyApplyIdOverride o.uid o.gid ⟨st.uid, st.gid⟩
  { st with uid := owner.uid, gid := owner.gid }

/-- `dir_record_t` -/
structure DirRecord where
  src : Bytes
  dst : Bytes
  srcSt : SourceStat
  depth : ℕ

/-- `file_entry_t` -/
structure FileEntry where
  name : Bytes
  st : SourceStat

/-- A file that is skipped or queued. -/
structure FileRecord where
  src : Bytes
  dst : Bytes
  srcSt : SourceStat

/-- A symlink that was made. -/
structure SymlinkRecord where
  dst : Bytes
  target : Bytes
  srcSt : SourceStat

structure Copy where
  dirs : List DirRecord
  symlinks : List SymlinkRecord
  batch : DirWalk.Node → List FileEntry
  files : List FileRecord
  links : Registry
  failed : Bool

def Copy.start : Copy := ⟨[], [], fun _ => [], [], .empty, false⟩

/-- `mark_traversal_error` -/
def Copy.fail (s : Copy) : Copy := { s with failed := true }

def fileStatBatch : ℕ := 512

def joinUnder (parent name : Bytes) : Option Bytes := pathJoinFast parent name pathMax

/-- The path of an entry, however long it is. -/
def childPath (parent name : Bytes) : Bytes :=
  (if parent = [slash] then [] else parent) ++ slash :: name

/-- The destination of an entry of the directory. -/
def entryDst (r : Roots) (n : DirWalk.Node) (name : Bytes) : Option Bytes :=
  (dstPathFor r n.path pathMax).bind fun dst => joinUnder dst name

def walkDirBegin (o : Options) (r : Roots) (src : Source) (s : Copy) (n : DirWalk.Node) : Copy :=
  match dstPathFor r n.path pathMax with
  | none => s.fail
  | some dst => { s with dirs := s.dirs ++ [⟨n.path, dst, o.override (src.lstat n.path), n.depth⟩] }

/-- One round of `flush_file_batch`. -/
def flushFile (r : Roots) (n : DirWalk.Node) (s : Copy) (f : FileEntry) : Copy :=
  match joinUnder n.path f.name, entryDst r n f.name with
  | some src, some dst => { s with files := s.files ++ [⟨src, dst, f.st⟩] }
  | _, _ => s.fail

def flushFileBatch (r : Roots) (s : Copy) (n : DirWalk.Node) : Copy :=
  (s.batch n).foldl (flushFile r n) { s with batch := Function.update s.batch n [] }

def batchFile (r : Roots) (s : Copy) (n : DirWalk.Node) (f : FileEntry) : Copy :=
  let s := { s with batch := Function.update s.batch n (s.batch n ++ [f]) }
  if (s.batch n).length = fileStatBatch then flushFileBatch r s n else s

/-- What `walk_entry` answers: a directory is entered unless it is the destination's. -/
def walkEntryDescends (r : Roots) (n : DirWalk.Node) (name : Bytes) (st : SourceStat) : Bool :=
  st.isDir &&
    match joinUnder n.path name with
    | some child => !pathIsUnderRoot child r.dst
    | none => true

/-- The target has to leave room in a buffer of `PATH_MAX` bytes. -/
def copySymlinkEntry (r : Roots) (src : Source) (s : Copy) (n : DirWalk.Node) (name : Bytes)
    (st : SourceStat) : Copy :=
  let target := src.target st.inode
  if target.length ≥ pathMax - 1 then s.fail
  else
    match entryDst r n name with
    | none => s.fail
    | some dst => { s with symlinks := s.symlinks ++ [⟨dst, target, st⟩] }

/-- A regular file with further links; `mem` is the memory there is for the registry. -/
def noteFile (mem : Memory) (r : Roots) (s : Copy) (n : DirWalk.Node) (f : FileEntry)
    (dst : Bytes) : Copy :=
  match hardlinksNote mem s.links ⟨f.st.dev, f.st.ino, f.st.attr⟩ dst with
  | (.secondary, links) => { s with links := links }
  | (.error, links) => batchFile r { s with links := links, failed := true } n f
  | (.primary, links) => batchFile r { s with links := links } n f

def walkEntry (o : Options) (r : Roots) (src : Source) (mem : Bytes → Memory) (s : Copy)
    (n : DirWalk.Node) (name : Bytes) : Copy :=
  let st := o.override (src.lstat (childPath n.path name))
  if st.isDir then s
  else if st.isLnk then copySymlinkEntry r src s n name st
  else if !st.isReg then s
  else if name.length ≥ 256 then s.fail
  else if st.nlink > 1 then
    match entryDst r n name with
    | none => s.fail
    | some dst => noteFile (mem dst) r s n ⟨name, st⟩ dst
  else batchFile r s n ⟨name, st⟩

def walkDirEnd (r : Roots) (s : Copy) (n : DirWalk.Node) (ok : Bool) : Copy :=
  flushFileBatch r (if ok then s else s.fail) n

/-- The callbacks; a directory that `dir_begin` refuses is a failure already. -/
def callback (o : Options) (r : Roots) (src : Source) (mem : Bytes → Memory) (s : Copy) :
    DirWalk.Event → Copy
  | .begun n ok => if ok then walkDirBegin o r src s n else s.fail
  | .entry n e _ _ _ => walkEntry o r src mem s n e.name
  | .ended n ok => walkDirEnd r s n ok
  | .openFailed _ => s.fail
  | .error _ => s.fail

def callbacks (o : Options) (r : Roots) (src : Source) (mem : Bytes → Memory)
    (log : List DirWalk.Event) : Copy :=
  log.foldl (callback o r src mem) .start

/-- The answers of `entry` in the log are those of `walk_entry`. -/
def Answered (o : Options) (r : Roots) (src : Source) (log : List DirWalk.Event) : Prop :=
  ∀ n e withStat descend child, DirWalk.Event.entry n e withStat descend child ∈ log →
    descend = walkEntryDescends r n e.name (o.override (src.lstat (childPath n.path e.name)))

/-- The listing shows the directories of the source below `path` as they are. -/
def Shows (src : Source) : Bytes → DirWalk.Listing → Prop
  | _, .eof _ => True
  | path, .entry e inside rest =>
    (e.stat ≠ .failed →
      (e.stat = .directory ↔ (src.lstat (childPath path e.name)).isDir = true)) ∧
    Shows src (childPath path e.name) inside ∧ Shows src path rest

end Ecopy.Traversal
