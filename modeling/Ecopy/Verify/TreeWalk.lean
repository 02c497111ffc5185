import Ecopy.Traversal.Callbacks

/-!
# The walk of verify-only

`walk_submit` goes through the source once more, without the walker of the copy, and hands
one item for each regular file and directory to the pool. An item carries the `struct stat`
as `lstat` filled it in. The pool verifies every item it was handed; how its threads share
them makes no difference to their verdicts.

Memory for the items and a stop request are left out.
-/
namespace Ecopy.Verify.TreeWalk
open Protocol (Bytes)
open Ecopy.Path LocalItem
open Traversal (Source)

def joinChildPath (parent name : Bytes) : Option Bytes :=
  let path := parent ++ (if parent = [slash] then [] else [slash]) ++ name
  if path.length ≥ pathMax then none else some path

/-- Whether the walk failed, and the items submitted. -/
structure Walk where
  failed : Bool
  items : List Item

def Walk.andThen (w v : Walk) : Walk := ⟨w.failed || v.failed, w.items ++ v.items⟩

/-- A path that is too long, or an entry or a directory that cannot be read. -/
def Walk.failure : Walk := ⟨true, []⟩

def itemOf (src : Source) (path dst : Bytes) : Item :=
  ⟨path, dst, (src.lstat path).toStat, (src.lstat path).isDir⟩

/-- `walk_submit` for an entry whose `struct stat` is known; `below` is the walk of the
directory. -/
def submit (src : Source) (path dst : Bytes) (readable : Bool) (below : Walk) : Walk :=
  if (src.lstat path).isReg then ⟨false, [itemOf src path dst]⟩
  else if (src.lstat path).isDir then
    Walk.andThen ⟨false, [itemOf src path dst]⟩ (if readable then below else .failure)
  else ⟨false, []⟩

/-- One round of the loop of `walk_submit`. -/
def submitEntry (src : Source) (path dst : Bytes) (e : DirWalk.Entry)
    (below : Bytes → Bytes → Walk) : Walk :=
  if e.name = dot ∨ e.name = dotdot then ⟨false, []⟩
  else
    match joinChildPath path e.name, joinChildPath dst e.name with
    | some childSrc, some childDst =>
      if e.stat = .failed then .failure
      else submit src childSrc childDst (e.opens && e.streams) (below childSrc childDst)
    | _, _ => .failure

/-- The loop of `walk_submit` over the entries of a directory. -/
def walkEntries (src : Source) (path dst : Bytes) : DirWalk.Listing → Walk
  | .eof error => ⟨error, []⟩
  | .entry e inside rest =>
    (submitEntry src path dst e fun childSrc childDst =>
      walkEntries src childSrc childDst inside).andThen (walkEntries src path dst rest)

/-- The walk of `verify_run_tree`. -/
def walkTree (src : Source) (c : DirWalk.Config) (dst : Bytes) : Walk :=
  submit src c.root dst (c.opens && c.streams) (walkEntries src c.root dst c.inside)

/-- `verify_run_tree` with `system`, what the items meet. -/
def verifyRunTree (cfg : Config) (src : Source) (c : DirWalk.Config) (dst : Bytes)
    (system : Item → System) : Bool × List Report :=
  let walk := walkTree src c dst
  let reports := walk.items.map fun item => verifyLocalItem cfg item (system item)
  (walk.failed || reports.any Report.failed, reports)

/-- An entry that is a regular file or a directory with a path to name it, and what is below. -/
def entryBelow (src : Source) (path : Bytes) (e : DirWalk.Entry) (below : Bytes → List Bytes) :
    List Bytes :=
  if e.name = dot ∨ e.name = dotdot ∨ e.stat = .failed then []
  else
    match joinChildPath path e.name with
    | none => []
    | some child =>
      if (src.lstat child).isReg then [child]
      else if (src.lstat child).isDir then child :: below child
      else []

def entriesBelow (src : Source) (path : Bytes) : DirWalk.Listing → List Bytes
  | .eof _ => []
  | .entry e inside rest =>
    (entryBelow src path e fun child => entriesBelow src child inside) ++
      entriesBelow src path rest

/-- The regular files and directories of the tree. -/
def treeEntries (src : Source) (c : DirWalk.Config) : List Bytes :=
  c.root :: entriesBelow src c.root c.inside

end Ecopy.Verify.TreeWalk
