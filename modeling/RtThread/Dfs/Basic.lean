import Mathlib.Data.UInt
import RtThread.Lib.Cells

/-!
# Paths of the file systems

Model of `dfs_normalize_path` and `dfs_subdir` (`components/dfs/src/dfs.c`) and of
`dfs_filesystem_lookup` (`components/dfs/src/dfs_fs.c`).

`dfs_normalize_path` copies the path into a new block of memory and normalises it
there, with one pointer (`src`) that reads and one (`dst`) that writes. Memory is a
function from addresses to characters; what the heap does to its own data is not part
of the model. The loops run a given number of rounds and are `none` if this is not
enough. The other two functions only read their strings; a pointer into a string is
the index of a character.
-/

namespace RtThread

open Cells Function

/-- `char`. -/
abbrev CChar := UInt8

def slash : CChar := 0x2f

def dot : CChar := 0x2e

/-- A string without the zero at its end. -/
structure CString where
  chars : List CChar
  nonzero : 0 ∉ chars

/-- `s[i]`, with the zero at the end. -/
def CString.get (s : CString) (i : ℕ) : CChar := s.chars.getD i 0

abbrev CMem := ℕ → CChar

namespace Dfs

/-! ## `dfs_normalize_path` -/

/-- `while ((*src == '/') && (*src != '\0')) src ++;` -/
def skipSlashes (mem : CMem) : (rounds src : ℕ) → Option ℕ
  | 0, _ => none
  | rounds + 1, src =>
    if mem src = slash ∧ mem src ≠ 0 then skipSlashes mem rounds (src + 1) else some src

/-- Where the loop goes on after it has looked for `.` and `..` at `src`: to "copy up the next '/'",
to its next round or to `up_one`. -/
inductive Jump
  | copy (src : ℕ)
  | next (src : ℕ)
  | upOne (src : ℕ)
  deriving DecidableEq, Repr

/-- The first part of the loop (lines 343–375). -/
def dots (mem : CMem) (rounds src : ℕ) : Option Jump :=
  if mem src = dot then
    -- '.' and ends
    if mem (src + 1) = 0 then some (.copy (src + 1))
    -- './' case
    else if mem (src + 1) = slash then (skipSlashes mem rounds (src + 2)).map .next
    else if mem (src + 1) = dot then
      -- '..' and ends case
      if mem (src + 2) = 0 then some (.upOne (src + 2))
      -- '../' case
      else if mem (src + 2) = slash then (skipSlashes mem rounds (src + 3)).map .upOne
      else some (.copy src)
    else some (.copy src)
  else some (.copy src)

/-- The block and the two pointers. -/
structure Cursor where
  mem : CMem
  src : ℕ
  dst : ℕ

/-- `while ((c = *src++) != '\0' && c != '/') *dst ++ = c;`, with the last `c`. -/
def copyName : (rounds : ℕ) → Cursor → Option (CChar × Cursor)
  | 0, _ => none
  | rounds + 1, k =>
    let c := k.mem k.src
    if c ≠ 0 ∧ c ≠ slash then
      copyName rounds ⟨update k.mem k.dst c, k.src + 1, k.dst + 1⟩
    else some (c, { k with src := k.src + 1 })

/-- `while (c == '/') c = *src++;` -/
def eatSlashes (mem : CMem) : (rounds : ℕ) → CChar → (src : ℕ) → Option ℕ
  | 0, _, _ => none
  | rounds + 1, c, src =>
    if c = slash then eatSlashes mem rounds (mem src) (src + 1) else some src

/-- "copy up the next '/' and erase all '/'" (lines 377–392); `false` at the end of the path. -/
def copyUp (rounds : ℕ) (k : Cursor) : Option (Bool × Cursor) :=
  (copyName rounds k).bind fun (c, k) =>
    if c = slash then
      let mem := update k.mem k.dst slash
      (eatSlashes mem rounds c k.src).map fun src => (true, ⟨mem, src - 1, k.dst + 1⟩)
    else if c = 0 then some (false, k)
    else some (true, k)

/-- `while (dst0 < dst && dst[-1] != '/') dst --;` -/
def scanBack (mem : CMem) (dst0 : ℕ) : ℕ → ℕ
  | 0 => 0
  | dst + 1 => if dst0 < dst + 1 ∧ mem dst ≠ slash then scanBack mem dst0 dst else dst + 1

/-- `up_one` (lines 394–402); `none` if the function returns `RT_NULL`. -/
def upOne (mem : CMem) (dst0 dst : ℕ) : Option ℕ :=
  if dst - 1 < dst0 then none else some (scanBack mem dst0 (dst - 1))

/-- The loop of `dfs_normalize_path` (lines 341–403); `some none` if the function returns `RT_NULL`.
-/
def normLoop (dst0 : ℕ) : (rounds : ℕ) → Cursor → Option (Option Cursor)
  | 0, _ => none
  | rounds + 1, k =>
    (dots k.mem (rounds + 1) k.src).bind fun
      | .next src => normLoop dst0 rounds { k with src := src }
      | .upOne src =>
        match upOne k.mem dst0 k.dst with
        | none => some none
        | some dst => normLoop dst0 rounds { k with src := src, dst := dst }
      | .copy src =>
        (copyUp (rounds + 1) { k with src := src }).bind fun (more, k) =>
          if more then normLoop dst0 rounds k else some (some k)

/-- "remove '/' in the end of path if exist" (lines 405–410). -/
def cutSlash (fullpath : ℕ) (k : Cursor) : CMem :=
  let mem := update k.mem k.dst 0
  let dst := k.dst - 1
  if dst ≠ fullpath ∧ mem dst = slash then update mem dst 0 else mem

/-- The path that is copied into the block: `filename`, behind `directory` if it is not an absolute
path; `none` if there is no directory. -/
def fullPath (directory : Option CString) (filename : CString) : Option (List CChar) :=
  if filename.chars.head? ≠ some slash then
    directory.map fun directory => directory.chars ++ slash :: filename.chars
  else some filename.chars

/-- `dfs_normalize_path` (lines 298–413), with the block that is returned; `some none` for
`RT_NULL`. `workingDirectory` is there with `DFS_USING_WORKDIR` only; `malloc` is the address of the
block that `rt_malloc` or `rt_strdup` has allocated. -/
def dfsNormalizePath (workingDirectory directory : Option CString) (filename : CString)
    (malloc : Option ℕ) (mem : CMem) (rounds : ℕ) : Option (Option (ℕ × CMem)) :=
  match fullPath (directory.or workingDirectory) filename, malloc with
  | some path, some fullpath =>
    (normLoop fullpath rounds ⟨write mem fullpath (path ++ [0]), fullpath, fullpath⟩).map
      fun k => k.map fun k => (fullpath, cutSlash fullpath k)
  | _, _ => some none

/-! ## Mounted file systems -/

/-- The loop of `rt_strncmp` (`src/kservice.c`, lines 438–443), from the character `i` on. -/
def strncmpFrom (cs ct : CString) : (count i : ℕ) → (res : CChar) → CChar
  | 0, _, res => res
  | count + 1, i, _ =>
    let res := cs.get i - ct.get i
    if res ≠ 0 ∨ cs.get i = 0 then res else strncmpFrom cs ct count (i + 1) res

/-- `rt_strncmp`. -/
def rtStrncmp (cs ct : CString) (count : ℕ) : CChar := strncmpFrom cs ct count 0 0

/-- `struct dfs_filesystem`, with the address of its operations. -/
structure Filesystem where
  path : Option CString
  ops : Option ℕ

/-- The loop of `dfs_filesystem_lookup` (lines 94–111), over the entries of the table from `iter`
on. -/
def lookupLoop (path : CString) :
    (table : List Filesystem) → (iter : ℕ) → (fs : Option ℕ) → (prefixlen : ℕ) → Option ℕ
  | [], _, fs, _ => fs
  | entry :: table, iter, fs, prefixlen =>
    match entry.path, entry.ops with
    | some mount, some _ =>
      let fspath := mount.chars.length
      if fspath < prefixlen ∨ rtStrncmp mount path fspath ≠ 0 then
        lookupLoop path table (iter + 1) fs prefixlen
      -- check next path separator
      else if fspath > 1 ∧ path.chars.length > fspath ∧ path.get fspath ≠ slash then
        lookupLoop path table (iter + 1) fs prefixlen
      else lookupLoop path table (iter + 1) (some iter) fspath
    | _, _ => lookupLoop path table (iter + 1) fs prefixlen

/-- `dfs_filesystem_lookup` (`dfs_fs.c`, lines 80–116): the index in `filesystem_table`. -/
def dfsFilesystemLookup (table : List Filesystem) (path : CString) : Option ℕ :=
  lookupLoop path table 0 none 0

/-- `dfs_subdir` (`dfs.c`, lines 272–286): an index in `filename`. -/
def dfsSubdir (directory filename : CString) : Option ℕ :=
  -- it's a same path
  if directory.chars.length = filename.chars.length then none
  else
    let dir := directory.chars.length
    some (if filename.get dir ≠ slash ∧ dir ≠ 0 then dir - 1 else dir)

end Dfs

end RtThread
