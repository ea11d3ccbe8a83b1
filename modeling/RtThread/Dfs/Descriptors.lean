import RtThread.Dfs.Basic

/-!
# File descriptors

The descriptor table of `components/dfs/src/dfs.c` (`fd_new`, `fd_get`, `fd_put`), the
functions of `dfs_file.c` on a descriptor, and those of `dfs_posix.c` that open, close or
look up one. What the paths and the file systems below do in a call is given with the call
(`Env`), so it may be anything; a file system leaves `magic`, `ref_count` and `fs` of a
descriptor alone. Pointers that a function follows although they are `RT_NULL`, and
assertions that fail, make a call undefined (`none`).
-/

namespace RtThread.Dfs

/-! ## Descriptors and file systems -/

/-- `FT_REGULAR` and `FT_DIRECTORY`; there are others. -/
def ftRegular : ℕ := 0

def ftDirectory : ℕ := 2

def dfsFdMagic : ℕ := 0xfdfd

/-- The fields of `struct dfs_fd` that the file systems may change. -/
structure FileData where
  type : ℕ
  path : Option (List CChar)
  flags : ℕ
  size : ℕ
  pos : ℤ
  data : ℕ
  deriving DecidableEq

/-- `struct dfs_fd`. `fs` is an index in `filesystem_table`. -/
structure DfsFd where
  magic : ℕ
  refCount : ℤ
  fs : Option ℕ
  file : FileData
  deriving DecidableEq

/-- An entry that `rt_memset` has cleared. -/
def DfsFd.cleared : DfsFd := ⟨0, 0, none, ⟨0, none, 0, 0, 0, 0⟩⟩

/-- `struct dfs_filesystem_operation`: `none` for `RT_NULL`; an operation gives its result and what
it makes of the descriptor. `getdents` also fills the buffer, of which the record lengths matter. -/
structure FsOps where
  fullpath : Bool
  open_ : Option (FileData → ℤ × FileData)
  close : Option (FileData → ℤ × FileData)
  ioctl : Option (FileData → ℤ × FileData)
  read : Option (FileData → ℤ × FileData)
  write : Option (FileData → ℤ × FileData)
  flush : Option (FileData → ℤ × FileData)
  lseek : Option (ℤ → FileData → ℤ × FileData)
  getdents : Option (FileData → ℤ × FileData × (ℕ → ℕ))

/-- What a call finds: the result of `dfs_normalize_path`, the file systems, and whether `rt_strdup`
and `rt_malloc(sizeof(DIR))` succeed. -/
structure Env where
  fullpath : Option CString
  table : List Filesystem
  ops : ℕ → FsOps
  strdup : Bool
  malloc : Bool

def enoent : ℤ := 2
def ebadf : ℤ := 9
def enomem : ℤ := 12
def einval : ℤ := 22
def enosys : ℤ := 38

/-- `DFS_O_CREAT` and `DFS_O_DIRECTORY`, `DFS_F_OPEN` and `DFS_F_DIRECTORY`, `DFS_F_EOF`. -/
def oCreat : ℕ := 0x100
def oDirectory : ℕ := 0x200000
def fOpen : ℕ := 0x1000000
def fDirectory : ℕ := 0x2000000
def fEof : ℕ := 0x4000000

/-! ## `dfs_file.c` -/

/-- The path that is given to the file system: all of it, or what is below the mount point. -/
def actualPath (e : Env) (fs : ℕ) (fullpath : CString) : Option (List CChar) :=
  if (e.ops fs).fullpath then some fullpath.chars
  else if e.strdup then
    (e.table[fs]?).bind Filesystem.path |>.map fun mount =>
      match dfsSubdir mount fullpath with
      | none => [slash]
      | some dir => fullpath.chars.drop dir
  else none

/-- `dfs_file_open`: its result, and the file system and the data of the descriptor. -/
def dfsFileOpen (e : Env) (flags : ℕ) (fs : Option ℕ) (file : FileData) : ℤ × Option ℕ × FileData :=
  match e.fullpath with
  | none => (-1, fs, file)
  | some fullpath =>
    match dfsFilesystemLookup e.table fullpath with
    | none => (-enoent, fs, file)
    | some fs =>
      -- initialize the fd item
      let file := { file with
        type := ftRegular, flags := flags, size := 0, pos := 0
        path := actualPath e fs fullpath }
      match (e.ops fs).open_ with
      | none => (-enosys, some fs, { file with path := none })
      | some op =>
        let (result, file) := op file
        if result < 0 then (result, some fs, { file with path := none })
        else
          let file := { file with flags := file.flags ||| fOpen }
          if flags &&& oDirectory ≠ 0 then
            (0, some fs, { file with type := ftDirectory, flags := file.flags ||| fDirectory })
          else (0, some fs, file)

/-- `dfs_file_close`. -/
def dfsFileClose (e : Env) (fs : Option ℕ) (file : FileData) : Option (ℤ × FileData) :=
  fs.map fun fs =>
    let (result, file) :=
      match (e.ops fs).close with
      | none => (0, file)
      | some op => op file
    -- close fd error, return
    if result < 0 then (result, file) else (result, { file with path := none })

/-- `dfs_file_ioctl`. -/
def dfsFileIoctl (e : Env) (fs : Option ℕ) (file : FileData) : Option (ℤ × FileData) :=
  if file.type ≠ ftRegular then some (-einval, file)
  else
    fs.map fun fs =>
      match (e.ops fs).ioctl with
      | none => (-enosys, file)
      | some op => op file

/-- `dfs_file_read`. -/
def dfsFileRead (e : Env) (fs : Option ℕ) (file : FileData) : Option (ℤ × FileData) :=
  fs.map fun fs =>
    match (e.ops fs).read with
    | none => (-enosys, file)
    | some op =>
      let (result, file) := op file
      if result < 0 then (result, { file with flags := file.flags ||| fEof }) else (result, file)

/-- `dfs_file_write`. -/
def dfsFileWrite (e : Env) (fs : Option ℕ) (file : FileData) : Option (ℤ × FileData) :=
  fs.map fun fs =>
    match (e.ops fs).write with
    | none => (-enosys, file)
    | some op => op file

/-- `dfs_file_flush`. -/
def dfsFileFlush (e : Env) (fs : Option ℕ) (file : FileData) : Option (ℤ × FileData) :=
  fs.map fun fs =>
    match (e.ops fs).flush with
    | none => (-enosys, file)
    | some op => op file

/-- `dfs_file_lseek`. -/
def dfsFileLseek (e : Env) (offset : ℤ) (fs : Option ℕ) (file : FileData) : ℤ × FileData :=
  match fs with
  | none => (-einval, file)
  | some fs =>
    match (e.ops fs).lseek with
    | none => (-enosys, file)
    | some op =>
      let (result, file) := op offset file
      -- update current position
      if result ≥ 0 then (result, { file with pos := result }) else (result, file)

/-- `dfs_file_getdents`, with the record lengths of the buffer `buf`. -/
def dfsFileGetdents (e : Env) (buf : ℕ → ℕ) (fs : Option ℕ) (file : FileData) :
    Option (ℤ × FileData × (ℕ → ℕ)) :=
  if file.type ≠ ftDirectory then some (-einval, file, buf)
  else
    fs.map fun fs =>
      match (e.ops fs).getdents with
      | none => (-enosys, file, buf)
      | some op => op file

/-! ## The table -/

/-- `DFS_USING_STDIO`, which keeps three numbers free, and `DFS_FD_MAX`. -/
structure Config where
  stdio : Bool
  fdMax : ℕ

/-- The number of the first descriptor. -/
def Config.base (c : Config) : ℕ := if c.stdio then 3 else 0

/-- `DIR`, with the record lengths of its buffer. -/
structure Dir where
  fd : ℤ
  buf : ℕ → ℕ
  num : ℤ
  cur : ℤ

/-- `fd_table` and `errno`. -/
structure Fds where
  fdTable : ℕ → DfsFd
  errno : ℤ

namespace Fds

variable (c : Config)

/-- `dfs_init`. -/
def dfsInit : Fds := ⟨fun _ => .cleared, 0⟩

def modify (s : Fds) (i : ℕ) (f : DfsFd → DfsFd) : Fds :=
  { s with fdTable := Function.update s.fdTable i (f (s.fdTable i)) }

/-- `rt_set_errno`. -/
def rtSetErrno (s : Fds) (errno : ℤ) : Fds := { s with errno }

/-- The loop of `fd_new`, over the entries from `idx` on. -/
def findEmpty (fdTable : ℕ → DfsFd) : (rounds idx : ℕ) → Option ℕ
  | 0, _ => none
  | rounds + 1, idx =>
    if (fdTable idx).refCount > 0 then findEmpty fdTable rounds (idx + 1) else some idx

/-- `fd_new`; `none` for -1. -/
def fdNew (s : Fds) : Option (ℕ × Fds) :=
  (findEmpty s.fdTable c.fdMax c.base).map fun idx =>
    (idx, s.modify idx fun d => { d with refCount := 1, magic := dfsFdMagic })

/-- `fd_get`; `none` for `RT_NULL`. -/
def fdGet (s : Fds) (fd : ℤ) : Option (ℕ × Fds) :=
  if fd < c.base ∨ fd ≥ c.fdMax + c.base then none
  else if (s.fdTable fd.toNat).magic ≠ dfsFdMagic then none
  else some (fd.toNat, s.modify fd.toNat fun d => { d with refCount := d.refCount + 1 })

/-- `fd_put`. -/
def fdPut (s : Fds) (i : ℕ) : Fds :=
  s.modify i fun d =>
    let d := { d with refCount := d.refCount - 1 }
    if d.refCount = 0 then .cleared else d

/-! ## `dfs_posix.c` -/

/-- `open`. -/
def posixOpen (s : Fds) (e : Env) (flags : ℕ) : Option (ℤ × Fds) :=
  match s.fdNew c with
  | none => some (-1, s.rtSetErrno (-enomem))
  | some (fd, s) =>
    (s.fdGet c fd).map fun (d, s) =>
      let (result, fs, file) := dfsFileOpen e flags (s.fdTable d).fs (s.fdTable d).file
      let s := s.modify d fun f => { f with fs, file }
      if result < 0 then (-1, ((s.fdPut d).fdPut d).rtSetErrno result)
      else (fd, s.fdPut d)

/-- `close`. -/
def posixClose (s : Fds) (e : Env) (fd : ℤ) : Option (ℤ × Fds) :=
  match s.fdGet c fd with
  | none => some (-1, s.rtSetErrno (-ebadf))
  | some (d, s) =>
    (dfsFileClose e (s.fdTable d).fs (s.fdTable d).file).map fun (result, file) =>
      let s := (s.modify d fun f => { f with file }).fdPut d
      if result < 0 then (-1, s.rtSetErrno result) else (0, s.fdPut d)

/-- `mkdir`. -/
def posixMkdir (s : Fds) (e : Env) : Option (ℤ × Fds) :=
  match s.fdNew c with
  | none => some (-1, s.rtSetErrno (-enomem))
  | some (fd, s) =>
    (s.fdGet c fd).bind fun (d, s) =>
      let (result, fs, file) :=
        dfsFileOpen e (oDirectory ||| oCreat) (s.fdTable d).fs (s.fdTable d).file
      let s := s.modify d fun f => { f with fs, file }
      if result < 0 then some (-1, ((s.fdPut d).fdPut d).rtSetErrno result)
      else
        (dfsFileClose e (s.fdTable d).fs (s.fdTable d).file).map fun (_, file) =>
          (0, ((s.modify d fun f => { f with file }).fdPut d).fdPut d)

/-- `opendir`. -/
def opendir (s : Fds) (e : Env) : Option (Option Dir × Fds) :=
  match s.fdNew c with
  | none => some (none, s.rtSetErrno (-enomem))
  | some (fd, s) =>
    (s.fdGet c fd).bind fun (d, s) =>
      let (result, fs, file) := dfsFileOpen e oDirectory (s.fdTable d).fs (s.fdTable d).file
      let s := s.modify d fun f => { f with fs, file }
      if result ≥ 0 then
        if e.malloc then some (some ⟨fd, fun _ => 0, 0, 0⟩, s.fdPut d)
        else
          (dfsFileClose e (s.fdTable d).fs (s.fdTable d).file).map fun (_, file) =>
            (none, ((s.modify d fun f => { f with file }).fdPut d).fdPut d)
      -- open failed
      else some (none, ((s.fdPut d).fdPut d).rtSetErrno result)

/-- `closedir`. -/
def closedir (s : Fds) (e : Env) (d : Dir) : Option (ℤ × Fds) :=
  match s.fdGet c d.fd with
  | none => some (-1, s.rtSetErrno (-ebadf))
  | some (fd, s) =>
    (dfsFileClose e (s.fdTable fd).fs (s.fdTable fd).file).map fun (result, file) =>
      let s := ((s.modify fd fun f => { f with file }).fdPut fd).fdPut fd
      if result < 0 then (-1, s.rtSetErrno result) else (0, s)

/-- The functions that look a descriptor up and put it back: `bad` is what they return for no
descriptor; `body` gives the result, the error number and the data of the descriptor. -/
def withFd {α : Type} (s : Fds) (fd : ℤ) (bad : α)
    (body : Option ℕ → FileData → Option (α × Option ℤ × FileData)) : Option (α × Fds) :=
  match s.fdGet c fd with
  | none => some (bad, s.rtSetErrno (-ebadf))
  | some (d, s) =>
    (body (s.fdTable d).fs (s.fdTable d).file).map fun (result, errno, file) =>
      let s := (s.modify d fun f => { f with file }).fdPut d
      (result, match errno with
        | none => s
        | some errno => s.rtSetErrno errno)

/-- A negative result sets `errno` and is returned as -1. -/
def posixResult (r : ℤ × FileData) : ℤ × Option ℤ × FileData :=
  if r.1 < 0 then (-1, some r.1, r.2) else (r.1, none, r.2)

/-- `read`. -/
def posixRead (s : Fds) (e : Env) (fd : ℤ) : Option (ℤ × Fds) :=
  s.withFd c fd (-1) fun fs file => (dfsFileRead e fs file).map posixResult

/-- `write`. -/
def posixWrite (s : Fds) (e : Env) (fd : ℤ) : Option (ℤ × Fds) :=
  s.withFd c fd (-1) fun fs file => (dfsFileWrite e fs file).map posixResult

/-- `DFS_SEEK_SET`, `DFS_SEEK_CUR` and `DFS_SEEK_END`, or another number. -/
inductive Whence
  | set
  | cur
  | end_
  | other

/-- `lseek`, which returns the offset that it has computed. -/
def posixLseek (s : Fds) (e : Env) (fd offset : ℤ) (whence : Whence) : Option (ℤ × Fds) :=
  s.withFd c fd (-1) fun fs file =>
    let offset :=
      match whence with
      | .set => some offset
      | .cur => some (offset + file.pos)
      | .end_ => some (offset + file.size)
      | .other => none
    match offset with
    | none => some (-1, some (-einval), file)
    | some offset =>
      if offset < 0 then some (-1, some (-einval), file)
      else
        let (result, file) := dfsFileLseek e offset fs file
        if result < 0 then some (-1, some result, file) else some (offset, none, file)

/-- `fstat`: `st_mode` and `st_size`. -/
def fstat (s : Fds) (fildes : ℤ) : Option (Option (ℕ × ℕ) × Fds) :=
  s.withFd c fildes none fun _ file =>
    some (some (if file.type = ftDirectory then 0o40777 else 0o100666, file.size), none, file)

/-- `fsync`, which leaves `errno` alone. -/
def fsync (s : Fds) (e : Env) (fildes : ℤ) : Option (ℤ × Fds) :=
  s.withFd c fildes (-1) fun fs file => (dfsFileFlush e fs file).map fun r => (r.1, none, r.2)

/-- `ioctl`. -/
def posixIoctl (s : Fds) (e : Env) (fildes : ℤ) : Option (ℤ × Fds) :=
  s.withFd c fildes (-1) fun fs file => (dfsFileIoctl e fs file).map fun r =>
    if r.1 ≠ 0 then (-1, some r.1, r.2) else (r.1, none, r.2)

/-- `readdir`: the stream, and where in its buffer the entry is. -/
def readdir (s : Fds) (e : Env) (d : Dir) : Option ((Dir × Option ℤ) × Fds) :=
  s.withFd c d.fd (d, none) fun fs file =>
    let d := if d.num ≠ 0 then { d with cur := d.cur + d.buf d.cur.toNat } else d
    if d.num = 0 ∨ d.cur ≥ d.num then
      -- get a new entry
      (dfsFileGetdents e d.buf fs file).map fun (result, file, buf) =>
        if result ≤ 0 then (({ d with buf }, none), some result, file)
        else (({ d with buf, num := result, cur := 0 }, some 0), none, file)
    else some ((d, some d.cur), none, file)

/-- `telldir`. -/
def telldir (s : Fds) (d : Dir) : Option (ℤ × Fds) :=
  s.withFd c d.fd 0 fun _ file => some (file.pos - d.num + d.cur, none, file)

/-- `seekdir`. -/
def seekdir (s : Fds) (e : Env) (d : Dir) (offset : ℤ) : Option (Dir × Fds) :=
  s.withFd c d.fd d fun fs file =>
    -- seek to the offset position of directory
    let (result, file) := dfsFileLseek e offset fs file
    some (if result ≥ 0 then { d with num := 0, cur := 0 } else d, none, file)

/-- `rewinddir`. -/
def rewinddir (s : Fds) (e : Env) (d : Dir) : Option (Dir × Fds) := s.seekdir c e d 0

end Fds

end RtThread.Dfs
